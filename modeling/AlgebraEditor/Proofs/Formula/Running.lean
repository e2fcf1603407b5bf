import AlgebraEditor.Formula.Parser
import AlgebraEditor.Proofs.Outcome

/-!
# Running what is read

What a reading does with a reader and an arena follows from what its parts do, one after the other.
-/

namespace AlgebraEditor.Formula

namespace Reading

variable {α β : Type} {x : Reading α} {k : α → Reading β} {y : α} {r r' : Reader} {a b : Arena}
  {e : ParseError}

/-- What follows is read only if there was no parse error. -/
theorem startAt_bind (x : Reading α) (k : α → Reading β) (r : Reader) :
    (x >>= k).startAt r = x.startAt r >>= fun out => match out with
      | (.ok y, r') => (k y).startAt r'
      | (.error e, r') => pure (.error e, r') := by
  change (StateT.bind _ _ : StateT Reader Edit _) r = _
  unfold StateT.bind
  refine bind_congr fun out => ?_
  obtain ⟨_ | _, _⟩ := out <;> rfl

/-- An edit does not touch the reader. -/
theorem startAt_edit (z : Edit α) (r : Reader) :
    (liftM z : Reading α).startAt r = z >>= fun y => pure (.ok y, r) := by
  change ((z >>= fun y => pure (y, r)) >>= fun out => pure (Except.ok out.1, out.2)) = _
  rw [bind_assoc]
  rfl

theorem run_bind_of_ok (first : (x.startAt r).run a = .ok (.ok y, r') b) :
    ((x >>= k).startAt r).run a = ((k y).startAt r').run b := by
  rw [startAt_bind, Edit.run_bind_of_ok first]

theorem run_bind_of_error (first : (x.startAt r).run a = .ok (.error e, r') b) :
    ((x >>= k).startAt r).run a = .ok (.error e, r') b := by
  rw [startAt_bind, Edit.run_bind_of_ok first]
  rfl

theorem run_edit {z : Edit α} (done : z.run a = .ok y b) :
    ((liftM z : Reading α).startAt r).run a = .ok (.ok y, r) b := by
  rw [startAt_edit, Edit.run_bind_of_ok done]
  rfl

theorem run_edit_bind {z : Edit α} (done : z.run a = .ok y b) :
    (((liftM z : Reading α) >>= k).startAt r).run a = ((k y).startAt r).run b :=
  run_bind_of_ok (run_edit done)

theorem run_get (r : Reader) (a : Arena) :
    ((get : Reading Reader).startAt r).run a = .ok (.ok r, r) a := rfl

theorem run_get_bind (k : Reader → Reading β) :
    (((get : Reading Reader) >>= k).startAt r).run a = ((k r).startAt r).run a := rfl

end Reading

end AlgebraEditor.Formula
