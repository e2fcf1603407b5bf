import AlgebraEditor.Console.Marked
import AlgebraEditor.Proofs.Formula.Linear
import AlgebraEditor.Proofs.Renaming.Reading

/-!
# Writing under other names

Neither the text of an element nor the view with its marks names a handle, so both are the same
under other names. Every well-formed arena has a view, whatever is marked.
-/

namespace AlgebraEditor

open Function (Injective)

variable {f : Handle → Handle} {a b : Arena}

namespace Arena

theorem standsApart_rename (inj : Injective f) (purpose : Purpose) (container : Element)
    (child : Handle) (kind : Kind) :
    standsApart purpose (container.rename f) (f child) kind =
      standsApart purpose container child kind := by
  cases container with
  | power => simp only [Element.rename, standsApart, inj.eq_iff]
  | _ => rfl

/-! ### Text -/

namespace Embeds

variable (e : a.Embeds f b)

include e

theorem needsParens (parent child : Handle) (purpose : Purpose) :
    Mirrors id (a.needsParens parent child purpose)
      (b.needsParens (f parent) (f child) purpose) := by
  refine (e.parent child).bind fun owner => ?_
  have elsewhere := (Option.map_injective e.injective).ne_iff (x := owner) (y := some parent)
  refine .guard elsewhere (fun _ => nofun) fun _ => ?_
  refine (e.kind child).bind fun kind => (e.element parent).map fun container => ?_
  rw [standsApart_rename e.injective, Element.kind_rename]
  rfl

section

variable {write write' : Handle → Except Fault (List Char)}
  (writes : ∀ h, Mirrors id (write h) (write' (f h)))

include writes

theorem bracketed (purpose : Purpose) (parent child : Handle) :
    Mirrors id (a.bracketed purpose write parent child)
      (b.bracketed purpose write' (f parent) (f child)) :=
  (e.needsParens parent child purpose).bind fun _ => (writes child).map fun _ => rfl

theorem signedTerm (purpose : Purpose) (sum term : Handle) :
    Mirrors id (a.signedTerm (a.bracketed purpose write) sum term)
      (b.signedTerm (b.bracketed purpose write') (f sum) (f term)) := by
  refine (e.negated? term).bind fun inner => ?_
  cases inner with
  | none => exact (e.bracketed writes purpose sum term).map fun _ => rfl
  | some inner => exact (e.bracketed writes purpose term inner).map fun _ => rfl

end

theorem writeWithin (purpose : Purpose) {i j : Nat} (more : i ≤ j) (h : Handle) :
    Mirrors id (a.writeWithin purpose i h) (b.writeWithin purpose j (f h)) := by
  induction i generalizing j h with
  | zero => exact .throw
  | succ i ih =>
    obtain ⟨j, rfl⟩ : ∃ k, j = k + 1 := ⟨j - 1, by omega⟩
    have slot := e.bracketed (fun k => ih (j := j) (by omega) k) purpose
    have signed := e.signedTerm (fun k => ih (j := j) (by omega) k) purpose
    rw [Arena.writeWithin, Arena.writeWithin]
    refine (e.element h).bind fun x => ?_
    cases x with
    | symbol | integer => exact .pure rfl
    | negation inner => exact (slot h inner).map fun _ => rfl
    | fraction x y | power x y => exact (slot h x).bind fun _ => (slot h y).map fun _ => rfl
    | product hs => exact (Mirrors.mapM_same (slot h)).map fun _ => rfl
    | sum hs => exact (Mirrors.mapM_same (signed h)).map fun _ => rfl
    | root inner => exact slot h inner

theorem write (purpose : Purpose) (h : Handle) :
    Mirrors id (a.write purpose h) (b.write purpose (f h)) := e.writeWithin purpose e.reach h

end Embeds

/-! ### Marks -/

namespace Marks

/-- The marks of elements under other names. -/
def rename (f : Handle → Handle) (m : Marks) : Marks := ⟨m.selected.map f⟩

variable {m : Marks}

theorem isSingle_rename (inj : Injective f) (h : Handle) :
    (m.rename f).isSingle (f h) = m.isSingle h :=
  decide_eq_decide.mpr ((List.map_injective_iff.mpr inj).eq_iff (b := [h]))

theorem opensRun_rename (inj : Injective f) (h : Handle) :
    (m.rename f).opensRun (f h) = m.opensRun h := by
  have same := (Option.map_injective inj).eq_iff (a := m.selected.head?) (b := some h)
  refine decide_eq_decide.mpr ?_
  rw [rename, List.length_map, List.head?_map]
  exact and_congr_right fun _ => same

theorem closesRun_rename (inj : Injective f) (h : Handle) :
    (m.rename f).closesRun (f h) = m.closesRun h := by
  have same := (Option.map_injective inj).eq_iff (a := m.selected.getLast?) (b := some h)
  refine decide_eq_decide.mpr ?_
  rw [rename, List.length_map, List.getLast?_map]
  exact and_congr_right fun _ => same

theorem inRun_rename (inj : Injective f) (h : Handle) (text : List Char) :
    (m.rename f).inRun (f h) text = m.inRun h text := by
  rw [inRun, inRun, opensRun_rename inj, closesRun_rename inj]

section

variable {write write' : Handle → Except Fault (List Char)} (e : a.Embeds f b)
  (writes : ∀ h, Mirrors id (write h) (write' (f h)))

include e writes

theorem slot_mirrors (parent child : Handle) :
    Mirrors id (m.slot a write parent child)
      ((m.rename f).slot b write' (f parent) (f child)) :=
  (e.bracketed writes .display parent child).map fun _ => by
    rw [isSingle_rename e.injective]
    rfl

theorem exponent_mirrors (power child : Handle) :
    Mirrors id (m.exponent a write power child)
      ((m.rename f).exponent b write' (f power) (f child)) :=
  (e.kind child).bind fun _ => (slot_mirrors e writes power child).map fun _ => rfl

theorem term_mirrors (sum term : Handle) :
    Mirrors id (m.term a write sum term) ((m.rename f).term b write' (f sum) (f term)) := by
  have whole : Mirrors id
      (do return (false, m.inRun term (← m.slot a write sum term)) : Except Fault (Bool × List Char))
      (do return (false, (m.rename f).inRun (f term) (← (m.rename f).slot b write' (f sum) (f term))) :
        Except Fault (Bool × List Char)) :=
    (slot_mirrors e writes sum term).map fun _ => by
      rw [inRun_rename e.injective]
      rfl
  refine (e.negated? term).bind fun inner => ?_
  cases inner with
  | none => exact whole
  | some inner =>
    refine .guard ?_ (fun _ => whole) fun _ => (slot_mirrors e writes term inner).map fun _ => ?_
    · rw [opensRun_rename e.injective, isSingle_rename e.injective]
    · rw [inRun_rename e.injective]
      rfl

end

theorem writeWithin_mirrors (e : a.Embeds f b) {i j : Nat} (more : i ≤ j) (h : Handle) :
    Mirrors id (m.writeWithin a i h) ((m.rename f).writeWithin b j (f h)) := by
  induction i generalizing j h with
  | zero => exact .throw
  | succ i ih =>
    obtain ⟨j, rfl⟩ : ∃ k, j = k + 1 := ⟨j - 1, by omega⟩
    have part := fun k => ih (j := j) (by omega) k
    have slot := slot_mirrors (m := m) e part
    rw [writeWithin, writeWithin]
    refine (e.element h).bind fun x => ?_
    cases x with
    | symbol | integer => exact .pure rfl
    | negation inner => exact (slot h inner).map fun _ => rfl
    | fraction x y => exact (slot h x).bind fun _ => (slot h y).map fun _ => rfl
    | power x y =>
      exact (slot h x).bind fun _ => (exponent_mirrors e part h y).map fun _ => rfl
    | product hs =>
      refine (Mirrors.mapM_same fun k => (slot h k).map fun _ => ?_).map fun _ => rfl
      rw [inRun_rename e.injective]
      rfl
    | sum hs => exact (Mirrors.mapM_same (term_mirrors e part h)).map fun _ => rfl
    | root inner => exact slot h inner

end Marks

theorem Embeds.writeMarked (e : a.Embeds f b) (hs : List Handle) :
    Mirrors id (a.writeMarked hs) (b.writeMarked (hs.map f)) := by
  unfold Arena.writeMarked
  rw [e.root]
  refine (Marks.writeWithin_mirrors (m := ⟨hs⟩) e e.reach a.root).map fun _ => ?_
  exact congrArg (Marks.enclosed · _ _ _) (Marks.isSingle_rename e.injective a.root).symm

/-! ### Every view can be written -/

namespace Marks

variable {m : Marks} {h c : Handle} {n : Node} {write : Handle → Except Fault (List Char)}

theorem exists_slot (m : Marks) (wf : a.WellFormed) (stored : a.get? h = some n)
    (member : c ∈ n.element.children) (written : ∃ cs, write c = .ok cs) :
    ∃ cs, m.slot a write h c = .ok cs := by
  obtain ⟨k, held⟩ := wf.stored_of_mem_children stored member
  obtain ⟨cs, written⟩ := written
  rw [slot, bracketed, needsParens_eq_ok wf .display stored held member, ok_bind, written]
  exact ⟨_, rfl⟩

theorem exists_term (m : Marks) (wf : a.WellFormed) (stored : a.get? h = some n)
    (member : c ∈ n.element.children) (written : ∀ x, a.IsAbove h x → ∃ cs, write x = .ok cs) :
    ∃ part, m.term a write h c = .ok part := by
  have above := wf.isAbove_child stored member
  obtain ⟨k, held⟩ := wf.stored_of_mem_children stored member
  obtain ⟨whole, slotted⟩ := m.exists_slot wf stored member (written c above)
  rw [term, negated?_of_get? held, ok_bind]
  cases inner : k.element.negated? with
  | none =>
    dsimp only
    rw [slotted]
    exact ⟨_, rfl⟩
  | some x =>
    have inside : x ∈ k.element.children := by
      rw [Element.negated?_eq_some.mp inner]
      exact List.mem_singleton_self x
    obtain ⟨part, slotted'⟩ := m.exists_slot wf held inside
      (written x (above.trans (wf.isAbove_child held inside)))
    dsimp only
    rw [slotted, slotted']
    split
    · exact ⟨_, rfl⟩
    · exact ⟨_, rfl⟩

theorem exists_writeWithin (m : Marks) (wf : a.WellFormed) (stored : a.get? h = some n) {d : Nat}
    (enough : (a.below h).card < d) : ∃ cs, m.writeWithin a d h = .ok cs := by
  refine wf.depth_induction (motive := fun d h => ∃ cs, m.writeWithin a d h = .ok cs)
    (fun d h n stored written => ?_) stored enough
  have slot : ∀ c ∈ n.element.children, ∃ cs, m.slot a (m.writeWithin a d) h c = .ok cs :=
    fun c member => m.exists_slot wf stored member (written c (wf.isAbove_child stored member))
  rw [writeWithin, element_of_get? stored, ok_bind]
  cases shape : n.element with
  | symbol | integer => exact ⟨_, rfl⟩
  | negation inner | root inner =>
    simp only [shape, Element.children, List.forall_mem_singleton] at slot
    obtain ⟨cs, done⟩ := slot
    dsimp only
    rw [done]
    exact ⟨_, rfl⟩
  | fraction x y =>
    simp only [shape, Element.children, List.forall_mem_cons] at slot
    obtain ⟨⟨cs, done⟩, ⟨ds, done'⟩, -⟩ := slot
    dsimp only
    rw [done, ok_bind, done']
    exact ⟨_, rfl⟩
  | power x y =>
    have inside : y ∈ n.element.children := by rw [shape]; simp [Element.children]
    obtain ⟨k, held⟩ := wf.stored_of_mem_children stored inside
    simp only [shape, Element.children, List.forall_mem_cons] at slot
    obtain ⟨⟨cs, done⟩, ⟨ds, done'⟩, -⟩ := slot
    dsimp only
    rw [done, ok_bind, exponent, kind_of_get? held, ok_bind, done']
    exact ⟨_, rfl⟩
  | product hs =>
    simp only [shape, Element.children] at slot
    have each : ∀ c ∈ hs, ∃ cs, (do return m.inRun c (← m.slot a (m.writeWithin a d) h c)) =
        Except.ok cs ∧ True := by
      intro c member
      obtain ⟨cs, done⟩ := slot c member
      rw [done]
      exact ⟨_, rfl, trivial⟩
    obtain ⟨css, all, -⟩ := mapM_outcome each
    dsimp only
    rw [all]
    exact ⟨_, rfl⟩
  | sum hs =>
    have each : ∀ c ∈ hs, ∃ part, m.term a (m.writeWithin a d) h c = .ok part ∧ True := by
      intro c member
      obtain ⟨part, done⟩ := m.exists_term wf stored (by rwa [shape]) written
      exact ⟨part, done, trivial⟩
    obtain ⟨parts, all, -⟩ := mapM_outcome each
    dsimp only
    rw [all]
    exact ⟨_, rfl⟩

end Marks

theorem WellFormed.exists_writeMarked (wf : a.WellFormed) (hs : List Handle) :
    ∃ cs, a.writeMarked hs = .ok cs := by
  obtain ⟨inner, stored⟩ := wf.wrapper
  obtain ⟨cs, written⟩ := Marks.exists_writeWithin ⟨hs⟩ wf stored (a.card_below_lt_reach a.root)
  unfold writeMarked
  dsimp only
  rw [written]
  exact ⟨_, rfl⟩

end Arena

end AlgebraEditor
