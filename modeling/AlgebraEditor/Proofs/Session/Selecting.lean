import AlgebraEditor.Proofs.Selection.Growing
import AlgebraEditor.Proofs.Session.Invariant

/-!
# Selecting

Whatever handles a session is asked to select, the answer is the one that the set of outermost
elements among them meets: `select_meets`. Order, repetitions and nested elements make no difference.
-/

namespace AlgebraEditor.Session

open Arena

variable {s : Session}

/-- A request is answered with what it meets, and with nothing else. It is refused without a change
of the selection, what it selects can be selected again, and a request with the same outermost
elements does the same. -/
theorem select_meets (wf : s.arena.WellFormed) (hs : List Handle) :
    ∃ out s', (Selection.resolve s.arena hs).run = .ok out ∧
      (∀ out', Selection.Meets s.arena hs out' ↔ out' = out) ∧
      (select hs).run s = .ok (out.map fun _ => (), s') ∧
      s' = { s with grow := .inactive, selection := out.toOption.getD s.selection } ∧
      (∀ ks, (∀ k, Selection.Outermost s.arena ks k ↔ Selection.Outermost s.arena hs k) →
        (select ks).run s = (select hs).run s) ∧
      ∀ t, out = .ok t → (select t.toList).run s' = .ok (.ok (), s') := by
  obtain ⟨out, meets⟩ := Selection.exists_meets wf hs
  have resolved := meets.run_resolve wf
  have selected := run_select resolved
  refine ⟨out, _, resolved, fun out' => ?_, selected, rfl, fun ks same => ?_, ?_⟩
  · rw [Selection.meets_iff wf, resolved, Except.ok.injEq, eq_comm]
  · rw [selected, run_select ((meets.congr wf same).run_resolve wf)]
  · rintro t rfl
    have resolved' := (meets.valid wf).resolve wf
    exact run_select (s := { s with grow := .inactive, selection := t }) resolved'

/-- In `a + b + c + d` the request for `c`, `b` and `c` again selects `b + c`. -/
theorem select_meets_of_terms : Grow.fourTerms.WellFormed ∧
    ∃ s', (select [⟨5⟩, ⟨4⟩, ⟨5⟩]).run (ofArena Grow.fourTerms) = .ok (.ok (), s') ∧
      s'.selection = ⟨⟨4⟩, [⟨5⟩]⟩ ∧ (select [⟨4⟩, ⟨5⟩]).run s' = .ok (.ok (), s') := by
  have wf := Grow.wellFormed_fourTerms
  have resolved : (Selection.resolve Grow.fourTerms [⟨5⟩, ⟨4⟩, ⟨5⟩]).run =
      .ok (.ok ⟨⟨4⟩, [⟨5⟩]⟩) := rfl
  obtain ⟨out, s', resolved', _, selected, same, _, again⟩ :=
    select_meets (s := ofArena Grow.fourTerms) wf [⟨5⟩, ⟨4⟩, ⟨5⟩]
  cases resolved.symm.trans resolved'
  exact ⟨wf, s', selected, by rw [same]; rfl, again ⟨⟨4⟩, [⟨5⟩]⟩ rfl⟩

end AlgebraEditor.Session
