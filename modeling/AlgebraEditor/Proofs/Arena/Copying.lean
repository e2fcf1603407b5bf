import AlgebraEditor.Proofs.Arena.Assembling
import AlgebraEditor.Proofs.Arena.Equality
import AlgebraEditor.Proofs.Arena.Splicing

/-!
# Copies

A copy is built while its original stands in the same arena: the parts are stored and attached
first, each to a container that is new as well. What is added in this way is as large as the term
that the original denotes, hangs below the copy and is listed without repetition. So the copy is
equal to its original and shares nothing with it.
-/

namespace AlgebraEditor.Arena

open Term

variable {a b : Arena} {h r x y : Handle} {n : Node} {t : Term} {xs : List Handle}

/-- What was there encloses nothing of what is added, and the other way round. -/
theorem Adds.not_encloses (adds : a.Adds [t] [r] b) (wf : a.WellFormed) (stored : a.get? h = some n)
    (outside : b.Encloses h x) : ¬ b.Encloses r x := by
  have old := Nat.not_le.mpr (index_lt_of_get? stored)
  have top := List.mem_singleton_self r
  have new := ((adds.tops r).mp top).1
  have same : a.places.size ≤ h.index ↔ a.places.size ≤ x.index := by
    rcases outside with rfl | above
    · exact Iff.rfl
    · exact adds.new_iff_of_isAbove wf above
  rintro (rfl | above)
  · exact old (same.mpr new)
  · exact old (same.mpr (adds.new_of_isAbove wf top above))

/-- Copying any stored element but the root goes through. Nothing owns the copy, which is equal to
the element; exactly its parts are new, one for each part of the element, and all that was stored is
as it was. -/
theorem copies_are_faithful_and_fresh (wf : a.WellFormed) (stored : a.get? h = some n)
    (other : h ≠ a.root) : ∃ r b, (Edit.copy h).run a = .ok r b ∧ b.WellFormed ∧
      b.parent r = .ok none ∧ b.equal h r = .ok true ∧ a.equalAcross b h r = .ok true ∧
      (∃ xs ys, a.preOrder h = .ok xs ∧ xs.Nodup ∧ b.preOrder r = .ok ys ∧ ys.Nodup ∧
        ys.length = xs.length ∧ b.size = a.size + xs.length ∧
        ∀ y, y ∈ ys ↔ a.contains y = false ∧ b.contains y = true) ∧
      a.Retains b ∧ ∀ x, ¬ (b.Encloses h x ∧ b.Encloses r x) := by
  obtain ⟨r, b, run, adds⟩ := Edit.builds_copy wf stored other a (.refl a) wf
  have copied := adds.denote_top
  obtain ⟨m, new, free⟩ := adds.top_stored (List.mem_singleton_self r)
  obtain ⟨xs, read, nodup, count, _⟩ := wf.preOrder_eq_ok stored
  obtain ⟨ys, read', nodup', count', holds⟩ := adds.wf.preOrder_eq_ok new
  rw [copied] at count'
  refine ⟨r, b, run, adds.wf, ?_, ?_, ?_, ⟨xs, ys, read, nodup, read', nodup',
    count'.trans count.symm, ?_, fun y => (holds y).trans (adds.new_iff wf)⟩, adds.retains,
    fun x ⟨first, second⟩ => adds.not_encloses wf stored first second⟩
  · rw [parent_of_get? new, owner?_of_get? new, free]
  · refine (adds.wf.equalAcross_eq_true adds.wf (adds.stored stored) new).mpr ?_
    rw [copied, adds.denote_eq wf stored]
  · exact (wf.equalAcross_eq_true adds.wf stored new).mpr copied.symm
  · rw [adds.size, count, sizes, sizes, Nat.add_zero]

/-- In `x + y*z`, beside which a sign in front of `w` is owned by nothing, both the product and the
sign can be copied. -/
theorem copies_are_faithful_and_fresh_of_parts : ∃ a b c : Arena, a.WellFormed ∧
    a.get? ⟨4⟩ = some ⟨some ⟨2⟩, .product [⟨5⟩, ⟨6⟩]⟩ ∧ a.get? ⟨7⟩ = some ⟨none, .negation ⟨8⟩⟩ ∧
    (Edit.copy ⟨4⟩).run a = .ok ⟨11⟩ b ∧ b.equal ⟨4⟩ ⟨11⟩ = .ok true ∧
    b.preOrder ⟨11⟩ = .ok [⟨11⟩, ⟨9⟩, ⟨10⟩] ∧ b.size = 12 ∧
    (Edit.copy ⟨7⟩).run a = .ok ⟨10⟩ c ∧ c.equal ⟨7⟩ ⟨10⟩ = .ok true ∧
    c.preOrder ⟨10⟩ = .ok [⟨10⟩, ⟨9⟩] ∧ c.size = 11 := by
  obtain ⟨a, same⟩ : ∃ a, a = ((zero.plant (.sum [.symbol "x", .product [.symbol "y",
    .symbol "z"]])).rewire ⟨0⟩ (.root ⟨2⟩)).plant (.negation (.symbol "w")) := ⟨_, rfl⟩
  have wf : a.WellFormed := by
    rw [same]
    exact (Edit.wellFormed_expression (by decide)).plant (by decide)
  have product : a.get? ⟨4⟩ = some ⟨some ⟨2⟩, .product [⟨5⟩, ⟨6⟩]⟩ := by rw [same]; rfl
  have sign : a.get? ⟨7⟩ = some ⟨none, .negation ⟨8⟩⟩ := by rw [same]; rfl
  have top : a.root = ⟨0⟩ := by rw [same]; rfl
  obtain ⟨r, b, run, _, _, equal, _⟩ :=
    copies_are_faithful_and_fresh wf product (by rw [top]; decide)
  obtain ⟨s, c, run', _, _, equal', _⟩ :=
    copies_are_faithful_and_fresh wf sign (by rw [top]; decide)
  subst same
  cases run
  cases run'
  exact ⟨_, _, _, wf, product, sign, rfl, equal, rfl, rfl, rfl, equal', rfl, rfl⟩

end AlgebraEditor.Arena
