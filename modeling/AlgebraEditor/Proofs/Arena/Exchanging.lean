import AlgebraEditor.Proofs.Arena.Building

/-!
# One child for another

What the nodes of an arena are after a child has left its slot: to an element that was there
(`Exchanged`), or to a new tree (`Superseded`). What lies in the child stays as it was, and has
nothing in common with the new tree.
-/

namespace AlgebraEditor

namespace Arena

variable {a b : Arena} {c h old new p r x : Handle} {n m : Node} {t : Term}

/-- The child `old` of the container `c` has left its slot to `new`, and nothing else has
changed. -/
structure Exchanged (a : Arena) (c old new : Handle) (b : Arena) : Prop where
  wf : b.WellFormed
  root : b.root = a.root
  container : ∀ {n}, a.get? c = some n → b.get? c = some ⟨n.parent, n.element.replaceChild old new⟩
  left : ∀ {n}, a.get? old = some n → b.get? old = some ⟨none, n.element⟩
  came : ∀ {n}, a.get? new = some n → b.get? new = some ⟨some c, n.element⟩
  kept : ∀ {x n}, a.get? x = some n → x ≠ c → x ≠ old → x ≠ new → b.get? x = some n

theorem exchanged_rewire (wf : a.WellFormed) (stored : a.get? c = some n)
    (member : old ∈ n.element.children) (fits : a.Attachable c new) :
    a.Exchanged c old new (a.rewire c (n.element.replaceChild old new)) := by
  have rewirable := Edit.rewirable_replace wf stored member fits
  have owned := wf.records stored old member
  have fresh := fits.not_mem_children wf stored
  have slots : ∀ {x}, x ∈ (n.element.replaceChild old new).children ↔
      x = new ∨ (x ∈ n.element.children ∧ x ≠ old) :=
    Element.mem_replaceChild _ (wf.distinct stored) member
  refine ⟨wf.rewire stored rewirable, rfl, fun held => ?_, fun held => ?_, fun held => ?_,
    fun held other notOld notNew => ?_⟩
  · cases stored.symm.trans held
    exact rewirable.get?_container wf stored
  · refine get?_rewire_of_left held (wf.irrefl owned) (fun inside => ?_)
      ((owner?_of_get? held).symm.trans owned)
    exact (slots.mp inside).elim (fun same => fresh (same ▸ member)) fun old => old.2 rfl
  · rw [get?_rewire_of_stored held, Node.rewired, if_pos (slots.mpr (.inl rfl)), if_neg fits.other]
  · refine get?_rewire_of_iff held other ?_
    rw [slots, or_iff_right notNew, and_iff_left notOld, wf.mem_children_iff stored,
      owner?_of_get? held]

/-- The new tree `r`, which denotes `t`, has taken the slot of `h` in the container `p`, and nothing
else has changed. -/
structure Superseded (a : Arena) (p h : Handle) (t : Term) (r : Handle) (b : Arena) : Prop where
  wf : b.WellFormed
  root : b.root = a.root
  fresh : a.get? r = none
  denotes : b.denote r = t
  slot : ∀ {n}, a.get? p = some n → b.get? p = some ⟨n.parent, n.element.replaceChild h r⟩
  left : ∀ {n}, a.get? h = some n → b.get? h = some ⟨none, n.element⟩
  kept : ∀ {x n}, a.get? x = some n → x ≠ p → x ≠ h → b.get? x = some n

theorem superseded_rewire (wf : a.WellFormed) (adds : a.Adds [t] [r] b)
    (stored : a.get? p = some m) (member : h ∈ m.element.children) :
    a.Superseded p h t r (b.rewire p (m.element.replaceChild h r)) := by
  have top := List.mem_singleton_self r
  have fits := adds.attachable wf stored top
  have held := adds.stored stored
  have exchanged := exchanged_rewire adds.wf held member fits
  have other : ∀ {x n}, a.get? x = some n → x ≠ r := by
    rintro x n old rfl
    cases old.symm.trans (adds.fresh top)
  refine ⟨exchanged.wf, exchanged.root.trans adds.root, adds.fresh top, ?_,
    fun old => exchanged.container (adds.stored old), fun old => exchanged.left (adds.stored old),
    fun old notContainer notOld => exchanged.kept (adds.stored old) notContainer notOld (other old)⟩
  obtain ⟨k, found, _⟩ := adds.top_stored top
  rw [adds.wf.denote_rewire exchanged.wf found (Ne.symm fits.other) fits.not_above]
  exact List.singleton_inj.mp adds.denotes

namespace Superseded

variable {y : Handle} (superseded : a.Superseded p h t r b) (wf : a.WellFormed)

include superseded wf

/-- What is owned by something new is new. -/
theorem fresh_of_owner (fresh : a.get? y = none) (recorded : b.owner? x = some y) :
    a.get? x = none := by
  cases held : a.get? x with
  | none => rfl
  | some n =>
    -- what was stored is owned by something that was stored, or by nothing
    have parent : n.parent ≠ some y := fun same => by
      obtain ⟨m, stored⟩ := wf.stored_of_owner? ((owner?_of_get? held).trans same)
      rw [fresh] at stored
      cases stored
    by_cases container : x = p
    · subst container
      rw [owner?_of_get? (superseded.slot held)] at recorded
      exact absurd recorded parent
    by_cases old : x = h
    · subst old
      rw [owner?_of_get? (superseded.left held)] at recorded
      cases recorded
    rw [owner?_of_get? (superseded.kept held container old)] at recorded
    exact absurd recorded parent

/-- Everything in the new tree is new. -/
theorem fresh_below (inside : x = r ∨ b.IsAbove r x) : a.get? x = none := by
  rcases inside with rfl | above
  · exact superseded.fresh
  induction above with
  | single recorded => exact superseded.fresh_of_owner wf superseded.fresh recorded
  | tail _ recorded ih => exact superseded.fresh_of_owner wf ih recorded

variable (owned : a.owner? h = some p)

include owned

/-- What lies below the old child has stayed there. -/
theorem kept_below (above : a.IsAbove h x) (held : a.get? x = some n) : b.get? x = some n := by
  refine superseded.kept held ?_ ?_
  · rintro rfl
    exact wf.acyclic h (above.tail owned)
  · rintro rfl
    exact wf.acyclic x above

/-- What the old child owns, and what lies in it, was there before. -/
theorem owner?_of_old (place : y = h ∨ a.IsAbove h y) (recorded : b.owner? x = some y) :
    a.owner? x = some y := by
  obtain ⟨n, n', held, held', same⟩ : ∃ n n', a.get? y = some n ∧ b.get? y = some n' ∧
      n'.element = n.element := by
    rcases place with rfl | above
    · obtain ⟨k, stored⟩ := Arena.stored_of_owner? owned
      exact ⟨k, _, stored, superseded.left stored, rfl⟩
    · obtain ⟨n, held⟩ := stored_of_isAbove above
      exact ⟨n, n, held, superseded.kept_below wf owned above held, rfl⟩
  rw [← wf.mem_children_iff held, ← same]
  exact (superseded.wf.mem_children_iff held').mpr recorded

/-- Nothing has come to lie below the old child. -/
theorem isAbove_of_old (above : b.IsAbove h x) : a.IsAbove h x := by
  induction above with
  | single recorded => exact isAbove_of_owner? (superseded.owner?_of_old wf owned (.inl rfl) recorded)
  | tail _ recorded ih => exact ih.tail (superseded.owner?_of_old wf owned (.inr ih) recorded)

/-- The old child and the new tree have nothing in common. -/
theorem apart : ¬ ((x = h ∨ b.IsAbove h x) ∧ (x = r ∨ b.IsAbove r x)) := by
  rintro ⟨old, new⟩
  have fresh := superseded.fresh_below wf new
  obtain ⟨n, held⟩ : ∃ n, a.get? x = some n := by
    rcases old with rfl | above
    · exact Arena.stored_of_owner? owned
    · exact stored_of_isAbove (superseded.isAbove_of_old wf owned above)
  rw [fresh] at held
  cases held

end Superseded

end Arena

end AlgebraEditor
