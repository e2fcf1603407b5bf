import AlgebraEditor.Proofs.Arena.Filling
import AlgebraEditor.Proofs.Arena.Reachability
import AlgebraEditor.Proofs.Formula.Reading

/-!
# What reading a text adds

An accepted text adds one tree to an arena, which nothing owns and whose elements are in normal form,
and nothing else. Whether a text is accepted or not, what was there stays as it was.
-/

namespace AlgebraEditor

open Arena Term

/-- The element may be part of an expression in normal form. -/
def Element.IsNormal : Element → Prop
  | .symbol name => ∃ c, name = String.ofList [c] ∧ Formula.IsLetter c
  | .product hs | .sum hs => 2 ≤ hs.length
  | .root _ => False
  | .integer _ | .negation _ | .fraction _ _ | .power _ _ => True

/-- The subtree of `x`, which nothing owns, is what the second arena has more than the first one, and
it is in normal form. -/
structure Arena.Gains (a b : Arena) (x : Handle) : Prop where
  unowned : b.parent x = .ok none
  subtree : ∃ hs, b.preOrder x = .ok hs ∧ ∀ h, h ∈ hs ↔ a.contains h = false ∧ b.contains h = true
  normal : ∀ h n, a.contains h = false → b.get? h = some n → n.element.IsNormal

variable {a b : Arena} {h x : Handle} {n : Node} {t : Term} {ts : List Term} {xs : List Handle}

theorem Element.isNormal_of_toTerm {e : Element} {f : Handle → Term}
    (normal : (e.toTerm f).NormalTop) : e.IsNormal := by
  cases e with
  | symbol name => exact normal.letter name rfl
  | product hs | sum hs =>
    have long := normal.filled rfl
    rwa [Element.children_toTerm, List.length_map] at long
  | root c => exact normal.unwrapped rfl
  | integer | negation | fraction | power => trivial

namespace Arena.AddsNormal

theorem filled (adds : a.AddsNormal ts xs b) : ∀ t ∈ ts, t.All Term.Filled := fun t member =>
  (adds.normal t member).imp fun _ top => top.filled

theorem isNormal (adds : a.AddsNormal ts xs b) (wf : a.WellFormed) (new : a.get? h = none)
    (found : b.get? h = some n) : n.element.IsNormal := by
  obtain ⟨y, top, place⟩ := adds.exists_top wf (adds.new_of_absent new found) found
  have whole : (b.denote y).IsNormal := adds.normal _ (by
    rw [← adds.denotes]
    exact List.mem_map_of_mem top)
  have part : (b.denote h).IsNormal := by
    rcases place with rfl | above
    · exact whole
    · exact adds.wf.all_below whole above
  have top := part.self
  rw [adds.wf.denote_eq found] at top
  exact Element.isNormal_of_toTerm top

theorem gains (adds : a.AddsNormal [t] [x] b) (wf : a.WellFormed) : a.Gains b x where
  unowned := by
    obtain ⟨n, found, free⟩ := adds.top_stored (List.mem_singleton_self x)
    rw [parent_of_get? found, owner?_of_get? found, free]
  subtree := by
    obtain ⟨n, found, -⟩ := adds.top_stored (List.mem_singleton_self x)
    obtain ⟨hs, read, -, -, holds⟩ := adds.wf.preOrder_eq_ok found
    exact ⟨hs, read, fun h => (holds h).trans (adds.toAdds.new_iff wf)⟩
  normal h n new found := by
    rw [contains, Option.isSome_eq_false_iff, Option.isNone_iff_eq_none] at new
    exact adds.isNormal wf new found

end Arena.AddsNormal

namespace Edit

/-- Whatever a text is, what was there is kept, and an accepted text adds its tree alone. -/
theorem plantText_retains (wf : a.WellFormed) (text : List Char) :
    ∃ answer b, (plantText text).run a = .ok answer b ∧ a.Retains b ∧
      ∀ x, answer = .ok x → a.Gains b x := by
  obtain ⟨answer, _, _, b, run, adds⟩ := plantText_total wf text
  refine ⟨answer, b, run, adds.retains, ?_⟩
  rintro x rfl
  obtain ⟨t, -, adds⟩ := parse_of_run_ok wf run
  exact adds.gains wf

end Edit

end AlgebraEditor
