import AlgebraEditor.Proofs.Arena.Evolution
import AlgebraEditor.Proofs.Law.Rearrangement

/-!
# Exchanging two slots

Two children of a list change their places and nothing else does. The elements that stood in for
them on the way are left over, owned by nothing. Exchanging the two once more restores the list.
-/

namespace AlgebraEditor

variable {a b c : Arena} {p x y z : Handle} {i j : Nat} {hs : List Handle} {e : Element} {n m : Node}

/-- A list is known by its kind and its children. -/
theorem Element.eq_of_isList {e' : Element} (isList : e.kind.isList = true) (kind : e'.kind = e.kind)
    (children : e'.children = e.children) : e' = e := by
  cases e <;> cases e' <;> simp_all [Element.kind, Element.children, Kind.isList]

/-- The two elements are exchanged wherever they stand. -/
theorem map_swap_eq_set (nodup : hs.Nodup) (first : hs[i]? = some x) (second : hs[j]? = some y) :
    hs.map (Equiv.swap x y) = (hs.set i y).set j x := by
  obtain ⟨inside, rfl⟩ := List.getElem?_eq_some_iff.mp first
  obtain ⟨inside', rfl⟩ := List.getElem?_eq_some_iff.mp second
  refine List.ext_getElem (by simp) fun k here _ => ?_
  rw [List.length_map] at here
  have same : hs[k] = hs[i] ↔ k = i := nodup.getElem_inj_iff
  have same' : hs[k] = hs[j] ↔ k = j := nodup.getElem_inj_iff
  rw [List.getElem_map, List.getElem_set, List.getElem_set, Equiv.swap_apply_def]
  grind

namespace Arena

theorem get?_plant_integer {value : UInt64} : (a.plant (.integer value)).get? z = some m ↔
    a.get? z = some m ∨ z = a.next ∧ m = ⟨none, .integer value⟩ := by
  rw [plant_integer]
  by_cases new : z = a.next
  · subst new
    rw [get?_push_self, get?_next]
    simp [eq_comm]
  · rw [get?_push_of_ne a _ new]
    simp [new]

/-- Two placeholders stand at the two places behind all that was there. -/
theorem get?_placeholders : a.placeholders.get? z = some m ↔
    a.get? z = some m ∨
      (z = a.next ∨ z = (a.plant (.integer 0)).next) ∧ m = ⟨none, .integer 0⟩ :=
  get?_plant_integer.trans (by rw [get?_plant_integer, or_assoc, or_and_right])

/-- The children `x` and `y` of the list `p` have changed their places. Every other element is as it
was, and two new numbers are owned by nothing. -/
structure Transposed (a : Arena) (p x y : Handle) (b : Arena) : Prop extends Evolves a b where
  container : ∀ {n}, a.get? p = some n → ∃ e, b.get? p = some ⟨n.parent, e⟩ ∧
    e.kind = n.element.kind ∧ e.children = n.element.children.map (Equiv.swap x y)
  kept : ∀ {z n}, a.get? z = some n → z ≠ p → b.get? z = some n
  spare : ∃ s t, s ≠ t ∧ ∀ z n, (a.get? z = none ∧ b.get? z = some n) ↔
    (z = s ∨ z = t) ∧ n = ⟨none, .integer 0⟩

end Arena

namespace Law

open Arena

theorem run_swap_transposed (wf : a.WellFormed) (stored : a.get? p = some n)
    (isList : n.element.kind.isList = true) (first : x ∈ n.element.children)
    (second : y ∈ n.element.children) (other : x ≠ y) :
    ∃ b, (swap p [x, y]).run a = .ok (some [x, y]) b ∧ a.Transposed p x y b := by
  obtain ⟨e, fits, kind, perm, exchanged, run⟩ := run_swap wf stored isList first second other
  have adds := adds_placeholders wf
  have stored' := adds.stored stored
  have fresh : ∀ {z}, z = a.next ∨ z = (a.plant (.integer 0)).next → a.get? z = none := by
    rintro z (rfl | rfl)
    · exact get?_next a
    · exact get?_next_plant
  -- neither what was there nor what was added moves in or out of the list
  have kept : ∀ {z m}, a.placeholders.get? z = some m → z ≠ p →
      (a.placeholders.rewire p e).get? z = some m := by
    intro z m found notContainer
    refine get?_rewire_of_iff found notContainer ?_
    rw [perm.mem_iff, wf.mem_children_iff stored]
    rcases get?_placeholders.mp found with held | ⟨new, rfl⟩
    · rw [owner?_of_get? held]
    · simp [owner?, fresh new]
  refine ⟨_, run, adds.evolves.rewire stored' fits, fun held => ?_, fun held notContainer => ?_,
    a.next, (a.plant (.integer 0)).next, ne_next_of_stored get?_plant_next, fun z m => ?_⟩
  · cases stored.symm.trans held
    exact ⟨e, fits.get?_container adds.wf stored', kind, exchanged⟩
  · exact kept (adds.stored held) notContainer
  · have other : ∀ {z}, a.get? z = none → z ≠ p := by
      rintro z absent rfl
      cases absent.symm.trans stored
    constructor
    · rintro ⟨absent, found⟩
      obtain ⟨k, held, _⟩ := get?_rewire_eq_some.mp found
      cases (kept held (other absent)).symm.trans found
      exact (get?_placeholders.mp held).resolve_left (by simp [absent])
    · rintro ⟨new, rfl⟩
      exact ⟨fresh new, kept (get?_placeholders.mpr (.inr ⟨new, rfl⟩)) (other (fresh new))⟩

/-- Exchanging two children of a product or sum goes through and leaves each in the slot of the
other. Apart from the list every element that was there is as it was, and so still owned by the list
if it is one of the two; the two elements that are new are numbers owned by nothing. Exchanging the
two again, named in either order, restores the list. -/
theorem swap_transposes (wf : a.WellFormed) (stored : a.get? p = some n)
    (isList : n.element.kind.isList = true) (first : n.element.children[i]? = some x)
    (second : n.element.children[j]? = some y) (other : i ≠ j) :
    ∃ b, (swap p [x, y]).run a = .ok (some [x, y]) b ∧ b.WellFormed ∧
      (∃ e, b.get? p = some ⟨n.parent, e⟩ ∧ e.kind = n.element.kind ∧
        e.children = (n.element.children.set i y).set j x) ∧
      (∀ z m, a.get? z = some m → z ≠ p → b.get? z = some m) ∧
      (∃ s t, s ≠ t ∧ ∀ z m, (a.get? z = none ∧ b.get? z = some m) ↔
        (z = s ∨ z = t) ∧ m = ⟨none, .integer 0⟩) ∧
      ∀ pair, pair = [x, y] ∨ pair = [y, x] →
        ∃ c, (swap p pair).run b = .ok (some pair) c ∧ c.get? p = some n := by
  have member := List.mem_of_getElem? first
  have member' := List.mem_of_getElem? second
  have different : x ≠ y := by
    rintro rfl
    exact other ((List.getElem?_inj (List.getElem?_eq_some_iff.mp first).1 (wf.distinct stored)).mp
      (first.trans second.symm))
  obtain ⟨b, run, transposed⟩ := run_swap_transposed wf stored isList member member' different
  obtain ⟨e, held, kind, exchanged⟩ := transposed.container stored
  refine ⟨b, run, transposed.wf, ⟨e, held, kind, ?_⟩, fun _ _ => transposed.kept, transposed.spare, ?_⟩
  · rw [exchanged, map_swap_eq_set (wf.distinct stored) first second]
  -- exchanging twice is exchanging nothing
  have restored : ∀ {u v c}, Equiv.swap u v = Equiv.swap x y → b.Transposed p u v c →
      c.get? p = some n := by
    intro u v c same again
    obtain ⟨e', held', kind', exchanged'⟩ := again.container held
    have children : e'.children = n.element.children := by
      rw [exchanged', same, exchanged, List.map_map, ← Equiv.coe_trans, Equiv.swap_swap,
        Equiv.coe_refl, List.map_id]
    rw [held', Element.eq_of_isList isList (kind'.trans kind) children]
  have isList' : e.kind.isList = true := kind ▸ isList
  have first' : x ∈ e.children := exchanged ▸ List.mem_map.mpr ⟨y, member', Equiv.swap_apply_right x y⟩
  have second' : y ∈ e.children := exchanged ▸ List.mem_map.mpr ⟨x, member, Equiv.swap_apply_left x y⟩
  rintro pair (rfl | rfl)
  · obtain ⟨c, run', again⟩ :=
      run_swap_transposed transposed.wf held isList' first' second' different
    exact ⟨c, run', restored rfl again⟩
  · obtain ⟨c, run', again⟩ :=
      run_swap_transposed transposed.wf held isList' second' first' (Ne.symm different)
    exact ⟨c, run', restored (Equiv.swap_comm y x) again⟩

/-- In `a + b + c` the last and the first term are exchanged, and come back. -/
theorem swap_transposes_three_terms : ∃ a : Arena, a.WellFormed ∧
    a.get? ⟨2⟩ = some ⟨some ⟨0⟩, .sum [⟨3⟩, ⟨4⟩, ⟨5⟩]⟩ ∧
    ∃ b c, (swap ⟨2⟩ [⟨5⟩, ⟨3⟩]).run a = .ok (some [⟨5⟩, ⟨3⟩]) b ∧
      (∃ e, b.get? ⟨2⟩ = some ⟨some ⟨0⟩, e⟩ ∧ e.kind = .sum ∧ e.children = [⟨5⟩, ⟨4⟩, ⟨3⟩]) ∧
      (swap ⟨2⟩ [⟨3⟩, ⟨5⟩]).run b = .ok (some [⟨3⟩, ⟨5⟩]) c ∧ c.get? ⟨2⟩ = a.get? ⟨2⟩ := by
  have unwrapped : (Term.sum [.symbol "a", .symbol "b", .symbol "c"]).Unwrapped := by decide
  obtain ⟨a, same⟩ : ∃ a, a = (zero.plant (.sum [.symbol "a", .symbol "b", .symbol "c"])).rewire
    ⟨0⟩ (.root ⟨2⟩) := ⟨_, rfl⟩
  have wf : a.WellFormed := by rw [same]; exact Edit.wellFormed_expression unwrapped
  have stored : a.get? ⟨2⟩ = some ⟨some ⟨0⟩, .sum [⟨3⟩, ⟨4⟩, ⟨5⟩]⟩ := by rw [same]; rfl
  obtain ⟨b, run, _, swapped, _, _, again⟩ :=
    swap_transposes (i := 2) (j := 0) wf stored rfl rfl rfl (by decide)
  obtain ⟨c, run', restored⟩ := again _ (.inr rfl)
  exact ⟨a, wf, stored, b, c, run, swapped, run', restored.trans stored.symm⟩

end Law

end AlgebraEditor
