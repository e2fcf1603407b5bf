import AlgebraEditor.Proofs.Arena.Exchanging
import AlgebraEditor.Proofs.Arena.Filling
import AlgebraEditor.Proofs.Law.Expanding

/-!
# Distributing over the first sum

What an element expands to depends on what it denotes alone: a product goes to the terms of its
first sum, factors in order, and a sign goes to every term. The copies that are put together share
nothing with the element that they are made from.
-/

namespace AlgebraEditor

namespace Term

variable {t : Term} {ts factors : List Term}

/-- The terms that a term distributes into. -/
inductive Expansion : Term → List Term → Prop where
  | product {before terms after : List Term} : (∀ t ∈ before, t.kind ≠ .sum) →
      Expansion (.product (before ++ .sum terms :: after))
        (terms.map fun t => .product (before ++ t :: after))
  | negatedProduct {factors terms : List Term} : Expansion (.product factors) terms →
      Expansion (.negation (.product factors)) (terms.map .negation)
  | negatedSum (terms : List Term) : Expansion (.negation (.sum terms)) (terms.map .negation)

/-- The term is a product with a sum among its factors, the negation of one, or the negation of a
sum. -/
def Expandable : Term → Prop
  | product factors | negation (product factors) => ∃ t ∈ factors, t.kind = .sum
  | negation (sum _) => True
  | _ => False

/-- If there is a sum among some factors, there is a first one. -/
theorem exists_expansion_product :
    (∃ ts, Expansion (.product factors) ts) ↔ ∃ t ∈ factors, t.kind = .sum := by
  constructor
  · rintro ⟨_, expansion⟩
    cases expansion
    exact ⟨_, List.mem_append_right _ List.mem_cons_self, rfl⟩
  · intro among
    obtain ⟨before, t, after, rfl, first, others⟩ := exists_first_of_kind among
    cases t with
    | sum terms => exact ⟨_, .product others⟩
    | _ => cases first

theorem expandable_iff : t.Expandable ↔ ∃ ts, t.Expansion ts := by
  constructor
  · intro expandable
    unfold Expandable at expandable
    split at expandable
    · exact exists_expansion_product.mpr expandable
    · obtain ⟨ts, expansion⟩ := exists_expansion_product.mpr expandable
      exact ⟨_, .negatedProduct expansion⟩
    · exact ⟨_, .negatedSum _⟩
    · cases expandable
  · rintro ⟨ts, expansion⟩
    cases expansion with
    | product others => exact exists_expansion_product.mp ⟨_, .product others⟩
    | negatedProduct expansion => exact exists_expansion_product.mp ⟨_, expansion⟩
    | negatedSum terms => exact trivial

/-- A term with long lists distributes into two terms or more. -/
theorem Expansion.long (expansion : t.Expansion ts) (full : t.All Filled) : 2 ≤ ts.length := by
  induction expansion with
  | product others =>
    rw [List.length_map]
    exact (full.child (List.mem_append_right _ List.mem_cons_self)).self rfl
  | negatedProduct expansion ih =>
    rw [List.length_map]
    exact ih (full.child (List.mem_singleton_self _))
  | negatedSum terms =>
    rw [List.length_map]
    exact (full.child (List.mem_singleton_self _)).self rfl

end Term

namespace Law

open Arena

variable {a b : Arena} {h p s : Handle} {k : Nat} {e : Element} {n m : Node}
  {before after : List Handle} {factors ts : List Term}

theorem row_between (nodup : (before ++ s :: after).Nodup) (t : Handle) :
    row a (before ++ s :: after) s t =
      .productOf (before.map a.denote ++ a.denote t :: after.map a.denote) := by
  have front : s ∉ before := not_mem_before nodup
  have back : s ∉ after := (List.nodup_cons.mp (List.nodup_append.mp nodup).2.1).1
  have others : ∀ hs : List Handle, s ∉ hs →
      hs.map (fun factor => a.denote (if factor = s then t else factor)) = hs.map a.denote := by
    refine fun hs absent => List.map_congr_left fun factor member => congrArg a.denote (if_neg ?_)
    rintro rfl
    exact absent member
  rw [row, List.map_append, List.map_cons, if_pos rfl, others before front, others after back]

/-- A product that denotes an expandable term is distributed. -/
theorem distributed?_of_expansion (wf : a.WellFormed) (stored : a.get? h = some n)
    (full : (a.denote h).All Term.Filled) (denotes : a.denote h = .product factors)
    (expansion : Term.Expansion (.product factors) ts) : (distributed? h).Offers a (some ts) := by
  obtain ⟨hs, shape, read⟩ :=
    Element.toTerm_eq_product.mp ((wf.denote_eq stored).symm.trans denotes)
  have nodup := wf.distinct stored
  have held := wf.stored_children stored
  rw [shape, Element.children] at nodup held
  rw [denotes] at full
  have long := full.self rfl
  cases expansion with
  | @product us terms vs others =>
    -- the factors stand for those of the term, one for one
    obtain ⟨before, rest, rfl, rfl, split⟩ := List.map_eq_append_iff.mp read
    obtain ⟨s, after, rfl, sum, rfl⟩ := List.map_eq_cons_iff.mp split
    obtain ⟨m, stored'⟩ := held s (List.mem_append_right _ List.mem_cons_self)
    obtain ⟨summands, shape', rfl⟩ :=
      Element.toTerm_eq_sum.mp ((wf.denote_eq stored').symm.trans sum)
    have first : firstOfKind? a .sum (before ++ s :: after) = .ok (some s) :=
      firstOfKind?_of_first wf held (by rw [sum]; rfl) others
    have rows : summands.map (row a (before ++ s :: after) s) =
        (summands.map a.denote).map fun t => .product
          (before.map a.denote ++ t :: after.map a.denote) := by
      rw [List.map_map]
      refine List.map_congr_left fun t _ => ?_
      rw [row_between nodup]
      exact Term.productOf_of_long (by simpa [Term.children] using long)
    rw [← rows]
    exact distributed?_of_first wf stored shape first stored' shape'

/-- An element that denotes an expandable term expands to what the term distributes into. -/
theorem expanded?_of_expansion (wf : a.WellFormed) (stored : a.get? h = some n)
    (full : (a.denote h).All Term.Filled) (expansion : (a.denote h).Expansion ts) :
    (expanded? h).Offers a (some ts) := by
  have denotes := wf.denote_eq stored
  generalize a.denote h = t at full expansion denotes
  -- what is negated is stored, and denotes what the negation of the term holds
  have negated : ∀ {u}, t = .negation u → ∃ inner m, n.element = .negation inner ∧
      a.get? inner = some m ∧ a.denote inner = u := by
    rintro u rfl
    obtain ⟨inner, shape, read⟩ := Element.toTerm_eq_negation.mp denotes.symm
    obtain ⟨m, held⟩ := wf.stored_children stored inner (by rw [shape]; exact List.mem_cons_self)
    exact ⟨inner, m, shape, held, read⟩
  cases expansion with
  | product others =>
    obtain ⟨hs, shape, _⟩ := Element.toTerm_eq_product.mp denotes.symm
    have same := (wf.denote_eq stored).trans denotes.symm
    exact expanded?_of_product stored shape
      (distributed?_of_expansion wf stored (same ▸ full) same (.product others))
  | @negatedProduct factors terms expansion =>
    obtain ⟨inner, m, shape, held, read⟩ := negated rfl
    obtain ⟨hs, shape', _⟩ := Element.toTerm_eq_product.mp ((wf.denote_eq held).symm.trans read)
    have full' := full.child (List.mem_singleton_self _)
    have found := distributed?_of_expansion wf held (read ▸ full') read expansion
    exact expanded?_of_negation wf stored shape (signless?_of_product held shape' found)
  | negatedSum terms =>
    obtain ⟨inner, m, shape, held, read⟩ := negated rfl
    obtain ⟨summands, shape', rfl⟩ :=
      Element.toTerm_eq_sum.mp ((wf.denote_eq held).symm.trans read)
    exact expanded?_of_negation wf stored shape (signless?_of_sum held wf shape')

theorem distributed?_of_no_sum (wf : a.WellFormed) (stored : a.get? h = some n)
    (denotes : a.denote h = .product factors) (apart : ¬ ∃ t ∈ factors, t.kind = .sum) :
    (distributed? h).Offers a none := by
  obtain ⟨hs, shape, rfl⟩ := Element.toTerm_eq_product.mp ((wf.denote_eq stored).symm.trans denotes)
  have held := wf.stored_children stored
  rw [shape, Element.children] at held
  refine distributed?_of_none stored shape ?_
  rw [firstOfKind?_eq_find? wf .sum held]
  refine congrArg Except.ok (List.find?_eq_none.mpr fun x member sum => apart ?_)
  exact ⟨a.denote x, List.mem_map_of_mem member, of_decide_eq_true sum⟩

theorem expanded?_of_not_expandable (wf : a.WellFormed) (stored : a.get? h = some n)
    (other : ¬ (a.denote h).Expandable) : (expanded? h).Offers a none := by
  have denotes := wf.denote_eq stored
  cases shape : n.element with
  | product factors =>
    rw [shape] at denotes
    rw [denotes] at other
    exact expanded?_of_product stored shape (distributed?_of_no_sum wf stored denotes other)
  | negation inner =>
    obtain ⟨m, held⟩ := wf.stored_children stored inner (by rw [shape]; exact List.mem_cons_self)
    have denotes' := wf.denote_eq held
    rw [shape, Element.toTerm, denotes'] at denotes
    rw [denotes] at other
    cases shape' : m.element with
    | product factors =>
      rw [shape'] at denotes' other
      exact expanded?_of_negation wf stored shape
        (signless?_of_product held shape' (distributed?_of_no_sum wf held denotes' other))
    | sum summands =>
      rw [shape'] at other
      exact absurd trivial other
    | _ =>
      refine expanded?_of_negation wf stored shape (signless?_of_other held ?_ ?_) <;>
        simp [shape', Element.kind]
  | _ => refine expanded?_of_other stored ?_ ?_ <;> simp [shape, Element.kind]

/-- What an element distributes into takes its place. -/
theorem run_expand_of_expansion (wf : a.WellFormed) (filled : a.Filled ∅)
    (owned : a.owner? h = some p) (expansion : (a.denote h).Expansion ts) :
    ∃ r b, (expand h).run a = .ok (some [r]) b ∧ a.Superseded p h (.sum ts) r b := by
  obtain ⟨n, stored⟩ := Arena.stored_of_owner? owned
  obtain ⟨m, around⟩ := wf.stored_of_owner? owned
  have member := (wf.mem_children_iff around).mpr owned
  have full := wf.throughout_filled filled owned
  obtain ⟨r, b, adds, run⟩ :=
    run_expand_of_terms wf owned (expanded?_of_expansion wf stored full expansion)
  rw [Term.sumOf_of_long (expansion.long full)] at adds
  refine ⟨r, _, ?_, superseded_rewire wf adds around member⟩
  rw [run, Edit.run_bind_of_ok (adds.run_replace wf around member (List.mem_singleton_self r))]
  rfl

/-- An owned element expands exactly if it denotes a product with a sum among its factors, the
negation of one, or the negation of a sum. The sum of the terms that this distributes into over its
first sum takes the slot of the element, which stays as it was and shares nothing with the new
tree. -/
theorem expand_distributes (wf : a.WellFormed) (filled : a.Filled ∅)
    (stored : a.get? h = some ⟨some p, e⟩) (around : a.get? p = some m)
    (slot : m.element.children[k]? = some h) :
    ((∃ rs b, (expand h).run a = .ok (some rs) b) ↔ (a.denote h).Expandable) ∧
    (¬ (a.denote h).Expandable → (expand h).run a = .ok none a) ∧
    ∀ ts, (a.denote h).Expansion ts → ∃ r b, (expand h).run a = .ok (some [r]) b ∧
      a.Superseded p h (.sum ts) r b ∧
      (∃ m', b.get? p = some m' ∧ m'.parent = m.parent ∧ m'.element.kind = m.element.kind ∧
        m'.element.children = m.element.children.set k r) ∧
      (∀ x n, a.IsAbove h x → a.get? x = some n → b.get? x = some n) ∧
      ∀ x, ¬ ((x = h ∨ b.IsAbove h x) ∧ (x = r ∨ b.IsAbove r x)) := by
  have owned : a.owner? h = some p := owner?_of_get? stored
  have nothing : ¬ (a.denote h).Expandable → (expand h).run a = .ok none a := fun other =>
    run_expand_of_none stored (expanded?_of_not_expandable wf stored other)
  refine ⟨⟨?_, fun expandable => ?_⟩, nothing, fun ts expansion => ?_⟩
  · rintro ⟨rs, b, run⟩
    by_contra other
    cases run.symm.trans (nothing other)
  · obtain ⟨ts, expansion⟩ := Term.expandable_iff.mp expandable
    obtain ⟨r, b, run, _⟩ := run_expand_of_expansion wf filled owned expansion
    exact ⟨[r], b, run⟩
  · obtain ⟨r, b, run, superseded⟩ := run_expand_of_expansion wf filled owned expansion
    have positions := Element.children_replaceChild_eq_set r (wf.distinct around) slot
    exact ⟨r, b, run, superseded,
      ⟨_, superseded.slot around, rfl, Element.kind_replaceChild .., positions⟩,
      fun x n above held => superseded.kept_below wf owned above held,
      fun x => superseded.apart wf owned⟩

/-- The expression `x - a*(b + c)*(d + e)`, in which a product of two sums is subtracted. -/
def twoSums : Term := .sum [.symbol "x", .negation (.product [.symbol "a",
  .sum [.symbol "b", .symbol "c"], .sum [.symbol "d", .symbol "e"]])]

/-- What is subtracted in `x - a*(b + c)*(d + e)` becomes `-a*b*(d + e) - a*c*(d + e)`. -/
theorem expand_distributes_of_twoSums : ∃ a : Arena, a.WellFormed ∧ a.Filled ∅ ∧
    a.get? ⟨4⟩ = some ⟨some ⟨2⟩, .negation ⟨5⟩⟩ ∧
    a.get? ⟨2⟩ = some ⟨some ⟨0⟩, .sum [⟨3⟩, ⟨4⟩]⟩ ∧
    ∃ r b, (expand ⟨4⟩).run a = .ok (some [r]) b ∧
      b.denote r = .sum [
        .negation (.product [.symbol "a", .symbol "b", .sum [.symbol "d", .symbol "e"]]),
        .negation (.product [.symbol "a", .symbol "c", .sum [.symbol "d", .symbol "e"]])] ∧
      b.get? ⟨2⟩ = some ⟨some ⟨0⟩, .sum [⟨3⟩, r]⟩ ∧ b.get? ⟨4⟩ = some ⟨none, .negation ⟨5⟩⟩ := by
  have unwrapped : twoSums.Unwrapped := by decide
  have full : twoSums.All Term.Filled := by decide
  have root : zero.get? ⟨0⟩ = some ⟨none, .root ⟨1⟩⟩ := rfl
  have only : (⟨1⟩ : Handle) ∈ [(⟨1⟩ : Handle)] := List.mem_singleton_self _
  have filled := filled_zero.plant_replaced wellFormed_zero root only unwrapped full
  obtain ⟨a, same⟩ : ∃ a, a = (zero.plant twoSums).rewire ⟨0⟩ (.root ⟨2⟩) := ⟨_, rfl⟩
  have wf : a.WellFormed := by rw [same]; exact Edit.wellFormed_expression unwrapped
  have filled : a.Filled ∅ := by rw [same]; exact filled
  have stored : a.get? ⟨4⟩ = some ⟨some ⟨2⟩, .negation ⟨5⟩⟩ := by rw [same]; rfl
  have around : a.get? ⟨2⟩ = some ⟨some ⟨0⟩, .sum [⟨3⟩, ⟨4⟩]⟩ := by rw [same]; rfl
  have denotes : a.denote ⟨4⟩ = .negation (.product ([.symbol "a"] ++
      .sum [.symbol "b", .symbol "c"] :: [.sum [.symbol "d", .symbol "e"]])) := by rw [same]; rfl
  obtain ⟨_, _, expands⟩ := expand_distributes (k := 1) wf filled stored around rfl
  rw [denotes] at expands
  obtain ⟨r, b, run, superseded, _⟩ := expands _ (.negatedProduct (.product (by decide)))
  exact ⟨a, wf, filled, stored, around, r, b, run, superseded.denotes, superseded.slot around,
    superseded.left stored⟩

end Law

end AlgebraEditor
