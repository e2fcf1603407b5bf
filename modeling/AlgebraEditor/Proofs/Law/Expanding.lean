import AlgebraEditor.Law.Distributive
import AlgebraEditor.Proofs.Law.Basic
import Mathlib.Algebra.BigOperators.Ring.List
import Mathlib.Tactic.Ring

/-!
# Expanding

What an element expands to is built of copies, and is worth the element. Its sum then takes the place
of the element.
-/

namespace AlgebraEditor

namespace Law

open Arena

variable {a b : Arena} {h p : Handle} {hs : List Handle} {n m : Node} {P : Term → Prop}
  {terms : List Term} {r : Option (List Handle)}

/-- The product of the factors with `t` in the place of `s`. -/
def row (a : Arena) (factors : List Handle) (s t : Handle) : Term :=
  .productOf (factors.map fun factor => a.denote (if factor = s then t else factor))

/-- A product distributed over one of its factors, which is a sum. -/
def Distributes (a : Arena) (h : Handle) (terms : List Term) : Prop :=
  ∃ n factors s m summands, a.get? h = some n ∧ n.element = .product factors ∧ s ∈ factors ∧
    a.get? s = some m ∧ m.element = .sum summands ∧ terms = summands.map (row a factors s)

/-- The terms that an element expands to. -/
inductive Expands (a : Arena) (h : Handle) : List Term → Prop where
  | product {terms : List Term} : Distributes a h terms → Expands a h terms
  | negatedProduct {n : Node} {inner : Handle} {terms : List Term} : a.get? h = some n →
      n.element = .negation inner → Distributes a inner terms → Expands a h (terms.map .negation)
  | negatedSum {n m : Node} {inner : Handle} {summands : List Handle} : a.get? h = some n →
      n.element = .negation inner → a.get? inner = some m → m.element = .sum summands →
      Expands a h ((summands.map a.denote).map .negation)

theorem builds_copiedRow (wf : a.WellFormed) {factors : List Handle} {s t : Handle}
    (each : ∀ factor ∈ factors, a.owner? factor = some h) (part : a.owner? t = some s) :
    Edit.Builds a (copiedRow factors s t) (row a factors s t) := by
  refine Edit.BuildsAll.product (.mapM fun factor inside => ?_)
  split
  · exact wf.builds_copy_of_owner? part
  · exact wf.builds_copy_of_owner? (each factor inside)

theorem distributed?_of_first (wf : a.WellFormed) {factors summands : List Handle} {s : Handle}
    (stored : a.get? h = some n) (shape : n.element = .product factors)
    (first : firstOfKind? a .sum factors = .ok (some s)) (stored' : a.get? s = some m)
    (shape' : m.element = .sum summands) :
    (distributed? h).Offers a (some (summands.map (row a factors s))) := by
  have rows : Edit.BuildsAll a (summands.mapM (copiedRow factors s)) (summands.map (row a factors s)) := by
    refine .mapM fun t part => builds_copiedRow (h := h) wf (fun factor inside => ?_) ?_
    · exact wf.records stored factor (by rw [shape]; exact inside)
    · exact wf.records stored' t (by rw [shape']; exact part)
  obtain ⟨rs, b, run, adds⟩ := rows a (.refl a) wf
  refine ⟨rs, b, ?_, adds⟩
  unfold distributed?
  rw [Edit.childrenOf, Edit.run_bind_of_ok (Edit.run_inspect_of_ok (children_of_get? stored)), shape,
    Element.children, Edit.run_bind_of_ok (Edit.run_inspect_of_ok first)]
  dsimp only
  rw [Edit.childrenOf, Edit.run_bind_of_ok (Edit.run_inspect_of_ok (children_of_get? stored')), shape',
    Element.children, Edit.run_bind_of_ok run]
  rfl

theorem distributed?_of_none {factors : List Handle} (stored : a.get? h = some n)
    (shape : n.element = .product factors) (absent : firstOfKind? a .sum factors = .ok none) :
    (distributed? h).Offers a none := by
  change (distributed? h).run a = _
  unfold distributed?
  rw [Edit.childrenOf, Edit.run_bind_of_ok (Edit.run_inspect_of_ok (children_of_get? stored)), shape,
    Element.children, Edit.run_bind_of_ok (Edit.run_inspect_of_ok absent)]
  rfl

theorem distributed?_total (wf : a.WellFormed) {factors : List Handle} (stored : a.get? h = some n)
    (shape : n.element = .product factors) :
    ∃ found, (distributed? h).Offers a found ∧
      ∀ terms, found = some terms → Distributes a h terms := by
  have held := wf.stored_children stored
  rw [shape, Element.children] at held
  obtain ⟨found, read, holds⟩ := firstOfKind?_total wf .sum held
  cases found with
  | none =>
    refine ⟨none, distributed?_of_none stored shape read, fun terms same => ?_⟩
    cases same
  | some s =>
    obtain ⟨member, m, stored', kind⟩ := holds s rfl
    obtain ⟨summands, shape'⟩ := Element.kind_eq_sum.mp kind
    refine ⟨_, distributed?_of_first wf stored shape read stored' shape', fun terms same => ?_⟩
    cases same
    exact ⟨n, factors, s, m, summands, stored, shape, member, stored', shape', rfl⟩

theorem expanded?_of_product {factors : List Handle} {found : Option (List Term)}
    (stored : a.get? h = some n) (shape : n.element = .product factors)
    (read : (distributed? h).Offers a found) : (expanded? h).Offers a found := by
  have same : (expanded? h).run a = (distributed? h).run a := by
    rw [expanded?, Edit.run_bind_of_ok (Edit.run_inspect_of_ok (element_of_get? stored)), shape]
  unfold Edit.Offers
  rw [same]
  exact read

theorem expanded?_of_other (stored : a.get? h = some n) (product : n.element.kind ≠ .product)
    (negation : n.element.kind ≠ .negation) : (expanded? h).Offers a none := by
  change (expanded? h).run a = _
  rw [expanded?, Edit.run_bind_of_ok (Edit.run_inspect_of_ok (element_of_get? stored))]
  cases shape : n.element <;> simp_all [Element.kind]

/-- The sign in front of an element goes to every term that can take it on. -/
theorem expanded?_of_negation (wf : a.WellFormed) {inner : Handle} {found : Option (List Term)}
    (stored : a.get? h = some n) (shape : n.element = .negation inner)
    (read : (signless? inner).Offers a found) :
    (expanded? h).Offers a (found.map (·.map .negation)) := by
  cases found with
  | none =>
    change (expanded? h).run a = _
    rw [expanded?, Edit.run_bind_of_ok (Edit.run_inspect_of_ok (element_of_get? stored)), shape]
    dsimp only
    rw [Edit.run_bind_of_ok read]
    rfl
  | some terms =>
    obtain ⟨rs, b, run, adds⟩ := read
    obtain ⟨ys, d, run', negated⟩ := Edit.run_negations_adds adds wf
    refine ⟨ys, d, ?_, negated⟩
    rw [expanded?, Edit.run_bind_of_ok (Edit.run_inspect_of_ok (element_of_get? stored)), shape]
    dsimp only
    rw [Edit.run_bind_of_ok run]
    dsimp only
    rw [Edit.run_bind_of_ok run']
    rfl

section Signless

variable (held : a.get? h = some n)

include held

theorem signless?_of_product {factors : List Handle} {found : Option (List Term)}
    (shape : n.element = .product factors) (read : (distributed? h).Offers a found) :
    (signless? h).Offers a found := by
  have same : (signless? h).run a = (distributed? h).run a := by
    rw [signless?, Edit.kindOf, Edit.run_bind_of_ok (Edit.run_inspect_of_ok (kind_of_get? held)),
      shape]
    rfl
  unfold Edit.Offers
  rw [same]
  exact read

theorem signless?_of_sum (wf : a.WellFormed) {summands : List Handle}
    (shape : n.element = .sum summands) : (signless? h).Offers a (some (summands.map a.denote)) := by
  have copies := wf.builds_copies held
  rw [shape, Element.children] at copies
  obtain ⟨rs, b, run, adds⟩ := copies a (.refl a) wf
  refine ⟨rs, b, ?_, adds⟩
  rw [signless?, Edit.kindOf, Edit.run_bind_of_ok (Edit.run_inspect_of_ok (kind_of_get? held)), shape]
  dsimp only [Element.kind]
  rw [Edit.childrenOf, Edit.run_bind_of_ok (Edit.run_inspect_of_ok (children_of_get? held)), shape,
    Element.children, Edit.run_bind_of_ok run]
  rfl

theorem signless?_of_other (product : n.element.kind ≠ .product) (sum : n.element.kind ≠ .sum) :
    (signless? h).Offers a none := by
  change (signless? h).run a = _
  rw [signless?, Edit.kindOf, Edit.run_bind_of_ok (Edit.run_inspect_of_ok (kind_of_get? held))]
  cases shape : n.element <;> simp_all [Element.kind]

end Signless

theorem expanded?_total (wf : a.WellFormed) (stored : a.get? h = some n) :
    ∃ found, (expanded? h).Offers a found ∧ ∀ terms, found = some terms → Expands a h terms := by
  cases shape : n.element with
  | product factors =>
    obtain ⟨found, read, holds⟩ := distributed?_total wf stored shape
    exact ⟨found, expanded?_of_product stored shape read,
      fun terms same => .product (holds terms same)⟩
  | negation inner =>
    have member : inner ∈ n.element.children := by rw [shape]; exact List.mem_singleton_self inner
    obtain ⟨m, held⟩ := wf.stored_of_mem_children stored member
    cases shape' : m.element with
    | product factors =>
      obtain ⟨found, read, holds⟩ := distributed?_total wf held shape'
      refine ⟨_, expanded?_of_negation wf stored shape (signless?_of_product held shape' read),
        fun terms same => ?_⟩
      obtain ⟨rows, rfl, rfl⟩ := Option.map_eq_some_iff.mp same
      exact .negatedProduct stored shape (holds rows rfl)
    | sum summands =>
      refine ⟨_, expanded?_of_negation wf stored shape (signless?_of_sum held wf shape'),
        fun terms same => ?_⟩
      cases same
      exact .negatedSum stored shape held shape'
    | _ =>
      refine ⟨_, expanded?_of_negation wf stored shape (signless?_of_other held ?_ ?_), nofun⟩ <;>
        simp [shape', Element.kind]
  | _ => refine ⟨none, expanded?_of_other stored ?_ ?_, nofun⟩ <;> simp [shape, Element.kind]

/-- Each term of an expansion is built of copies of owned elements. -/
theorem Expands.all {t : Term} (expands : Expands a h terms) (wf : a.WellFormed)
    (permits : Term.Permits P) (owned : a.Throughout P) (member : t ∈ terms) : t.All P := by
  have rows : ∀ {h terms}, Distributes a h terms → ∀ t ∈ terms, t.All P := by
    rintro h _ ⟨n, factors, s, m, summands, stored, shape, _, held, shape', rfl⟩ t member
    obtain ⟨summand, part, rfl⟩ := List.mem_map.mp member
    apply permits.all_productOf
    intro u row
    obtain ⟨factor, inside, rfl⟩ := List.mem_map.mp row
    split
    · exact owned (wf.records held summand (by rw [shape']; exact part))
    · exact owned (wf.records stored factor (by rw [shape]; exact inside))
  cases expands with
  | product distributes => exact rows distributes t member
  | negatedProduct _ _ distributes =>
    obtain ⟨u, part, rfl⟩ := List.mem_map.mp member
    exact permits.all_negation (rows distributes u part)
  | negatedSum _ _ held shape' =>
    obtain ⟨u, part, rfl⟩ := List.mem_map.mp member
    obtain ⟨summand, inside, rfl⟩ := List.mem_map.mp part
    exact permits.all_negation (owned (wf.records held summand (by rw [shape']; exact inside)))

theorem run_expand_of_none (stored : a.get? h = some n) (read : (expanded? h).Offers a none) :
    (expand h).run a = .ok none a := by
  unfold expand
  rw [Edit.parentOf, Edit.run_bind_of_ok (Edit.run_inspect_of_ok (parent_of_get? stored))]
  cases a.owner? h with
  | none => rfl
  | some p =>
    dsimp only
    rw [Edit.run_bind_of_ok read]
    rfl

/-- The terms that an owned element expands to are joined to a sum, which takes its place. -/
theorem run_expand_of_terms (wf : a.WellFormed) (owned : a.owner? h = some p)
    (read : (expanded? h).Offers a (some terms)) : ∃ s b, a.Adds [.sumOf terms] [s] b ∧
      (expand h).run a = (do Edit.replace p h s; return some [s] : Edit _).run b := by
  obtain ⟨n, stored⟩ := Arena.stored_of_owner? owned
  obtain ⟨rs, b, run, adds⟩ := read
  obtain ⟨s, d, joined, adds'⟩ := Edit.run_sum_adds adds wf
  refine ⟨s, d, adds', ?_⟩
  unfold expand
  rw [Edit.parentOf, Edit.run_bind_of_ok (Edit.run_inspect_of_ok (parent_of_get? stored)), owned]
  dsimp only
  rw [Edit.run_bind_of_ok run]
  dsimp only
  rw [Edit.run_bind_of_ok joined]

/-- Expanding does nothing, or puts the sum of what the element expands to in its place. -/
theorem run_expand (wf : a.WellFormed) (stored : a.get? h = some n) :
    (expand h).run a = .ok none a ∨ ∃ p terms s b, a.owner? h = some p ∧ Expands a h terms ∧
      a.Adds [.sumOf terms] [s] b ∧
      (expand h).run a = (do Edit.replace p h s; return some [s] : Edit _).run b := by
  obtain ⟨found, read, holds⟩ := expanded?_total wf stored
  cases owned : a.owner? h with
  | none =>
    left
    unfold expand
    rw [Edit.parentOf, Edit.run_bind_of_ok (Edit.run_inspect_of_ok (parent_of_get? stored)), owned]
    rfl
  | some p =>
    cases found with
    | none => exact .inl (run_expand_of_none stored read)
    | some terms =>
      obtain ⟨s, b, adds, run⟩ := run_expand_of_terms wf owned read
      exact .inr ⟨p, terms, s, b, rfl, holds terms rfl, adds, run⟩

/-! ### Values -/

section Value

variable {R : Type*} [CommRing R] (I : Interpretation R)

/-- A product in which one factor is exchanged is worth the new factor times the others. -/
theorem prod_exchanged (v : Handle → R) {factors : List Handle} {s : Handle} (t : Handle)
    (nodup : factors.Nodup) (member : s ∈ factors) :
    (factors.map fun factor => v (if factor = s then t else factor)).prod =
      v t * ((factors.erase s).map v).prod := by
  have others : (factors.erase s).map (fun factor => v (if factor = s then t else factor)) =
      (factors.erase s).map v := by
    apply List.map_congr_left
    intro factor inside
    rw [if_neg (nodup.mem_erase_iff.mp inside).1]
  rw [((List.perm_cons_erase member).map _).prod_eq, List.map_cons, List.prod_cons, others,
    if_pos rfl]

theorem Distributes.value_eq (distributes : Distributes a h terms) (wf : a.WellFormed) :
    (terms.map (Term.eval I)).sum = a.value I h := by
  obtain ⟨n, factors, s, m, summands, stored, shape, member, held, shape', rfl⟩ := distributes
  have nodup : factors.Nodup := by
    have distinct := wf.distinct stored
    rwa [shape] at distinct
  have rows : ∀ t ∈ summands, (row a factors s t).eval I =
      a.value I t * ((factors.erase s).map (a.value I)).prod := by
    intro t _
    rw [row, Term.eval_productOf, List.map_map]
    exact prod_exchanged (a.value I) t nodup member
  have sum : a.value I s = (summands.map (a.value I)).sum := by
    rw [wf.value_eq I held, shape']
    rfl
  calc ((summands.map (row a factors s)).map (Term.eval I)).sum
      = (summands.map fun t => a.value I t * ((factors.erase s).map (a.value I)).prod).sum := by
        rw [List.map_map]
        exact congrArg List.sum (List.map_congr_left rows)
    _ = a.value I s * ((factors.erase s).map (a.value I)).prod := by
        rw [List.sum_map_mul_right, ← sum]
    _ = (factors.map (a.value I)).prod := by
        rw [((List.perm_cons_erase member).map _).prod_eq, List.map_cons, List.prod_cons]
    _ = a.value I h := by
        rw [wf.value_eq I stored, shape]
        rfl

theorem sum_map_negation (terms : List Term) :
    ((terms.map .negation).map (Term.eval I)).sum = -(terms.map (Term.eval I)).sum := by
  induction terms with
  | nil => simp
  | cons t terms ih =>
    simp only [List.map_cons, List.sum_cons, Term.eval, ih]
    ring

/-- What an element expands to is worth the element. -/
theorem Expands.value_eq (expands : Expands a h terms) (wf : a.WellFormed) :
    (terms.map (Term.eval I)).sum = a.value I h := by
  cases expands with
  | product distributes => exact distributes.value_eq I wf
  | negatedProduct stored shape distributes =>
    rw [sum_map_negation, distributes.value_eq I wf, wf.value_eq I stored, shape]
    rfl
  | negatedSum stored shape held shape' =>
    rw [sum_map_negation, wf.value_eq I stored, shape, Element.value, wf.value_eq I held, shape',
      List.map_map]
    rfl

theorem expand_sameValue (wf : a.WellFormed) (stored : a.get? h = some n)
    (run : (expand h).run a = .ok r b) : SameValue I a b := by
  rcases run_expand wf stored with same | ⟨p, terms, s, d, _, expands, adds, same⟩
  · rw [same] at run
    cases run
    exact .refl wf
  · rw [same] at run
    obtain ⟨_, _, replaced, done⟩ := Edit.run_bind_eq_ok.mp run
    cases done
    refine Edit.replace_adds_sameValue wf stored adds ?_ replaced
    rw [Term.eval_sumOf, expands.value_eq I wf]

end Value

end Law

end AlgebraEditor
