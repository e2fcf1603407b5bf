import AlgebraEditor.Proofs.Arena.Gathering
import AlgebraEditor.Proofs.Law.CommonFactors

/-!
# Extracting common factors

What terms of a sum are factored into depends on what they denote alone: their common factors come
out behind the sum of what is left of them, or else the sign does, if all terms have one.
-/

namespace AlgebraEditor

namespace Term

/-- What two or more terms are factored into, if they have something in common. -/
def factoring (ts : List Term) : Option Term :=
  if commonFactors ts ≠ [] then
    some (product (sum (ts.map (·.without (commonFactors ts))) :: commonFactors ts))
  else if ∀ t ∈ ts, t.isNegated = true then some (negation (sum (ts.map unsigned)))
  else none

theorem productOf_of_ne_nil {ts : List Term} (t : Term) (more : ts ≠ []) :
    productOf (t :: ts) = product (t :: ts) := by
  match ts with
  | _ :: _ => rfl

end Term

namespace Law

open Arena SplitTerm

variable {a : Arena} {first second p q : Handle} {rest cs terms : List Handle}

theorem denotes_of_negations {inners : List Handle} (wf : a.WellFormed)
    (negations : List.Forall₂
      (fun h inner => ∃ n, a.get? h = some n ∧ n.element = .negation inner) terms inners) :
    (∀ t ∈ terms.map a.denote, t.isNegated = true) ∧
      inners.map a.denote = (terms.map a.denote).map Term.unsigned := by
  induction negations with
  | nil => exact ⟨nofun, rfl⟩
  | cons one _ ih =>
    obtain ⟨n, stored, shape⟩ := one
    simp only [List.map_cons, List.forall_mem_cons]
    rw [wf.denote_eq stored, shape]
    exact ⟨⟨rfl, ih.1⟩, congrArg _ ih.2⟩

/-- Two or more terms are factored into what their denotations are. -/
theorem Factored.eq_factoring {found : Option Term} (factored : Factored a terms found)
    (wf : a.WellFormed) (two : 2 ≤ terms.length) : found = Term.factoring (terms.map a.denote) := by
  have long : ∀ f : Term → Term, 2 ≤ ((terms.map a.denote).map f).length := fun f => by simpa using two
  cases factored with
  | empty => cases two
  | common splits common more =>
    obtain ⟨factors, left⟩ := common.denotes splits wf
    rw [left, Term.sumOf_of_long (long _), Term.productOf_of_ne_nil _ more, factors, Term.factoring,
      if_pos (factors ▸ more)]
  | signs splits common apart negations =>
    obtain ⟨factors, -⟩ := common.denotes splits wf
    obtain ⟨signs, inners⟩ := denotes_of_negations wf negations
    rw [inners, Term.sumOf_of_long (long _), Term.factoring, if_neg (not_not.mpr (factors ▸ apart)),
      if_pos signs]
  | nothing splits common apart positive =>
    obtain ⟨factors, -⟩ := common.denotes splits wf
    obtain ⟨signs, -⟩ := denotes_of_splits splits wf
    have all := congrArg (List.all · id) signs
    simp only [List.all_map] at all
    have unsigned : ¬ ∀ t ∈ terms.map a.denote, t.isNegated = true := fun each =>
      Bool.eq_false_iff.mp positive (all.trans (List.all_eq_true.mpr (List.forall_mem_map.mp each)))
    rw [Term.factoring, if_neg (not_not.mpr (factors ▸ apart)), if_neg unsigned]

/-- `x*x*y + x*x` is `(y + 1)*x*x`. -/
example : Term.factoring [.product [.symbol "x", .symbol "x", .symbol "y"],
    .product [.symbol "x", .symbol "x"]] =
    some (.product [.sum [.symbol "y", .integer 1], .symbol "x", .symbol "x"]) := by
  decide

/-- Terms of an owned sum are gathered to what they are factored into, if anything. -/
theorem run_factor_of_factoring (wf : a.WellFormed) (stored : a.get? p = some ⟨some q, .sum cs⟩)
    (nodup : (first :: second :: rest).Nodup) (inside : ∀ h ∈ first :: second :: rest, h ∈ cs) :
    (Term.factoring ((first :: second :: rest).map a.denote) = none →
      (factor p (first :: second :: rest)).run a = .ok none a) ∧
    ∀ t, Term.factoring ((first :: second :: rest).map a.denote) = some t →
      ∃ r b, (factor p (first :: second :: rest)).run a = .ok (some [r]) b ∧
        a.Gathered p q cs first (second :: rest) t r b := by
  have owned : ∀ h ∈ first :: second :: rest, a.owner? h = some p := fun h listed =>
    wf.records stored h (inside h listed)
  have copies := fun h listed => wf.copies_of_owner? wf.throughout_unwrapped (owned h listed)
  obtain ⟨found, offers, factored⟩ := factored?_total wf wf.throughout_unwrapped
    (fun h listed => stored_of_owner? (owned h listed)) copies
  have same := factored.eq_factoring wf (by simp)
  have kind : a.kind p = .ok .sum := kind_of_get? stored
  have parent : a.parent p = .ok (some q) := parent_eq_ok.mpr ⟨_, stored, rfl⟩
  unfold factor
  rw [Edit.kindOf, Edit.run_bind_of_ok (Edit.run_inspect_of_ok kind), if_neg (not_not.mpr rfl),
    Edit.parentOf, Edit.run_bind_of_ok (Edit.run_inspect_of_ok parent)]
  simp only [Option.isNone_some, Bool.false_eq_true, if_false]
  rw [← same]
  constructor
  · rintro rfl
    rw [Edit.run_bind_of_ok offers]
    rfl
  · rintro t rfl
    obtain ⟨r, d, run, adds⟩ := offers
    obtain ⟨c, s, b, replaced, removed, gathered⟩ := Edit.run_gathered wf adds stored nodup inside
    refine ⟨r, b, ?_, gathered⟩
    rw [Edit.run_bind_of_ok run]
    dsimp only
    rw [Edit.run_bind_of_ok replaced, Edit.run_bind_of_ok removed]
    rfl

/-- Factoring distinct terms of an owned sum pulls out the factors that all of them have, each as
often as every term has it and in the order of the first term. If there are none, it pulls out the
sign that all terms have, or does nothing. -/
theorem factor_extracts (wf : a.WellFormed) (stored : a.get? p = some ⟨some q, .sum cs⟩)
    (nodup : (first :: second :: rest).Nodup) (inside : ∀ h ∈ first :: second :: rest, h ∈ cs) :
    let terms := (first :: second :: rest).map a.denote
    let common := Term.commonFactors terms
    Intersection (terms.map Term.factors) common ∧
    ((∃ c, ∀ t ∈ terms, c ∈ t.factors) →
      ∃ r b, (factor p (first :: second :: rest)).run a = .ok (some [r]) b ∧
        a.Gathered p q cs first (second :: rest)
          (.product (.sum (terms.map (·.without common)) :: common)) r b) ∧
    ((¬ ∃ c, ∀ t ∈ terms, c ∈ t.factors) → (∀ t ∈ terms, t.isNegated = true) →
      ∃ r b, (factor p (first :: second :: rest)).run a = .ok (some [r]) b ∧
        a.Gathered p q cs first (second :: rest) (.negation (.sum (terms.map Term.unsigned))) r b) ∧
    ((¬ ∃ c, ∀ t ∈ terms, c ∈ t.factors) → (¬ ∀ t ∈ terms, t.isNegated = true) →
      (factor p (first :: second :: rest)).run a = .ok none a) := by
  intro terms common
  obtain ⟨nothing, something⟩ := run_factor_of_factoring wf stored nodup inside
  have intersection : Intersection (terms.map Term.factors) common := intersection_inCommon _
  have shared : common ≠ [] ↔ ∃ c, ∀ t ∈ terms, c ∈ t.factors := by
    rw [intersection.ne_nil_iff (List.cons_ne_nil _ _)]
    simp only [List.forall_mem_map]
  refine ⟨intersection, fun one => ?_, fun apart signs => ?_, fun apart positive => ?_⟩
  · exact something _ (if_pos (shared.mpr one))
  · exact something _ ((if_neg (mt shared.mp apart)).trans (if_pos signs))
  · exact nothing ((if_neg (mt shared.mp apart)).trans (if_neg positive))

/-- The expression `a*x*x - x*x*y + b`, two terms of which have a square in common. -/
def squares : Term := .sum [.product [.symbol "a", .symbol "x", .symbol "x"],
  .negation (.product [.symbol "x", .symbol "x", .symbol "y"]), .symbol "b"]

/-- The first two terms of `a*x*x - x*x*y + b` become `(a - y)*x*x`. -/
theorem factor_extracts_of_terms : ∃ a : Arena, a.WellFormed ∧
    a.get? ⟨2⟩ = some ⟨some ⟨0⟩, .sum [⟨3⟩, ⟨7⟩, ⟨12⟩]⟩ ∧ ∃ r b,
      (factor ⟨2⟩ [⟨3⟩, ⟨7⟩]).run a = .ok (some [r]) b ∧
      a.Gathered ⟨2⟩ ⟨0⟩ [⟨3⟩, ⟨7⟩, ⟨12⟩] ⟨3⟩ [⟨7⟩] (.product
        [.sum [.symbol "a", .negation (.symbol "y")], .symbol "x", .symbol "x"]) r b := by
  have symbol : ∀ name, (Term.symbol name).Unwrapped := fun _ => .mk nofun nofun
  have product : ∀ x y z, (Term.product [.symbol x, .symbol y, .symbol z]).Unwrapped :=
    fun x y z => .mk nofun (List.forall_mem_cons.mpr ⟨symbol x, List.forall_mem_cons.mpr
      ⟨symbol y, List.forall_mem_singleton.mpr (symbol z)⟩⟩)
  have unwrapped : squares.Unwrapped := .mk nofun (List.forall_mem_cons.mpr
    ⟨product _ _ _, List.forall_mem_cons.mpr
      ⟨Term.permits_unwrapped.all_negation (product _ _ _), List.forall_mem_singleton.mpr (symbol _)⟩⟩)
  obtain ⟨a, same⟩ : ∃ a, a = (zero.plant squares).rewire ⟨0⟩ (.root ⟨2⟩) := ⟨_, rfl⟩
  have wf : a.WellFormed := by rw [same]; exact Edit.wellFormed_expression unwrapped
  have sum : a.get? ⟨2⟩ = some ⟨some ⟨0⟩, .sum [⟨3⟩, ⟨7⟩, ⟨12⟩]⟩ := by rw [same]; rfl
  have read : [⟨3⟩, ⟨7⟩].map a.denote = squares.children.take 2 := by rw [same]; rfl
  have nodup : ([⟨3⟩, ⟨7⟩] : List Handle).Nodup := by decide
  obtain ⟨_, shared, _⟩ := factor_extracts wf sum nodup (by decide)
  rw [read] at shared
  exact ⟨a, wf, sum, shared ⟨.symbol "x", by decide⟩⟩

end Law

end AlgebraEditor
