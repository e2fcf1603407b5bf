import AlgebraEditor.Proofs.Arena.Denotation
import AlgebraEditor.Proofs.Arena.Slots
import Mathlib.Algebra.BigOperators.Group.List.Basic
import Mathlib.Algebra.Ring.Defs
import Mathlib.Data.Nat.Cast.Defs

/-!
# Interpretations

In a commutative ring, with any meaning of the symbols, of fractions and of powers, every term has
a value. The value of an element is that of the term that it denotes, and it is made of the values
of the children.
-/

namespace AlgebraEditor

/-- A meaning of symbols, fractions and powers. -/
structure Interpretation (R : Type*) where
  symbol : String → R
  fraction : R → R → R
  power : R → R → R

variable {R : Type*} [CommRing R] (I : Interpretation R)

namespace Term

mutual

/-- The value of a term. -/
def eval : Term → R
  | symbol name => I.symbol name
  | integer value => (value.toNat : R)
  | negation inner => -eval inner
  | fraction numerator denominator => I.fraction (eval numerator) (eval denominator)
  | power base exponent => I.power (eval base) (eval exponent)
  | product factors => (evals factors).prod
  | sum terms => (evals terms).sum
  | root inner => eval inner

/-- The values of several terms. -/
def evals : List Term → List R
  | [] => []
  | t :: ts => eval t :: evals ts

end

theorem evals_eq (ts : List Term) : evals I ts = ts.map (eval I) := by
  induction ts with
  | nil => rfl
  | cons t ts ih => rw [evals, ih, List.map_cons]

theorem eval_productOf (ts : List Term) : (productOf ts).eval I = (ts.map (eval I)).prod := by
  match ts with
  | [] => simp [productOf, eval]
  | [t] => simp [productOf]
  | t :: u :: ts => rw [productOf_pair, eval, evals_eq]

theorem eval_sumOf (ts : List Term) : (sumOf ts).eval I = (ts.map (eval I)).sum := by
  match ts with
  | [] => simp [sumOf, eval]
  | [t] => simp [sumOf]
  | t :: u :: ts => rw [sumOf_pair, eval, evals_eq]

theorem eval_signed (negated : Bool) (t : Term) :
    (t.signed negated).eval I = if negated then -t.eval I else t.eval I := by
  cases negated <;> rfl

end Term

/-- What a list of a kind is worth, from the values of its children. -/
def Kind.gathered (kind : Kind) (values : List R) : R :=
  if kind = .product then values.prod else values.sum

namespace Kind

theorem gathered_perm {kind : Kind} {xs ys : List R} (perm : xs.Perm ys) :
    kind.gathered xs = kind.gathered ys := by
  unfold gathered
  split
  · exact perm.prod_eq
  · exact perm.sum_eq

theorem gathered_append (kind : Kind) (xs ys : List R) :
    kind.gathered (xs ++ ys) = kind.gathered (kind.gathered xs :: ys) := by
  unfold gathered
  split
  · rw [List.prod_append, List.prod_cons]
  · rw [List.sum_append, List.sum_cons]

end Kind

/-- The value of an element whose children have the given values. -/
def Element.value (v : Handle → R) : Element → R
  | symbol name => I.symbol name
  | integer value => (value.toNat : R)
  | negation inner => -v inner
  | fraction numerator denominator => I.fraction (v numerator) (v denominator)
  | power base exponent => I.power (v base) (v exponent)
  | product factors => (factors.map v).prod
  | sum terms => (terms.map v).sum
  | root inner => v inner

namespace Element

theorem value_congr {v w : Handle → R} {e : Element} (same : ∀ c ∈ e.children, v c = w c) :
    e.value I v = e.value I w := by
  cases e with
  | product hs | sum hs =>
    have values : hs.map v = hs.map w := List.map_congr_left same
    rw [value, value, values]
  | _ => simp_all [value, children]

theorem eval_toTerm (f : Handle → Term) (e : Element) :
    (e.toTerm f).eval I = e.value I fun h => (f h).eval I := by
  cases e with
  | product hs | sum hs =>
    simp only [toTerm, Term.eval, Term.evals_eq, value, List.map_map]
    rfl
  | _ => rfl

theorem value_of_isList (v : Handle → R) {e : Element} (isList : e.kind.isList = true) :
    e.value I v = e.kind.gathered (e.children.map v) := by
  cases e with
  | product hs | sum hs => rfl
  | _ => cases isList

/-- Lists of one kind with the same children, in whatever order, have the same value. -/
theorem value_perm (v : Handle → R) {e e' : Element} (isList : e.kind.isList = true)
    (kind : e'.kind = e.kind) (perm : e'.children.Perm e.children) :
    e'.value I v = e.value I v := by
  rw [value_of_isList I v isList, value_of_isList I v (by rw [kind, isList]), kind,
    Kind.gathered_perm (perm.map v)]

/-- A child that is a list of the same kind may be exchanged for its children. -/
theorem value_splice (v : Handle → R) {e e' inner : Element} {h : Handle} {hs : List Handle}
    (isList : e.kind.isList = true) (kind : e'.kind = e.kind) (kind' : e.kind = inner.kind)
    (member : h ∈ e.children) (perm : e'.children.Perm (hs ++ e.children.erase h))
    (worth : v h = inner.kind.gathered (hs.map v)) : e'.value I v = e.value I v := by
  have whole := (List.perm_cons_erase member).map v
  rw [List.map_cons] at whole
  rw [value_of_isList I v isList, value_of_isList I v (by rw [kind, isList]), kind,
    Kind.gathered_perm (perm.map v), List.map_append, Kind.gathered_append,
    Kind.gathered_perm whole, worth, kind']

/-- An empty list is worth its identity. -/
theorem value_empty (v : Handle → R) {e : Element} {value : UInt64}
    (identity : e.kind.identity? = some value) :
    (e.modifyList fun _ => []).value I v = (value.toNat : R) := by
  cases e with
  | product hs =>
    cases identity
    simp [modifyList, Element.value]
  | sum hs =>
    cases identity
    simp [modifyList, Element.value]
  | _ => cases identity

/-- A list of one child is worth the child. -/
theorem value_single (v : Handle → R) {e : Element} (isList : e.kind.isList = true)
    (only : Handle) : (e.modifyList fun _ => [only]).value I v = v only := by
  cases e with
  | product hs | sum hs => simp [modifyList, Element.value]
  | _ => cases isList

/-- A child may be exchanged for one of the same value. -/
theorem value_replaceChild {v w : Handle → R} {old new : Handle} {e : Element}
    (nodup : e.children.Nodup) (kept : ∀ c ∈ e.children, c ≠ old → w c = v c)
    (exchanged : w new = v old) : (e.replaceChild old new).value I w = e.value I v := by
  cases e with
  | product hs | sum hs =>
    have slots : (hs.replace old new).map w = hs.map v := map_replace nodup kept exchanged
    rw [replaceChild, value, slots, value]
  | symbol | integer => rfl
  | negation inner | root inner =>
    simp only [replaceChild, value]
    split
    · simp_all
    · rw [kept inner List.mem_cons_self ‹_›]
  | fraction first second | power first second =>
    have distinct : first ≠ second := by simpa [children] using nodup
    have one := kept first List.mem_cons_self
    have two := kept second (List.mem_cons_of_mem _ List.mem_cons_self)
    simp only [replaceChild]
    split
    · rename_i here
      subst here
      rw [value, value, exchanged, two (Ne.symm distinct)]
    · rw [value, value, one ‹_›]
      split
      · simp_all
      · rw [two ‹_›]

end Element

namespace Arena

variable {a b : Arena} {h : Handle} {n : Node}

/-- The value of an element. -/
def value (a : Arena) (h : Handle) : R := (a.denote h).eval I

theorem WellFormed.value_eq (wf : a.WellFormed) (stored : a.get? h = some n) :
    a.value I h = n.element.value I (a.value I) := by
  rw [value, wf.denote_eq stored, Element.eval_toTerm]
  rfl

/-- Every element outside of `broken` has the value that its children make. -/
def Solves (a : Arena) (v : Handle → R) (broken : Set Handle) : Prop :=
  ∀ h n, a.get? h = some n → h ∉ broken → v h = n.element.value I v

theorem WellFormed.solves (wf : a.WellFormed) : a.Solves I (a.value I) ∅ :=
  fun _ _ stored _ => wf.value_eq I stored

/-- Solutions agree with the values wherever nothing broken lies at or below. -/
theorem Solves.eq_value {v : Handle → R} {broken : Set Handle} (solves : a.Solves I v broken)
    (wf : a.WellFormed) (stored : a.get? h = some n)
    (whole : ∀ x ∈ broken, x ≠ h ∧ ¬ a.IsAbove h x) : v h = a.value I h := by
  revert whole
  refine wf.induction (motive := fun h => (∀ x ∈ broken, x ≠ h ∧ ¬ a.IsAbove h x) →
    v h = a.value I h) (fun h n stored ih whole => ?_) stored
  rw [wf.value_eq I stored, solves h n stored fun inside => (whole h inside).1 rfl]
  refine Element.value_congr I fun c member => ?_
  have above := wf.isAbove_child stored member
  refine ih c above fun x inside => ⟨?_, fun deeper => (whole x inside).2 (above.trans deeper)⟩
  rintro rfl
  exact (whole x inside).2 above

end Arena

end AlgebraEditor
