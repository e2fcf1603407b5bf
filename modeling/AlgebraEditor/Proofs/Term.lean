import AlgebraEditor.Term

/-!
# Reasoning about terms

A term is larger than its children, and so whatever passes from the children of a term to the term
holds of every term. `All` says that something holds of a term and of everything inside it, and can
be decided if that something can. Equality of terms is decidable.
-/

namespace AlgebraEditor.Term

theorem size_eq (t : Term) : t.size = sizes t.children + 1 := by
  cases t <;> simp [size, children, sizes, Nat.add_assoc]

theorem sizes_append (ts us : List Term) : sizes (ts ++ us) = sizes ts + sizes us := by
  induction ts with
  | nil => simp [sizes]
  | cons t ts ih => simp [sizes, ih, Nat.add_assoc]

theorem size_le_sizes {t : Term} {ts : List Term} (member : t ∈ ts) : t.size ≤ sizes ts := by
  obtain ⟨before, after, rfl⟩ := List.append_of_mem member
  rw [sizes_append, sizes]
  omega

theorem size_lt_of_mem_children {t u : Term} (member : u ∈ t.children) : u.size < t.size := by
  have inside := size_le_sizes member
  rw [size_eq t]
  omega

@[elab_as_elim]
theorem induction {motive : Term → Prop} (t : Term)
    (step : ∀ t, (∀ u ∈ t.children, motive u) → motive t) : motive t := by
  induction count : t.size using Nat.strongRecOn generalizing t with
  | _ count ih =>
    refine step t fun u member => ?_
    exact ih u.size (count ▸ size_lt_of_mem_children member) u rfl

/-- Something holds of a term and of everything inside it. -/
inductive All (P : Term → Prop) : Term → Prop where
  | mk {t : Term} : P t → (∀ u ∈ t.children, All P u) → All P t

variable {P Q : Term → Prop} {t : Term}

theorem All.self (all : t.All P) : P t := by
  cases all with
  | mk self _ => exact self

theorem All.child {u : Term} (all : t.All P) (member : u ∈ t.children) : u.All P := by
  cases all with
  | mk _ children => exact children u member

theorem All.imp (all : t.All P) (weaker : ∀ u, P u → Q u) : t.All Q := by
  induction all with
  | mk self _ ih => exact .mk (weaker _ self) ih

/-- There is no wrapper in the term. -/
def Unwrapped (t : Term) : Prop := t.All (·.kind ≠ .root)

theorem unwrapped_integer (value : UInt64) : Unwrapped (.integer value) := .mk nofun nofun

/-- If there is a term of a kind, there is a first one. -/
theorem exists_first_of_kind {kind : Kind} {ts : List Term} (among : ∃ t ∈ ts, t.kind = kind) :
    ∃ before t after, ts = before ++ t :: after ∧ t.kind = kind ∧ ∀ u ∈ before, u.kind ≠ kind := by
  obtain ⟨u, member, same⟩ := among
  obtain ⟨t, found⟩ : ∃ t, ts.find? (·.kind = kind) = some t :=
    Option.isSome_iff_exists.mp (List.find?_isSome.mpr ⟨u, member, decide_eq_true same⟩)
  obtain ⟨first, before, after, rfl, others⟩ := List.find?_eq_some_iff_append.mp found
  exact ⟨before, t, after, rfl, of_decide_eq_true first, fun v front => by simpa using others v front⟩

/-! ### Building lists -/

theorem productOf_of_long {ts : List Term} (long : 2 ≤ ts.length) : productOf ts = product ts := by
  match ts with
  | _ :: _ :: _ => rfl

theorem sumOf_of_long {ts : List Term} (long : 2 ≤ ts.length) : sumOf ts = sum ts := by
  match ts with
  | _ :: _ :: _ => rfl

/-! ### Comparing -/

mutual

/-- Whether two terms are equal. -/
def equals : Term → Term → Bool
  | symbol name, symbol name' => name == name'
  | integer value, integer value' => value == value'
  | negation t, negation u | root t, root u => equals t u
  | fraction t t', fraction u u' | power t t', power u u' => equals t u && equals t' u'
  | product ts, product us | sum ts, sum us => equalAll ts us
  | _, _ => false

/-- Whether two lists of terms are equal. -/
def equalAll : List Term → List Term → Bool
  | [], [] => true
  | t :: ts, u :: us => equals t u && equalAll ts us
  | _, _ => false

end

theorem equalAll_iff {ts : List Term} (each : ∀ t ∈ ts, ∀ u, t.equals u = true ↔ t = u)
    {us : List Term} : equalAll ts us = true ↔ ts = us := by
  induction ts generalizing us with
  | nil => cases us <;> simp [equalAll]
  | cons t ts ih =>
    obtain ⟨first, rest⟩ := List.forall_mem_cons.mp each
    cases us with
    | nil => simp [equalAll]
    | cons u us => simp [equalAll, first, ih rest]

theorem equals_iff {t u : Term} : t.equals u = true ↔ t = u := by
  induction t using Term.induction generalizing u with
  | step t ih =>
    cases t with
    | symbol | integer => cases u <;> simp [equals]
    | negation t | root t =>
      have inner : ∀ {u}, t.equals u = true ↔ t = u := ih t (List.mem_singleton_self t)
      cases u <;> simp [equals, inner]
    | fraction t t' | power t t' =>
      have first : ∀ {u}, t.equals u = true ↔ t = u := ih t List.mem_cons_self
      have second : ∀ {u}, t'.equals u = true ↔ t' = u := ih t' (by simp [children])
      cases u <;> simp [equals, first, second]
    | product ts | sum ts =>
      have all : ∀ {us}, equalAll ts us = true ↔ ts = us := equalAll_iff fun t member _ => ih t member
      cases u <;> simp [equals, all]

instance : DecidableEq Term := fun _ _ => decidable_of_iff _ equals_iff

/-! ### Checking throughout -/

mutual

/-- Whether something holds of a term and of everything inside it. -/
def every (p : Term → Bool) : Term → Bool
  | symbol name => p (symbol name)
  | integer value => p (integer value)
  | negation t => p (negation t) && every p t
  | fraction t u => p (fraction t u) && (every p t && every p u)
  | power t u => p (power t u) && (every p t && every p u)
  | product ts => p (product ts) && everyOf p ts
  | sum ts => p (sum ts) && everyOf p ts
  | root t => p (root t) && every p t

/-- Whether something holds of all terms and of everything inside them. -/
def everyOf (p : Term → Bool) : List Term → Bool
  | [] => true
  | t :: ts => every p t && everyOf p ts

end

theorem everyOf_eq_all {p : Term → Bool} (ts : List Term) : everyOf p ts = ts.all (every p) := by
  induction ts with
  | nil => rfl
  | cons t ts ih => rw [everyOf, ih, List.all_cons]

theorem every_eq {p : Term → Bool} (t : Term) : every p t = (p t && t.children.all (every p)) := by
  cases t <;> simp [every, children, everyOf_eq_all]

theorem all_iff : t.All P ↔ P t ∧ ∀ u ∈ t.children, u.All P :=
  ⟨fun all => ⟨all.self, fun _ => all.child⟩, fun ⟨self, children⟩ => .mk self children⟩

theorem every_iff [DecidablePred P] : every (P ·) t = true ↔ t.All P := by
  induction t using Term.induction with
  | step t ih => rw [every_eq, all_iff, Bool.and_eq_true, decide_eq_true_iff, List.all_eq_true,
      forall₂_congr ih]

instance [DecidablePred P] : Decidable (t.All P) := decidable_of_iff _ every_iff

instance : Decidable t.Unwrapped := inferInstanceAs (Decidable (t.All (·.kind ≠ .root)))

end AlgebraEditor.Term
