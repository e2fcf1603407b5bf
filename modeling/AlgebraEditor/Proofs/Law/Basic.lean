import AlgebraEditor.Law.Basic
import AlgebraEditor.Proofs.Value.Solutions

/-!
# What rules read and build

On a well-formed arena a rule can read everything that it reads of stored elements. What it plants
are copies of owned elements, put together to negations and lists, so that a property of terms that
permits these passes from the arena to what is planted.
-/

namespace AlgebraEditor

variable {P : Term → Prop} {a : Arena} {h p x : Handle} {hs : List Handle} {n : Node}

namespace Term

variable {ts : List Term} {t : Term}

/-- A property of terms that does not stand in the way of what rules build. -/
structure Permits (P : Term → Prop) : Prop where
  integer : ∀ value, P (.integer value)
  negation : ∀ t, P (.negation t)
  product : ∀ ts : List Term, 2 ≤ ts.length → P (.product ts)
  sum : ∀ ts : List Term, 2 ≤ ts.length → P (.sum ts)

theorem permits_unwrapped : Permits (·.kind ≠ .root) where
  integer _ := nofun
  negation _ := nofun
  product _ _ := nofun
  sum _ _ := nofun

namespace Permits

theorem all_integer (permits : Permits P) (value : UInt64) : All P (.integer value) :=
  .mk (permits.integer value) nofun

theorem all_negation (permits : Permits P) (all : t.All P) : All P (.negation t) := by
  apply All.mk (permits.negation t)
  intro u member
  rwa [List.mem_singleton.mp member]

theorem all_signed (permits : Permits P) (negated : Bool) (all : t.All P) :
    (t.signed negated).All P := by
  cases negated with
  | false => exact all
  | true => exact permits.all_negation all

theorem all_productOf (permits : Permits P) (all : ∀ t ∈ ts, t.All P) : (productOf ts).All P := by
  match ts with
  | [] => exact permits.all_integer 1
  | [t] => exact all t List.mem_cons_self
  | t :: u :: ts => exact .mk (permits.product _ (by simp)) all

theorem all_sumOf (permits : Permits P) (all : ∀ t ∈ ts, t.All P) : (sumOf ts).All P := by
  match ts with
  | [] => exact permits.all_integer 0
  | [t] => exact all t List.mem_cons_self
  | t :: u :: ts => exact .mk (permits.sum _ (by simp)) all

end Permits

end Term

namespace Arena

/-- Whatever is owned denotes a term with a property throughout. -/
def Throughout (a : Arena) (P : Term → Prop) : Prop :=
  ∀ {x p}, a.owner? x = some p → (a.denote x).All P

/-- What holds at an element and at everything below it holds throughout its term. -/
theorem WellFormed.all_denote (wf : a.WellFormed) (stored : a.get? h = some n)
    (each : ∀ x m, x = h ∨ a.IsAbove h x → a.get? x = some m → P (m.element.toTerm a.denote)) :
    (a.denote h).All P := by
  revert each
  refine wf.induction (motive := fun h => (∀ x m, x = h ∨ a.IsAbove h x → a.get? x = some m →
    P (m.element.toTerm a.denote)) → (a.denote h).All P) (fun h n stored ih each => ?_) stored
  rw [wf.denote_eq stored]
  refine .mk (each h n (.inl rfl) stored) fun u part => ?_
  rw [Element.children_toTerm] at part
  obtain ⟨c, member, rfl⟩ := List.mem_map.mp part
  have above := wf.isAbove_child stored member
  apply ih c above
  rintro x m (rfl | below) held
  · exact each x m (.inr above) held
  · exact each x m (.inr (above.trans below)) held

theorem WellFormed.unwrapped_denote (wf : a.WellFormed) (stored : a.get? h = some n)
    (other : h ≠ a.root) : (a.denote h).Unwrapped := by
  apply wf.all_denote stored
  intro y m place held
  rw [Element.kind_toTerm]
  apply wf.kind_ne_root held
  rcases place with rfl | below
  · exact other
  · rintro rfl
    exact wf.not_isAbove_root below

theorem WellFormed.throughout_unwrapped (wf : a.WellFormed) :
    a.Throughout (·.kind ≠ .root) := by
  intro x p owned
  obtain ⟨n, stored⟩ := Arena.stored_of_owner? owned
  exact wf.unwrapped_denote stored (wf.ne_root_of_owner? owned)

theorem WellFormed.children_throughout (wf : a.WellFormed) (throughout : a.Throughout P)
    (stored : a.get? h = some n) : ∀ t ∈ n.element.children.map a.denote, t.All P := by
  intro t member
  obtain ⟨c, inside, rfl⟩ := List.mem_map.mp member
  exact throughout (wf.records stored c inside)

/-- An element can be copied, and a property holds throughout the copy. -/
structure Copies (a : Arena) (P : Term → Prop) (x : Handle) : Prop where
  builds : Edit.Builds a (Edit.copy x) (a.denote x)
  all : (a.denote x).All P

namespace WellFormed

theorem builds_copy_of_owner? (wf : a.WellFormed) (owned : a.owner? x = some p) :
    Edit.Builds a (Edit.copy x) (a.denote x) := by
  obtain ⟨n, stored⟩ := Arena.stored_of_owner? owned
  exact Edit.builds_copy wf stored (wf.ne_root_of_owner? owned)

theorem copies_of_owner? (wf : a.WellFormed) (throughout : a.Throughout P)
    (owned : a.owner? x = some p) : a.Copies P x :=
  ⟨wf.builds_copy_of_owner? owned, throughout owned⟩

theorem copies_of_ne_root (wf : a.WellFormed) (stored : a.get? x = some n) (other : x ≠ a.root) :
    a.Copies (·.kind ≠ .root) x where
  builds := Edit.builds_copy wf stored other
  all := wf.unwrapped_denote stored other

/-- The children of an element can be copied one after the other. -/
theorem builds_copies (wf : a.WellFormed) (stored : a.get? h = some n) :
    Edit.BuildsAll a (n.element.children.mapM Edit.copy) (n.element.children.map a.denote) :=
  .mapM fun c member => wf.builds_copy_of_owner? (wf.records stored c member)

theorem stored_children (wf : a.WellFormed) (stored : a.get? h = some n) :
    ∀ c ∈ n.element.children, ∃ m, a.get? c = some m := fun _ member =>
  wf.stored_of_mem_children stored member

end WellFormed

end Arena

namespace Law

theorem firstOfKind?_eq_find? (wf : a.WellFormed) (kind : Kind)
    (stored : ∀ h ∈ hs, ∃ n, a.get? h = some n) :
    firstOfKind? a kind hs = .ok (hs.find? fun h => (a.denote h).kind = kind) := by
  induction hs with
  | nil => rfl
  | cons h hs ih =>
    obtain ⟨⟨n, held⟩, rest⟩ := List.forall_mem_cons.mp stored
    rw [firstOfKind?, Arena.kind_of_get? held, ok_bind, List.find?_cons, Arena.kind_denote wf held]
    by_cases same : n.element.kind = kind
    · rw [if_pos same, decide_eq_true same]
      rfl
    · rw [if_neg same, decide_eq_false same, ih rest]

/-- The first element of a kind is the one before which there is no other. -/
theorem firstOfKind?_of_first (wf : a.WellFormed) {kind : Kind} {before after : List Handle}
    (stored : ∀ h ∈ before ++ x :: after, ∃ n, a.get? h = some n) (first : (a.denote x).kind = kind)
    (others : ∀ t ∈ before.map a.denote, t.kind ≠ kind) :
    firstOfKind? a kind (before ++ x :: after) = .ok (some x) := by
  rw [firstOfKind?_eq_find? wf kind stored]
  refine congrArg Except.ok (List.find?_eq_some_iff_append.mpr
    ⟨decide_eq_true first, before, after, rfl, fun y member => ?_⟩)
  simpa using others _ (List.mem_map_of_mem member)

theorem firstOfKind?_total (wf : a.WellFormed) (kind : Kind)
    (stored : ∀ h ∈ hs, ∃ n, a.get? h = some n) :
    ∃ found, firstOfKind? a kind hs = .ok found ∧
      ∀ h, found = some h → h ∈ hs ∧ ∃ n, a.get? h = some n ∧ n.element.kind = kind := by
  refine ⟨_, firstOfKind?_eq_find? wf kind stored, fun h found => ?_⟩
  have member := List.mem_of_find?_eq_some found
  obtain ⟨n, held⟩ := stored h member
  refine ⟨member, n, held, ?_⟩
  rw [← Arena.kind_denote wf held]
  simpa using List.find?_some found

end Law

end AlgebraEditor
