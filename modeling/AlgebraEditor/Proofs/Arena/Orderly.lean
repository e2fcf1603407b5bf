import AlgebraEditor.Proofs.Arena.Filling
import AlgebraEditor.Proofs.Arena.Reachability

/-!
# Orderly arenas

In an orderly arena whatever hangs below the root is in order, and nothing is asked of the rest:
it may be shared, circular or stale. These demands on single elements already make the expression a
tree: `preOrder_eq_ok` lists every part of it once, and all ways up end at the root.
-/

namespace AlgebraEditor.Arena

/-- Every element of the expression is stored, holds each of its children once, is recorded by
them, and is neither a short list nor a second wrapper. -/
structure Orderly (a : Arena) : Prop where
  top : ∃ n, a.get? a.root = some n ∧ n.parent = none
  stored : ∀ {h}, a.Reachable h → ∃ n, a.get? h = some n
  records : ∀ {h n}, a.Reachable h → a.get? h = some n → ∀ c ∈ n.element.children, a.owner? c = some h
  distinct : ∀ {h n}, a.Reachable h → a.get? h = some n → n.element.children.Nodup
  filled : ∀ {h n}, a.Reachable h → a.get? h = some n → n.element.Filled
  only_wrapper : ∀ {h n}, a.Reachable h → a.get? h = some n → n.element.kind = .root → h = a.root

/-- The lists of the expression have two children or more. -/
def LongLists (a : Arena) : Prop :=
  ∀ ⦃h n⦄, a.Reachable h → a.get? h = some n → n.element.Filled

variable {a : Arena} {h p x y : Handle} {n : Node} {hs : List Handle}

theorem WellFormed.orderly (wf : a.WellFormed) (long : a.LongLists) : a.Orderly where
  top := by
    obtain ⟨inner, stored⟩ := wf.wrapper
    exact ⟨_, stored, rfl⟩
  stored reached := reached.stored wf
  records _ stored := wf.records stored
  distinct _ stored := wf.distinct stored
  filled reached stored := long reached stored
  only_wrapper _ stored := wf.only_wrapper stored

namespace Orderly

theorem owner?_root (orderly : a.Orderly) : a.owner? a.root = none := by
  obtain ⟨n, stored, free⟩ := orderly.top
  exact (owner?_of_get? stored).trans free

/-! ### Ways up -/

theorem exists_ascends (orderly : a.Orderly) (reached : a.Reachable h) :
    ∃ hs, a.Ascends h hs ∧ (h :: hs).getLast? = some a.root := by
  induction reached with
  | root =>
    obtain ⟨n, stored, free⟩ := orderly.top
    exact ⟨[], .top stored free, rfl⟩
  | child above stored member ih =>
    obtain ⟨hs, up, last⟩ := ih
    exact ⟨_, .up (orderly.records above stored _ member) up, last⟩

theorem isReachable_eq_ok (orderly : a.Orderly) (reached : a.Reachable h) :
    a.isReachable h = .ok true := by
  unfold isReachable
  by_cases same : h = a.root
  · rw [if_pos same]
    rfl
  rw [if_neg same]
  obtain ⟨hs, up, last⟩ := orderly.exists_ascends reached
  rw [up.ancestors_eq_ok, ok_bind]
  cases hs with
  | nil => exact absurd (Option.some.inj last) same
  | cons p hs =>
    rw [List.getLast?_cons_cons] at last
    rw [last, decide_eq_true rfl]
    rfl

/-- What a reachable element records is reachable, and holds it. -/
theorem owner (orderly : a.Orderly) (reached : a.Reachable h) (owned : a.owner? h = some p) :
    a.Reachable p ∧ ∃ n, a.get? p = some n ∧ h ∈ n.element.children := by
  cases reached with
  | root =>
    rw [orderly.owner?_root] at owned
    cases owned
  | child above stored member =>
    cases (orderly.records above stored h member).symm.trans owned
    exact ⟨above, _, stored, member⟩

theorem reachable_above (orderly : a.Orderly) (reached : a.Reachable x) (above : a.IsAbove h x) :
    a.Reachable h := by
  induction above with
  | single owned => exact (orderly.owner reached owned).1
  | tail _ owned ih => exact ih (orderly.owner reached owned).1

/-! ### The way down -/

/-- Below a reachable element everything is listed once. The way up grows by one element with every
step down, so the walk does not run out of depth before it runs out of places. -/
theorem descend_eq_ok (orderly : a.Orderly) {d : Nat} (reached : a.Reachable h) (up : a.Ascends h hs)
    (enough : a.places.size < d + hs.length) :
    ∃ xs, a.descend d h = .ok xs ∧ xs.Nodup ∧
      ∀ x, x ∈ xs ↔ a.Reachable x ∧ (x = h ∨ a.IsAbove h x) := by
  induction d generalizing h hs with
  | zero =>
    have bound := up.length_lt
    omega
  | succ d ih =>
    obtain ⟨n, stored⟩ := orderly.stored reached
    have owned := orderly.records reached stored
    have total : ∀ c ∈ n.element.children, ∃ xs, a.descend d c = .ok xs ∧ xs.Nodup ∧
        ∀ x, x ∈ xs ↔ a.Reachable x ∧ (x = c ∨ a.IsAbove c x) := by
      intro c member
      refine ih (reached.child stored member) (.up (owned c member) up) ?_
      rw [List.length_cons]
      omega
    choose! parts read nodup holds using total
    have below : ∀ x, x ∈ n.element.children.flatMap parts ↔ a.Reachable x ∧ a.IsAbove h x := by
      intro x
      rw [List.mem_flatMap]
      constructor
      · rintro ⟨c, member, inside⟩
        obtain ⟨reached', rfl | above⟩ := (holds c member x).mp inside
        · exact ⟨reached', isAbove_of_owner? (owned x member)⟩
        · exact ⟨reached', (isAbove_of_owner? (owned c member)).trans above⟩
      · rintro ⟨reached', above⟩
        obtain ⟨c, owned', rest⟩ := Relation.TransGen.head'_iff.mp above
        have inside := Relation.reflTransGen_iff_eq_or_transGen.mp rest
        have between : a.Reachable c := by
          rcases inside with rfl | above
          · exact reached'
          · exact orderly.reachable_above reached' above
        obtain ⟨_, m, stored', member⟩ := orderly.owner between owned'
        cases stored.symm.trans stored'
        exact ⟨c, member, (holds c member x).mpr ⟨reached', inside⟩⟩
    refine ⟨h :: n.element.children.flatMap parts, ?_, ?_, fun x => ?_⟩
    · unfold descend
      rw [children_of_get? stored, ok_bind, mapM_eq_map read, List.flatMap_def]
      rfl
    · exact nodup_parts up.not_isAbove (orderly.distinct reached stored) owned nodup
        fun c member x inside => ((holds c member x).mp inside).2
    · rw [List.mem_cons, below]
      constructor
      · rintro (rfl | ⟨reached', above⟩)
        · exact ⟨reached, .inl rfl⟩
        · exact ⟨reached', .inr above⟩
      · rintro ⟨reached', same | above⟩
        · exact .inl same
        · exact .inr ⟨reached', above⟩

theorem eq_or_isAbove (orderly : a.Orderly) (reached : a.Reachable h) :
    h = a.root ∨ a.IsAbove a.root h := by
  induction reached with
  | root => exact .inl rfl
  | child above stored member ih =>
    have owned := isAbove_of_owner? (orderly.records above stored _ member)
    rcases ih with same | above
    · exact .inr (same ▸ owned)
    · exact .inr (above.trans owned)

/-- The pre-order of the root is the expression, every element of it once. -/
theorem preOrder_eq_ok (orderly : a.Orderly) :
    ∃ xs, a.preOrder a.root = .ok xs ∧ xs.Nodup ∧ ∀ x, x ∈ xs ↔ a.Reachable x := by
  obtain ⟨n, stored, free⟩ := orderly.top
  obtain ⟨xs, read, nodup, holds⟩ := orderly.descend_eq_ok (d := a.reach) .root (.top stored free)
    (Nat.lt_succ_self _)
  exact ⟨xs, read, nodup, fun x => (holds x).trans (and_iff_left_of_imp orderly.eq_or_isAbove)⟩

end Orderly

end AlgebraEditor.Arena
