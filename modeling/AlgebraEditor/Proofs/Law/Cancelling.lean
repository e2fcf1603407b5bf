import AlgebraEditor.Proofs.Arena.Normalizing
import AlgebraEditor.Proofs.Law.Inverse
import Mathlib.Order.Bounds.Basic

/-!
# Cancelling out

Two terms of a sum cancel out exactly if one of them is the negation of an equal of the other. They
are removed, and what is selected is the first term beside one of them that stays.
-/

namespace AlgebraEditor

namespace Law

open Arena

variable {a b : Arena} {p q x y z : Handle} {i j k : Nat} {cs hs : List Handle}

/-! ### Neighbors -/

/-- The positions in a list that stand beside one of two positions, without these. -/
def neighbors (length i j : Nat) : Set Nat :=
  {k | k < length ∧ k ≠ i ∧ k ≠ j ∧ (k + 1 = i ∨ k = i + 1 ∨ k + 1 = j ∨ k = j + 1)}

/-- Two different positions have no neighbors only if there are no others. -/
theorem neighbors_eq_empty_iff {length : Nat} (order : i < j) (inside : j < length) :
    neighbors length i j = ∅ ↔ length = 2 := by
  rw [Set.eq_empty_iff_forall_notMem]
  constructor
  · intro none
    by_contra other
    -- the position in front of both, or the one behind the first, or the one behind both
    have front : ¬ 0 < i := fun later => none (i - 1) ⟨by omega, by omega⟩
    have between : ¬ i + 1 < j := fun apart => none (i + 1) ⟨by omega, by omega⟩
    have behind : ¬ j + 1 < length := fun more => none (j + 1) ⟨by omega, by omega⟩
    omega
  · rintro rfl k ⟨short, notFirst, notSecond, -⟩
    omega

theorem mem_besides : k ∈ besides i ↔ k + 1 = i ∨ k = i + 1 := by
  cases i with
  | zero => simp [besides]
  | succ i => simp [besides]

section

variable (nodup : cs.Nodup) (first : cs[i]? = some x) (second : cs[j]? = some y)

include nodup

theorem position_unique (found : cs[k]? = some z) (first : cs[i]? = some x) : z = x ↔ k = i := by
  constructor
  · rintro rfl
    have short := (List.getElem?_eq_some_iff.mp found).1
    exact (List.getElem?_inj short nodup).mp (found.trans first.symm)
  · rintro rfl
    exact Option.some.inj (found.symm.trans first)

include first second

/-- The neighbor is read off at the least of the neighboring positions. -/
theorem exists_lowestNeighbor?_eq (listed : hs = [x, y] ∨ hs = [y, x]) :
    ∃ ks : List Nat, (∀ k, k ∈ ks ↔ k ∈ neighbors cs.length i j) ∧
      lowestNeighbor? cs hs = ks.min?.bind (cs[·]?) := by
  refine ⟨_, fun k => ?_, rfl⟩
  have positions : ∀ k, k ∈ (hs.filterMap (cs.idxOf? ·)).flatMap besides ↔
      k + 1 = i ∨ k = i + 1 ∨ k + 1 = j ∨ k = j + 1 := by
    intro k
    obtain ⟨short, rfl⟩ := List.getElem?_eq_some_iff.mp first
    obtain ⟨short', rfl⟩ := List.getElem?_eq_some_iff.mp second
    have one := idxOf?_getElem nodup short
    have other := idxOf?_getElem nodup short'
    rcases listed with rfl | rfl
    · simp [one, other, mem_besides, or_assoc]
    · simp [one, other, mem_besides, or_comm, or_left_comm]
  have stays : ((cs[k]?).any (!hs.contains ·)) = true ↔ k < cs.length ∧ k ≠ i ∧ k ≠ j := by
    cases found : cs[k]? with
    | none => simpa using fun short => absurd (List.getElem?_eq_none_iff.mp found) (by omega)
    | some z =>
      have short := (List.getElem?_eq_some_iff.mp found).1
      have isFirst := position_unique nodup found first
      have isSecond := position_unique nodup found second
      rcases listed with rfl | rfl <;> simp [short, isFirst, isSecond, and_comm]
  rw [List.mem_filter, positions, stays]
  exact ⟨fun ⟨beside, short, notFirst, notSecond⟩ => ⟨short, notFirst, notSecond, beside⟩,
    fun ⟨short, notFirst, notSecond, beside⟩ => ⟨beside, short, notFirst, notSecond⟩⟩

/-- There is no neighbor if the two are alone, and else it stands at the least of the neighboring
positions. -/
theorem lowestNeighbor?_cases (order : i < j) (listed : hs = [x, y] ∨ hs = [y, x]) :
    (cs.length = 2 ∧ lowestNeighbor? cs hs = none) ∨
      ∃ k z, cs.length ≠ 2 ∧ IsLeast (neighbors cs.length i j) k ∧ cs[k]? = some z ∧
        lowestNeighbor? cs hs = some z := by
  obtain ⟨ks, members, same⟩ := exists_lowestNeighbor?_eq nodup first second listed
  have alone := neighbors_eq_empty_iff order (List.getElem?_eq_some_iff.mp second).1
  cases least : ks.min? with
  | none =>
    rw [List.min?_eq_none_iff] at least
    rw [same, least]
    refine .inl ⟨alone.mp (Set.eq_empty_iff_forall_notMem.mpr fun k inside => ?_), rfl⟩
    have listed := (members k).mpr inside
    rw [least] at listed
    cases listed
  | some k =>
    obtain ⟨inside, below⟩ := List.min?_eq_some_iff.mp least
    have member := (members k).mp inside
    have short : k < cs.length := member.1
    have isLeast : IsLeast (neighbors cs.length i j) k :=
      ⟨member, fun k' other => below k' ((members k').mpr other)⟩
    refine .inr ⟨k, cs[k], fun two => ?_, isLeast, List.getElem?_eq_getElem short, ?_⟩
    · rw [alone.mpr two] at member
      exact member
    · rw [same, least, Option.bind_some, List.getElem?_eq_getElem short]

end

/-! ### Runs -/

section

variable (wf : a.WellFormed) (stored : a.get? p = some ⟨some q, .sum cs⟩)

include wf stored

/-- Terms of an owned sum are compared, and removed if they are opposite. -/
theorem run_cancel_pair (inside : x ∈ cs) (inside' : y ∈ cs) :
    (¬ Opposite a x y → (cancel p [x, y]).run a = .ok none a) ∧
    (Opposite a x y → ∀ {r b}, (Edit.removeChildren p [x, y]).run a = .ok r b →
      (cancel p [x, y]).run a = .ok (some (lowestNeighbor? cs [x, y]).toList) b) := by
  obtain ⟨n, held⟩ := wf.stored_of_mem_children stored inside
  obtain ⟨m, held'⟩ := wf.stored_of_mem_children stored inside'
  obtain ⟨found, compared, opposite⟩ := areOpposite_total wf held held'
  have kind : a.kind p = .ok .sum := kind_of_get? stored
  have parent : a.parent p = .ok (some q) := parent_eq_ok.mpr ⟨_, stored, rfl⟩
  have children : a.children p = .ok cs := children_of_get? stored
  unfold cancel
  dsimp only
  rw [Edit.kindOf, Edit.run_bind_of_ok (Edit.run_inspect_of_ok kind), if_neg (not_not.mpr rfl),
    Edit.parentOf, Edit.run_bind_of_ok (Edit.run_inspect_of_ok parent)]
  simp only [Option.isNone_some, Bool.false_eq_true, if_false]
  rw [Edit.run_bind_of_ok (Edit.run_inspect_of_ok compared)]
  constructor
  · intro other
    rw [Bool.eq_false_iff.mpr (mt opposite.mp other)]
    rfl
  · intro same r b removed
    rw [opposite.mpr same]
    simp only [Bool.not_true, Bool.false_eq_true, if_false]
    rw [Edit.childrenOf, Edit.run_bind_of_ok (Edit.run_inspect_of_ok children),
      Edit.run_bind_of_ok removed]
    rfl

/-- It does not matter in which order the terms are given. -/
theorem run_cancel (inside : x ∈ cs) (inside' : y ∈ cs) (listed : hs = [x, y] ∨ hs = [y, x]) :
    (¬ Opposite a x y → (cancel p hs).run a = .ok none a) ∧
    (Opposite a x y → ∀ {r b}, (Edit.removeChildren p hs).run a = .ok r b →
      (cancel p hs).run a = .ok (some (lowestNeighbor? cs hs).toList) b) := by
  rcases listed with rfl | rfl
  · exact run_cancel_pair wf stored inside inside'
  · obtain ⟨nothing, something⟩ := run_cancel_pair wf stored inside' inside
    exact ⟨fun other => nothing fun opposite => other opposite.symm,
      fun opposite => something opposite.symm⟩

variable (first : cs[i]? = some x) (second : cs[j]? = some y) (order : i < j)
  (listed : hs = [x, y] ∨ hs = [y, x])

include first second order listed

theorem distinct_listed : hs.Nodup ∧ ∀ z ∈ hs, z ∈ cs := by
  have different : x ≠ y := by
    rintro rfl
    exact Nat.ne_of_lt order ((position_unique (wf.distinct stored) first second).mp rfl)
  have inside := List.mem_of_getElem? first
  have inside' := List.mem_of_getElem? second
  rcases listed with rfl | rfl <;> simp [different, Ne.symm different, inside, inside']

/-- What stood at a neighboring position is left of the sum, and stays in the expression. -/
theorem neighbor_stays {r : Handle} (removed : a.Removed p q (.sum cs) hs r b)
    (beside : k ∈ neighbors cs.length i j) (found : cs[k]? = some z) :
    b.IsAbove q z ∧ (a.Reachable p → b.Reachable z) := by
  have nodup : cs.Nodup := wf.distinct stored
  obtain ⟨-, notFirst, notSecond, -⟩ := beside
  have outside : z ∉ hs := by
    have one := mt (position_unique nodup found first).mp notFirst
    have other := mt (position_unique nodup found second).mp notSecond
    rcases listed with rfl | rfl <;> simp [one, other]
  have above := removed.isAbove_left wf stored rfl
    (Element.mem_remaining.mpr ⟨List.mem_of_getElem? found, outside⟩)
  obtain ⟨-, inside⟩ := distinct_listed wf stored first second order listed
  exact ⟨above, fun reached =>
    (removed.reachable_owner wf stored inside reached).down removed.wf above⟩

end

/-- Two terms of an owned sum cancel out, in whichever order they are given, exactly if one of them
is the negation of an equal of the other. They are removed from the sum, and what is answered with
is the first of the other terms that stand beside one of them. It stays where the sum was, and in
the expression. There is none exactly if the sum has no other terms. -/
theorem cancel_removes_opposites (wf : a.WellFormed) (stored : a.get? p = some ⟨some q, .sum cs⟩)
    (first : cs[i]? = some x) (second : cs[j]? = some y) (order : i < j)
    (listed : hs = [x, y] ∨ hs = [y, x]) :
    ((∃ rs b, (cancel p hs).run a = .ok (some rs) b) ↔ Opposite a x y) ∧
    (¬ Opposite a x y → (cancel p hs).run a = .ok none a) ∧
    (Opposite a x y → ∃ rs r b, (cancel p hs).run a = .ok (some rs) b ∧
      a.Removed p q (.sum cs) hs r b ∧ (rs = [] ↔ cs.length = 2) ∧
      (cs.length ≠ 2 → ∃ k z, rs = [z] ∧ IsLeast (neighbors cs.length i j) k ∧ cs[k]? = some z ∧
        b.IsAbove q z ∧ (a.Reachable p → b.Reachable z))) := by
  obtain ⟨nothing, something⟩ := run_cancel wf stored (List.mem_of_getElem? first)
    (List.mem_of_getElem? second) listed
  obtain ⟨nodup, inside⟩ := distinct_listed wf stored first second order listed
  obtain ⟨r, b, run, removed⟩ := Edit.exists_removed wf stored rfl nodup inside
  refine ⟨⟨?_, fun opposite => ⟨_, b, something opposite run⟩⟩, nothing, fun opposite => ?_⟩
  · rintro ⟨rs, b', run'⟩
    by_contra other
    cases run'.symm.trans (nothing other)
  · have cancelled := something opposite run
    have distinct : cs.Nodup := wf.distinct stored
    rcases lowestNeighbor?_cases distinct first second order listed with
      ⟨two, none⟩ | ⟨k, z, more, least, found, neighbor⟩
    · rw [none] at cancelled
      exact ⟨[], r, b, cancelled, removed, iff_of_true rfl two, absurd two⟩
    · rw [neighbor] at cancelled
      have stays := neighbor_stays wf stored first second order listed removed least.1 found
      exact ⟨[z], r, b, cancelled, removed, iff_of_false nofun more,
        fun _ => ⟨k, z, rfl, least, found, stays⟩⟩

/-- In the sum `a - b + c + b`, which is subtracted, `b` and `-b` cancel out although they stand
apart. What is left is `a + c`, and `a` is selected. -/
theorem cancel_removes_opposites_of_apart : ∃ a : Arena, a.WellFormed ∧
    a.get? ⟨3⟩ = some ⟨some ⟨2⟩, .sum [⟨4⟩, ⟨5⟩, ⟨7⟩, ⟨8⟩]⟩ ∧ ∃ b,
      (cancel ⟨3⟩ [⟨8⟩, ⟨5⟩]).run a = .ok (some [⟨4⟩]) b ∧
      b.get? ⟨3⟩ = some ⟨some ⟨2⟩, .sum [⟨4⟩, ⟨7⟩]⟩ := by
  obtain ⟨a, same⟩ : ∃ a, a = zero.plant (.negation (.sum [.symbol "a", .negation (.symbol "b"),
    .symbol "c", .symbol "b"])) := ⟨_, rfl⟩
  have wf : a.WellFormed := by rw [same]; exact wellFormed_zero.plant (by decide)
  have stored : a.get? ⟨3⟩ = some ⟨some ⟨2⟩, .sum [⟨4⟩, ⟨5⟩, ⟨7⟩, ⟨8⟩]⟩ := by rw [same]; rfl
  have negates : Negates a ⟨5⟩ ⟨8⟩ := by
    rw [same]
    exact ⟨⟨some ⟨3⟩, .negation ⟨6⟩⟩, ⟨6⟩, rfl, rfl, rfl⟩
  obtain ⟨_, _, cancels⟩ :=
    cancel_removes_opposites (i := 1) (j := 3) wf stored rfl rfl (by decide) (.inr rfl)
  obtain ⟨_, r, b, run, removed, _, more⟩ := cancels (.inl negates)
  obtain ⟨k, z, rfl, least, found, _⟩ := more (by decide)
  obtain rfl : k = 0 := Nat.le_zero.mp (least.2 (show 0 ∈ neighbors 4 1 3 by simp [neighbors]))
  cases found
  exact ⟨a, wf, stored, b, run, (removed.long (by decide)).2⟩

end Law

end AlgebraEditor
