import AlgebraEditor.Proofs.Arena.Holding
import AlgebraEditor.Proofs.Selection.Moving

/-!
# Starting to grow afresh

While growing is active, other moves may come between two of its steps. The next step then starts
from the selection it finds, as newly begun growing would, unless the moves have come back to the
very elements that growing selected last: the old anchor counts again for them, and a step towards
it makes the selection smaller instead of larger.
-/

namespace AlgebraEditor

open Arena

/-! ### The children between two positions -/

namespace Grow

variable {xs before after : List Handle} {x : Handle} {i k : Nat}

theorem length_between (first : i < xs.length) (second : k < xs.length) :
    (between xs i k).length = max i k - min i k + 1 := by
  rw [between, List.length_take, List.length_drop]
  omega

theorem getElem?_between (xs : List Handle) (i k m : Nat) :
    (between xs i k)[m]? = if m ≤ max i k - min i k then xs[min i k + m]? else none := by
  rw [between, List.getElem?_take, List.getElem?_drop]
  simp only [Nat.lt_succ_iff]

theorem between_sublist (xs : List Handle) (i k : Nat) : (between xs i k).Sublist xs :=
  (List.take_sublist _ _).trans (List.drop_sublist _ _)

theorem between_comm (xs : List Handle) (i k : Nat) : between xs i k = between xs k i := by
  rw [between, between, Nat.min_comm, Nat.max_comm]

theorem between_append (xs : List Handle) :
    between (before ++ x :: xs ++ after) before.length (before.length + xs.length) = x :: xs := by
  have low : min before.length (before.length + xs.length) = before.length := by omega
  have high : max before.length (before.length + xs.length) = before.length + xs.length := by omega
  rw [between, low, high, List.append_assoc, List.drop_left, Nat.add_sub_cancel_left]
  exact List.take_left' rfl

end Grow

namespace Selection

theorem eq_of_toList {s t : Selection} (same : s.toList = t.toList) : s = t := by
  cases s
  cases t
  cases same
  rfl

theorem getElem?_toList_last (s : Selection) : s.toList[s.rest.length]? = some s.last := by
  obtain ⟨first, rest⟩ := s
  rw [toList, last, List.getLastD_eq_getLast?, ← List.getLast?_cons, List.getLast?_eq_getElem?]
  rfl

end Selection

namespace Grow

open Selection

variable {a : Arena} {g g' : Grow} {s s' start : Selection} {made : Option Selection}
  {d : Direction} {p x anchor moving : Handle} {hs cs : List Handle} {i j k : Nat}

/-! ### Spans -/

/-- The elements are those between two children of an element of the expression. -/
def Spans (a : Arena) (hs : List Handle) (anchor moving : Handle) : Prop :=
  ∃ p cs i k, a.Holds p cs ∧ cs[i]? = some anchor ∧ cs[k]? = some moving ∧ hs = between cs i k

theorem Spans.mem (spans : Spans a hs anchor moving) : anchor ∈ hs := by
  obtain ⟨p, cs, i, k, holds, first, second, rfl⟩ := spans
  by_cases low : i ≤ k
  · refine List.mem_of_getElem? (i := 0) ?_
    rw [getElem?_between, if_pos (Nat.zero_le _), Nat.min_eq_left low]
    exact first
  · refine List.mem_of_getElem? (i := i - k) ?_
    rw [getElem?_between, if_pos (by omega), show min i k + (i - k) = i by omega]
    exact first

/-- The ends of a selection stand at the ends of a span. -/
theorem ends_of_between (first : i < cs.length) (second : k < cs.length)
    (selected : s.toList = between cs i k) :
    cs[min i k]? = some s.first ∧ cs[max i k]? = some s.last := by
  have length := length_between first second
  rw [← selected, toList, List.length_cons] at length
  have front : s.toList[0]? = some s.first := rfl
  have back := s.getElem?_toList_last
  rw [selected, getElem?_between, if_pos (by omega)] at front back
  rw [show min i k + s.rest.length = max i k by omega] at back
  exact ⟨front, back⟩

/-- A selection is a span from either end, unless it is the root. -/
theorem spans_of_valid (wf : a.WellFormed) (valid : s.Valid a) :
    a.owner? s.first = none ∧ s.rest = [] ∨ 
      Spans a s.toList s.first s.last ∧ Spans a s.toList s.last s.first := by
  have span : ∀ {p cs i k}, a.Holds p cs → i ≤ k → k < cs.length → s.toList = between cs i k →
      Spans a s.toList s.first s.last ∧ Spans a s.toList s.last s.first := by
    intro p cs i k holds low inside selected
    obtain ⟨front, back⟩ := ends_of_between (by omega) inside selected
    rw [Nat.min_eq_left low] at front
    rw [Nat.max_eq_right low] at back
    exact ⟨⟨p, cs, i, k, holds, front, back, selected⟩,
      ⟨p, cs, k, i, holds, back, front, selected.trans (between_comm cs i k)⟩⟩
  cases valid with
  | @single h reached =>
    cases owned : a.owner? h with
    | none => exact .inl ⟨owned, rfl⟩
    | some p =>
      obtain ⟨before, after, holds⟩ := reached.held wf owned
      refine .inr (span (i := before.length) (k := before.length) holds le_rfl (by simp) ?_)
      rw [← List.singleton_append, ← List.append_assoc]
      exact (between_append []).symm
  | @run p first second n before rest after reached stored children other =>
    refine .inr (span (i := before.length) (k := before.length + (second :: rest).length)
      ⟨reached, n, stored, children⟩ (Nat.le_add_right _ _)
      (by simp only [List.length_append, List.length_cons]; omega) ?_)
    exact (between_append (second :: rest)).symm

/-! ### One step -/

theorem step_inside (inside : k < cs.length) (next : d.step k cs.length = some j) :
    j < cs.length ∧ (j = k + 1 ∨ k = j + 1) := by
  cases d with
  | previous =>
    cases k with
    | zero => cases next
    | succ k =>
      cases next
      exact ⟨by omega, .inr rfl⟩
  | next =>
    rw [Direction.step] at next
    split at next
    · cases next
      exact ⟨‹_›, .inl rfl⟩
    · cases next

theorem sibling?_eq (wf : a.WellFormed) (holds : a.Holds p cs) (found : cs[k]? = some moving)
    (d : Direction) : sibling? a moving d = .ok ((d.step k cs.length).bind (cs[·]?)) := by
  obtain ⟨n, stored, rfl⟩ := holds.children
  obtain ⟨inside, rfl⟩ := List.getElem?_eq_some_iff.mp found
  unfold sibling?
  rw [parent_eq_some.mpr (wf.records stored _ (List.getElem_mem inside)), ok_bind]
  dsimp only
  rw [children_of_get? stored, ok_bind, idxOf?_getElem (wf.distinct stored) inside]
  rfl

/-- The run between two of several positions takes up all of them. -/
def Covers (count i k : Nat) : Prop := 1 < count ∧ max i k - min i k + 1 = count

instance (count i k : Nat) : Decidable (Covers count i k) := inferInstanceAs (Decidable (_ ∧ _))

/-- What stands between two children is selected, and all of several children as their parent. -/
theorem resolve_span (wf : a.WellFormed) (holds : a.Holds p cs) (first : i < cs.length)
    (second : k < cs.length) : ∃ s', (resolve a (between cs i k)).run = .ok (.ok s') ∧
      s'.Valid a ∧ (Covers cs.length i k → s' = single p) ∧
      (¬ Covers cs.length i k → s'.toList = between cs i k) := by
  obtain ⟨n, stored, rfl⟩ := holds.children
  obtain ⟨before, after, whole, other⟩ := between_run n.element.children first second
  have part := between_sublist n.element.children i k
  have length := length_between first second
  have total := congrArg List.length whole
  unfold Covers
  rw [← length]
  cases selected : between n.element.children i k with
  | nil => exact absurd selected other
  | cons h rest =>
    rw [selected] at whole part total
    rw [List.length_append, List.length_append] at total
    cases rest with
    | nil =>
      have reached := holds.reachable (part.subset List.mem_cons_self)
      refine ⟨Selection.single h, resolve_single wf reached, .single reached, fun covers => ?_,
        fun _ => rfl⟩
      have one : 1 = n.element.children.length := covers.2
      have several := covers.1
      omega
    | cons second rest =>
      refine ⟨_, resolve_run wf holds.reached stored whole, ?_⟩
      split
      case isTrue all =>
        obtain ⟨rfl, rfl⟩ := List.append_eq_nil_iff.mp all
        refine ⟨.single holds.reached, fun _ => rfl, fun apart => absurd ⟨?_, ?_⟩ apart⟩
        · simp only [List.length_nil, List.length_cons] at total
          omega
        · simp only [List.length_nil] at total
          omega
      case isFalse apart =>
        refine ⟨.run holds.reached stored whole apart, fun covers => absurd ?_ apart, fun _ => rfl⟩
        rw [← List.length_eq_zero_iff, List.length_append]
        omega

/-- What stands between two children can be selected. All of them together are their parent. -/
theorem resolve_between (wf : a.WellFormed) (holds : a.Holds p cs) (first : i < cs.length)
    (second : k < cs.length) : ∃ s', (resolve a (between cs i k)).run = .ok (.ok s') ∧
      s'.Valid a ∧ (s'.toList = between cs i k ∨ s' = single p ∧ (between cs i k).length = cs.length) := by
  obtain ⟨s', resolved, valid, whole, part⟩ := resolve_span wf holds first second
  refine ⟨s', resolved, valid, ?_⟩
  by_cases covers : Covers cs.length i k
  · exact .inr ⟨whole covers, (length_between first second).trans covers.2⟩
  · exact .inl (part covers)

theorem run_step_of_none (active : g.active = true)
    (ends : g.ends s d = (anchor, moving)) (alone : sibling? a moving d = .ok none) :
    (g.step s a d).run = .ok (.ok (g, s)) := by
  unfold step
  rw [active, ends]
  simp only [Bool.not_true, Bool.false_eq_true, if_false]
  rw [Select.run_lift_bind alone]
  rfl

/-- A step selects what stands between the anchor and the next position of the moving end. -/
theorem run_step_of_some (wf : a.WellFormed) (active : g.active = true)
    (ends : g.ends s d = (anchor, moving)) (holds : a.Holds p cs) (first : cs[i]? = some anchor)
    (second : cs[k]? = some moving) (next : d.step k cs.length = some j) (found : cs[j]? = some x)
    (resolved : (resolve a (between cs i j)).run = .ok (.ok s')) :
    (g.step s a d).run = .ok (.ok ({ g with run := some ⟨anchor, x, s'.toList⟩ }, s')) := by
  have sibling := sibling?_eq wf holds second d
  obtain ⟨n, stored, rfl⟩ := holds.children
  obtain ⟨inside, rfl⟩ := List.getElem?_eq_some_iff.mp first
  obtain ⟨inside', rfl⟩ := List.getElem?_eq_some_iff.mp found
  rw [next, Option.bind_some, found] at sibling
  unfold step
  rw [active, ends]
  simp only [Bool.not_true, Bool.false_eq_true, if_false]
  rw [Select.run_lift_bind sibling]
  dsimp only
  rw [Select.run_lift_bind (parent_eq_some.mpr (wf.records stored _ (List.getElem_mem inside')))]
  dsimp only
  rw [Select.run_lift_bind (children_of_get? stored), idxOf?_getElem (wf.distinct stored) inside,
    idxOf?_getElem (wf.distinct stored) inside']
  dsimp only
  rw [Select.run_bind_of_ok resolved]
  rfl

/-- No span is the element that holds it. -/
theorem single_ne_between (wf : a.WellFormed) (holds : a.Holds p cs) (i k : Nat) :
    [p] ≠ between cs i k := fun same => by
  have member := (between_sublist cs i k).subset (same ▸ List.mem_singleton_self p)
  exact wf.irrefl (holds.owner? wf member) rfl

theorem between_ne (first : i < cs.length) (second : k < cs.length)
    (next : d.step k cs.length = some j) : between cs i j ≠ between cs i k := fun same => by
  obtain ⟨inside, beside⟩ := step_inside second next
  have length := congrArg List.length same
  rw [length_between first inside, length_between first second] at length
  omega

/-! ### What growing remembers -/

/-- While growing is active, the remembered run is the one that the last growing step selected, and
its ends are those of a span. Where the whole span was selected as one element, the anchor is not
selected. -/
structure Remembers (a : Arena) (g : Grow) (s : Selection) (made : Option Selection) : Prop where
  active : g.active = true
  valid : s.Valid a
  made : g.run.map GrownRun.selected = made.map Selection.toList
  spans : ∀ r, g.run = some r → Spans a r.selected r.anchor r.moving ∨
    r.anchor ∉ r.selected ∧ ∃ p, r.selected = [p]

theorem remembers_begin (valid : s.Valid a) : Remembers a inactive.begin s none where
  active := rfl
  valid := valid
  made := rfl
  spans := nofun

/-- The ends of the next step are those of the selected span, and one element if the root is
selected. -/
theorem Remembers.ends (remembers : Remembers a g s made) (wf : a.WellFormed) (d : Direction) :
    Spans a s.toList (g.ends s d).1 (g.ends s d).2 ∨
      a.owner? s.first = none ∧ g.ends s d = (s.first, s.first) := by
  have fresh : Spans a s.toList (inactive.ends s d).1 (inactive.ends s d).2 ∨
      a.owner? s.first = none ∧ inactive.ends s d = (s.first, s.first) := by
    rcases spans_of_valid wf remembers.valid with ⟨free, alone⟩ | ⟨span, span'⟩
    · have same : s.last = s.first := by rw [last, alone]; rfl
      refine .inr ⟨free, ?_⟩
      cases d with
      | previous => exact congrArg (·, s.first) same
      | next => exact congrArg (s.first, ·) same
    · cases d with
      | previous => exact .inl span'
      | next => exact .inl span
  unfold Grow.ends
  cases grown : g.run with
  | none => exact fresh
  | some r =>
    dsimp only
    split
    case isTrue kept =>
      obtain ⟨same, member⟩ := kept
      rcases remembers.spans r grown with span | ⟨outside, -⟩
      · exact .inl (same ▸ span)
      · exact absurd member outside
    case isFalse => exact fresh

/-- The root has no sibling to grow to. -/
theorem sibling?_of_free (valid : s.Valid a) (wf : a.WellFormed) (free : a.owner? s.first = none)
    (d : Direction) : sibling? a s.first d = .ok none := by
  obtain ⟨n, stored⟩ := (valid.reached s.first List.mem_cons_self).stored wf
  unfold sibling?
  rw [parent_of_get? stored, free, ok_bind]
  rfl

/-- A step stays where it is, or selects another run of children and remembers its ends. -/
theorem Remembers.run_step (remembers : Remembers a g s made) (wf : a.WellFormed) (d : Direction) :
    (g.step s a d).run = .ok (.ok (g, s)) ∨
      ∃ r s', (g.step s a d).run = .ok (.ok ({ g with run := some r }, s')) ∧ s' ≠ s ∧ s'.Valid a ∧
        r.selected = s'.toList ∧ (Spans a r.selected r.anchor r.moving ∨
          r.anchor ∉ r.selected ∧ ∃ p, r.selected = [p]) := by
  rcases remembers.ends wf d with ⟨p, cs, i, k, holds, first, second, selected⟩ | ⟨free, same⟩
  · have sibling := sibling?_eq wf holds second d
    obtain ⟨inside, -⟩ := List.getElem?_eq_some_iff.mp first
    obtain ⟨inside', -⟩ := List.getElem?_eq_some_iff.mp second
    cases next : d.step k cs.length with
    | none =>
      rw [next] at sibling
      exact .inl (run_step_of_none remembers.active rfl sibling)
    | some j =>
      obtain ⟨inside'', -⟩ := step_inside inside' next
      obtain ⟨s', resolved, valid, covers⟩ := resolve_between wf holds inside inside''
      have found := List.getElem?_eq_getElem inside''
      have stepped :=
        run_step_of_some wf remembers.active rfl holds first second next found resolved
      refine .inr ⟨_, s', stepped, ?_, valid, rfl, ?_⟩
      · rintro rfl
        rcases covers with same | ⟨rfl, -⟩
        · exact between_ne inside inside' next (same.symm.trans selected)
        · exact single_ne_between wf holds i k selected
      · rcases covers with same | ⟨rfl, -⟩
        · exact .inl ⟨p, cs, i, j, holds, first, found, same⟩
        · refine .inr ⟨fun member => ?_, p, rfl⟩
          have above := List.mem_singleton.mp member
          exact wf.irrefl (holds.owner? wf (List.mem_of_getElem? first)) above
  · exact .inl (run_step_of_none remembers.active same (sibling?_of_free remembers.valid wf free d))

theorem Remembers.step (remembers : Remembers a g s made) (wf : a.WellFormed)
    (stepped : (g.step s a d).run = .ok (.ok (g', s'))) :
    Remembers a g' s' (if s' = s then made else some s') := by
  rcases remembers.run_step wf d with stays | ⟨r, s₁, moves, other, valid, same, spans⟩
  · cases stays.symm.trans stepped
    rw [if_pos rfl]
    exact remembers
  · cases moves.symm.trans stepped
    rw [if_neg other]
    refine ⟨remembers.active, valid, congrArg some same, ?_⟩
    rintro _ ⟨⟩
    exact spans

/-- With the ends that newly begun growing would have, a step selects what it would. -/
theorem Remembers.agrees (remembers : Remembers a g s made) (wf : a.WellFormed)
    (same : g.ends s d = inactive.begin.ends s d) : ∃ g₁ g₂ s',
      (g.step s a d).run = .ok (.ok (g₁, s')) ∧
      (inactive.begin.step s a d).run = .ok (.ok (g₂, s')) := by
  rcases remembers.ends wf d with ⟨p, cs, i, k, holds, first, second, selected⟩ | ⟨free, alone⟩
  · have sibling := sibling?_eq wf holds second d
    obtain ⟨inside, -⟩ := List.getElem?_eq_some_iff.mp first
    obtain ⟨inside', -⟩ := List.getElem?_eq_some_iff.mp second
    cases next : d.step k cs.length with
    | none =>
      rw [next] at sibling
      exact ⟨_, _, s, run_step_of_none remembers.active rfl sibling,
        run_step_of_none rfl same.symm sibling⟩
    | some j =>
      obtain ⟨inside'', -⟩ := step_inside inside' next
      obtain ⟨s', resolved, -, -⟩ := resolve_between wf holds inside inside''
      have found := List.getElem?_eq_getElem inside''
      exact ⟨_, _, s',
        run_step_of_some wf remembers.active rfl holds first second next found resolved,
        run_step_of_some wf rfl same.symm holds first second next found resolved⟩
  · have sibling := sibling?_of_free remembers.valid wf free d
    exact ⟨_, _, s, run_step_of_none remembers.active alone sibling,
      run_step_of_none rfl (same.symm.trans alone) sibling⟩

/-- Any other selection than the remembered one, and any single element, is a new start. -/
theorem Remembers.ends_fresh (remembers : Remembers a g s made)
    (other : made ≠ some s ∨ s.rest = []) (d : Direction) :
    g.ends s d = inactive.begin.ends s d := by
  have recorded := remembers.made
  unfold Grow.ends
  cases grown : g.run with
  | none => rfl
  | some r =>
    dsimp only
    split
    case isFalse => rfl
    case isTrue kept =>
      obtain ⟨same, member⟩ := kept
      rw [grown, Option.map_some, same] at recorded
      rcases other with different | alone
      · cases made with
        | none => cases recorded
        | some t => exact absurd (congrArg some (eq_of_toList (Option.some.inj recorded)).symm) different
      · rcases remembers.spans r grown with ⟨p, cs, i, k, holds, first, second, selected⟩ | ⟨out, -⟩
        · obtain ⟨inside, -⟩ := List.getElem?_eq_some_iff.mp first
          obtain ⟨inside', -⟩ := List.getElem?_eq_some_iff.mp second
          rw [same] at selected
          have length := length_between inside inside'
          rw [← selected, toList, alone, List.length_singleton] at length
          obtain ⟨front, back⟩ := ends_of_between inside inside' selected
          obtain rfl : i = k := by omega
          rw [Nat.min_self, first] at front
          rw [Nat.max_self, first] at back
          have one := Option.some.inj (second.symm.trans first)
          cases d with
          | previous => exact Prod.ext (Option.some.inj back) (one.trans (Option.some.inj front))
          | next => exact Prod.ext (Option.some.inj front) (one.trans (Option.some.inj back))
        · exact absurd member out

/-- The direction from the moving end of a run towards its anchor. Newly begun growing would take
the anchor for the moving end, and move it away from the other one. -/
theorem exists_towards (inside : i < cs.length) (inside' : k < cs.length) (other : i ≠ k)
    (first : cs[i]? = some anchor) (second : cs[k]? = some moving)
    (selected : s.toList = between cs i k) :
    ∃ d j, d.step k cs.length = some j ∧ max i j - min i j + 1 = max i k - min i k ∧
      inactive.begin.ends s d = (moving, anchor) ∧
      ∀ m, d.step i cs.length = some m → max k m - min k m = max i k - min i k + 1 := by
  obtain ⟨front, back⟩ := ends_of_between inside inside' selected
  by_cases low : i < k
  · rw [Nat.min_eq_left (by omega), first] at front
    rw [Nat.max_eq_right (by omega), second] at back
    cases front
    cases back
    refine ⟨.previous, k - 1, ?_, by omega, rfl, fun m next => ?_⟩
    · obtain ⟨k, rfl⟩ : ∃ m, k = m + 1 := ⟨k - 1, by omega⟩
      rfl
    · cases i with
      | zero => cases next
      | succ i =>
        cases next
        omega
  · rw [Nat.min_eq_right (by omega), second] at front
    rw [Nat.max_eq_left (by omega), first] at back
    cases front
    cases back
    refine ⟨.next, k + 1, ?_, by omega, rfl, fun m next => ?_⟩
    · rw [Direction.step, if_pos (by omega)]
    · rw [Direction.step] at next
      split at next
      · cases next
        omega
      · cases next

/-- Where the remembered run has several elements, a step towards its anchor leaves one of them out,
which no step of newly begun growing does. -/
theorem Remembers.differs (remembers : Remembers a g s (some s)) (wf : a.WellFormed)
    (more : s.rest ≠ []) : ∃ d g₁ g₂ s₁ s₂, (g.step s a d).run = .ok (.ok (g₁, s₁)) ∧
      (inactive.begin.step s a d).run = .ok (.ok (g₂, s₂)) ∧ s₁ ≠ s₂ := by
  obtain ⟨r, grown, same⟩ := Option.map_eq_some_iff.mp remembers.made
  rcases remembers.spans r grown with span | ⟨-, q, alone⟩
  · have member := span.mem
    obtain ⟨p, cs, i, k, holds, first, second, selected⟩ := span
    rw [same] at selected
    obtain ⟨inside, -⟩ := List.getElem?_eq_some_iff.mp first
    obtain ⟨inside', -⟩ := List.getElem?_eq_some_iff.mp second
    have length := length_between inside inside'
    have several : s.rest.length ≠ 0 := fun none => more (List.eq_nil_of_length_eq_zero none)
    rw [← selected, toList, List.length_cons] at length
    obtain ⟨d, j, next, nearer, fresh, farther⟩ :=
      exists_towards inside inside' (by omega) first second selected
    obtain ⟨near, -⟩ := step_inside inside' next
    obtain ⟨s₁, resolved, -, covers⟩ := resolve_between wf holds inside near
    have ends : g.ends s d = (r.anchor, r.moving) := by
      unfold Grow.ends
      rw [grown]
      dsimp only
      rw [if_pos ⟨same, member⟩]
    have stepped := run_step_of_some wf remembers.active ends holds first second next
      (List.getElem?_eq_getElem near) resolved
    have length' := length_between inside near
    -- the run gets shorter, so it does not hold all children
    have shorter : s₁.toList = between cs i j := by
      rcases covers with same | ⟨-, whole⟩
      · exact same
      · omega
    cases away : d.step i cs.length with
    | none =>
      have sibling := sibling?_eq wf holds first d
      rw [away] at sibling
      refine ⟨d, _, _, s₁, s, stepped, run_step_of_none rfl fresh sibling, ?_⟩
      rintro rfl
      rw [← shorter, selected, length_between inside inside'] at length'
      omega
    | some m =>
      obtain ⟨far, -⟩ := step_inside inside away
      obtain ⟨s₂, resolved', -, covers'⟩ := resolve_between wf holds inside' far
      refine ⟨d, _, _, s₁, s₂, stepped, run_step_of_some wf rfl fresh holds second first away
        (List.getElem?_eq_getElem far) resolved', ?_⟩
      rintro rfl
      rcases covers' with longer | ⟨rfl, -⟩
      · rw [← shorter, longer, length_between inside' far, farther m away] at length'
        omega
      · exact single_ne_between wf holds i j shorter
  · rw [same, toList] at alone
    exact absurd (List.cons.inj alone).2 more

end Grow

/-! ### Histories -/

/-- The moves of a selection. -/
inductive Selection.Move where
  | select (hs : List Handle)
  | child
  | parent
  | sibling (d : Direction)
  | outermostSibling (d : Direction)

/-- Makes the move. -/
def Selection.Move.run : Selection.Move → Selection → Arena → Select Selection
  | select hs, _, a => resolve a hs
  | child, s, a => s.toChild a
  | parent, s, a => s.toParent a
  | sibling d, s, a => s.toSibling a d
  | outermostSibling d, s, a => s.toOutermostSibling a d

theorem Selection.Move.run_total {a : Arena} {s : Selection} (wf : a.WellFormed) (valid : s.Valid a)
    (move : Move) : ∃ out, (move.run s a).run = .ok out ∧ ∀ s', out = .ok s' → s'.Valid a := by
  cases move with
  | select hs => exact resolve_total wf hs
  | child =>
    obtain ⟨s', done, valid'⟩ := toChild_total wf valid
    exact ⟨.ok s', done, by rintro _ ⟨⟩; exact valid'⟩
  | parent =>
    obtain ⟨s', done, valid'⟩ := toParent_total wf valid
    exact ⟨.ok s', done, by rintro _ ⟨⟩; exact valid'⟩
  | sibling d =>
    obtain ⟨s', done, valid'⟩ := toSibling_total wf valid d
    exact ⟨.ok s', done, by rintro _ ⟨⟩; exact valid'⟩
  | outermostSibling d =>
    obtain ⟨s', done, valid'⟩ := toOutermostSibling_total wf valid d
    exact ⟨.ok s', done, by rintro _ ⟨⟩; exact valid'⟩

namespace Grow

open Selection

variable {a : Arena} {g : Grow} {s start : Selection} {made : Option Selection}

/-- What growing is and what is selected, after growing was begun and steps of it and other moves
followed each other in any order, together with the last selection that a step changed to. Moves
that are refused change nothing. -/
inductive History (a : Arena) (start : Selection) : Grow → Selection → Option Selection → Prop where
  | begin : History a start inactive.begin start none
  | step {g g' : Grow} {s s' : Selection} {made : Option Selection} (d : Direction) :
    History a start g s made → (g.step s a d).run = .ok (.ok (g', s')) →
      History a start g' s' (if s' = s then made else some s')
  | move {g : Grow} {s s' : Selection} {made : Option Selection} (m : Move) :
    History a start g s made → (m.run s a).run = .ok (.ok s') → History a start g s' made

theorem History.remembers (history : History a start g s made) (wf : a.WellFormed)
    (valid : start.Valid a) : Remembers a g s made := by
  induction history with
  | begin => exact remembers_begin valid
  | step d _ stepped ih => exact ih.step wf stepped
  | move m _ moved ih =>
    obtain ⟨out, total, valid'⟩ := m.run_total wf ih.valid
    cases total.symm.trans moved
    exact ⟨ih.active, valid' _ rfl, ih.made, ih.spans⟩

/-- Whatever came before, the next step selects in either direction what the first step of newly
begun growing would, exactly if this selection is not the one that a step changed to last, or is
one element alone. -/
theorem History.starts_afresh_iff (history : History a start g s made) (wf : a.WellFormed)
    (valid : start.Valid a) :
    (∀ d, ∃ g₁ g₂ s', (g.step s a d).run = .ok (.ok (g₁, s')) ∧
      (inactive.begin.step s a d).run = .ok (.ok (g₂, s'))) ↔ made ≠ some s ∨ s.rest = [] := by
  have remembers := history.remembers wf valid
  constructor
  · intro same
    by_contra neither
    obtain ⟨remade, more⟩ := not_or.mp neither
    obtain rfl := not_not.mp remade
    obtain ⟨d, g₁, g₂, s₁, s₂, stepped, begun, differ⟩ := remembers.differs wf more
    obtain ⟨_, _, s', stepped', begun'⟩ := same d
    cases stepped.symm.trans stepped'
    cases begun.symm.trans begun'
    exact differ rfl
  · intro other d
    exact remembers.agrees wf (remembers.ends_fresh other d)

/-- The arena of `a + b + c + d`, with the terms at the places from 3 to 6. -/
def fourTerms : Arena :=
  (zero.plant (.sum [.symbol "a", .symbol "b", .symbol "c", .symbol "d"])).rewire ⟨0⟩
    ((Element.root ⟨1⟩).replaceChild ⟨1⟩ ⟨2⟩)

theorem wellFormed_fourTerms : fourTerms.WellFormed :=
  Edit.wellFormed_expression (by decide)

theorem valid_fourTerms : (single ⟨4⟩).Valid fourTerms :=
  .single (.child (.child .root (n := ⟨none, .root ⟨2⟩⟩) rfl (List.mem_singleton_self _))
    (n := ⟨some ⟨0⟩, .sum [⟨3⟩, ⟨4⟩, ⟨5⟩, ⟨6⟩]⟩) rfl (by decide))

/-- From `b` growing selects `b + c`, remembering where it came from. -/
theorem history_fourTerms : History fourTerms (single ⟨4⟩)
    ⟨true, some ⟨⟨4⟩, ⟨5⟩, [⟨4⟩, ⟨5⟩]⟩⟩ ⟨⟨4⟩, [⟨5⟩]⟩ (some ⟨⟨4⟩, [⟨5⟩]⟩) :=
  History.begin.step .next rfl

/-- After `d` is selected instead, growing starts at `d`. -/
theorem History.starts_afresh_elsewhere : ∃ g,
    History fourTerms (single ⟨4⟩) g (single ⟨6⟩) (some ⟨⟨4⟩, [⟨5⟩]⟩) ∧
    ∀ d, ∃ g₁ g₂ s', (g.step (single ⟨6⟩) fourTerms d).run = .ok (.ok (g₁, s')) ∧
      (inactive.begin.step (single ⟨6⟩) fourTerms d).run = .ok (.ok (g₂, s')) :=
  ⟨_, history_fourTerms.move (.select [⟨6⟩]) rfl,
    ((history_fourTerms.move (.select [⟨6⟩]) rfl).starts_afresh_iff wellFormed_fourTerms
      valid_fourTerms).mpr (.inl (by decide))⟩

/-- After `d` is selected, and then `b + c` again, a step back does not go on from `b + c` as newly
begun growing would, to `a + b + c`, but to `b`. -/
theorem History.remembers_after_detour : ∃ g g₁ g₂ : Grow,
    fourTerms.WellFormed ∧ (single ⟨4⟩).Valid fourTerms ∧
    History fourTerms (single ⟨4⟩) g ⟨⟨4⟩, [⟨5⟩]⟩ (some ⟨⟨4⟩, [⟨5⟩]⟩) ∧
    ((Move.select [⟨6⟩]).run ⟨⟨4⟩, [⟨5⟩]⟩ fourTerms).run = .ok (.ok (single ⟨6⟩)) ∧
    ((Move.select [⟨4⟩, ⟨5⟩]).run (single ⟨6⟩) fourTerms).run = .ok (.ok ⟨⟨4⟩, [⟨5⟩]⟩) ∧
    (g.step ⟨⟨4⟩, [⟨5⟩]⟩ fourTerms .previous).run = .ok (.ok (g₁, single ⟨4⟩)) ∧
    (inactive.begin.step ⟨⟨4⟩, [⟨5⟩]⟩ fourTerms .previous).run =
      .ok (.ok (g₂, ⟨⟨3⟩, [⟨4⟩, ⟨5⟩]⟩)) :=
  ⟨_, _, _, wellFormed_fourTerms, valid_fourTerms, history_fourTerms, rfl, rfl, rfl, rfl⟩

end Grow

end AlgebraEditor
