import AlgebraEditor.Proofs.Selection.Order
import Mathlib.Data.Finset.Max

/-!
# Resolving requests

`Meets` says what a request for some elements is answered with, in terms of the set of its outermost
elements and nothing else. Every request meets one answer, which is the one that `resolve` computes:
a valid selection or a select error, and never a fault.
-/

namespace AlgebraEditor

open Arena

/-! ### Runs of a list -/

section Runs

variable {xs hs ps before after : List Handle} {h k : Handle} {i : Nat} {positions : List Nat}

theorem mapM_idxOf?_total (inside : ∀ h ∈ hs, h ∈ xs) :
    ∃ positions, hs.mapM (xs.idxOf? ·) = some positions ∧ positions.length = hs.length := by
  induction hs with
  | nil => exact ⟨[], rfl, rfl⟩
  | cons h hs ih =>
    obtain ⟨head, tail⟩ := List.forall_mem_cons.mp inside
    obtain ⟨positions, read, length⟩ := ih tail
    obtain ⟨i, found⟩ := exists_idxOf? head
    refine ⟨i :: positions, ?_, by rw [List.length_cons, List.length_cons, length]⟩
    rw [List.mapM_cons, found, read]
    rfl

theorem isPrefix_drop (found : (h :: hs).mapM (xs.idxOf? ·) = some (i :: positions))
    (consecutive : Selection.isConsecutive (i :: positions) = true) : h :: hs <+: xs.drop i := by
  induction hs generalizing h i positions with
  | nil =>
    rw [List.mapM_cons] at found
    obtain ⟨j, position, found⟩ := Option.bind_eq_some_iff.mp found
    cases found
    rw [drop_of_idxOf? position]
    exact ⟨xs.drop (i + 1), rfl⟩
  | cons k hs ih =>
    rw [List.mapM_cons] at found
    obtain ⟨j, position, found⟩ := Option.bind_eq_some_iff.mp found
    obtain ⟨_, read, found⟩ := Option.bind_eq_some_iff.mp found
    cases found
    cases positions with
    | nil =>
      rw [List.mapM_cons] at read
      obtain ⟨_, _, read⟩ := Option.bind_eq_some_iff.mp read
      obtain ⟨_, _, read⟩ := Option.bind_eq_some_iff.mp read
      cases read
    | cons l positions =>
      rw [Selection.isConsecutive, Bool.and_eq_true, beq_iff_eq] at consecutive
      obtain ⟨rfl, consecutive⟩ := consecutive
      rw [drop_of_idxOf? position, List.cons_prefix_cons]
      exact ⟨rfl, ih read consecutive⟩

theorem mapM_idxOf?_run (nodup : (before ++ hs ++ after).Nodup) :
    hs.mapM ((before ++ hs ++ after).idxOf? ·) = some (List.range' before.length hs.length) := by
  induction hs generalizing before with
  | nil => rfl
  | cons h hs ih =>
    have moved : before ++ h :: hs ++ after = before ++ [h] ++ hs ++ after := by simp
    have position : (before ++ h :: hs ++ after).idxOf? h = some before.length := by
      rw [List.append_assoc, List.cons_append]
      refine idxOf?_append_cons fun member => ?_
      rw [List.append_assoc] at nodup
      exact (List.nodup_append.mp nodup).2.2 h member h (by simp) rfl
    have rest := @ih (before ++ [h]) (moved ▸ nodup)
    rw [← moved, List.length_append, List.length_singleton] at rest
    rw [List.mapM_cons, position, List.length_cons, List.range'_succ]
    exact Option.bind_eq_some_iff.mpr ⟨_, rfl, Option.bind_eq_some_iff.mpr ⟨_, rest, rfl⟩⟩

theorem isConsecutive_range' (i n : Nat) : Selection.isConsecutive (List.range' i n) = true := by
  induction n generalizing i with
  | zero => rfl
  | succ n ih =>
    cases n with
    | zero => rfl
    | succ n =>
      have rest := ih (i + 1)
      rw [List.range'_succ] at rest
      rw [List.range'_succ, List.range'_succ, Selection.isConsecutive, rest]
      simp

/-- Either the chosen elements of a list stand side by side, or another one stands between two. -/
theorem gap_or_run (chosen : Handle → Prop) (xs : List Handle) :
    (∃ x y z, [x, y, z].Sublist xs ∧ chosen x ∧ ¬ chosen y ∧ chosen z) ∨
      ∃ before run after, xs = before ++ run ++ after ∧ (∀ x ∈ before, ¬ chosen x) ∧
        (∀ x ∈ run, chosen x) ∧ ∀ x ∈ after, ¬ chosen x := by
  induction xs with
  | nil => exact .inr ⟨[], [], [], rfl, nofun, nofun, nofun⟩
  | cons w xs ih =>
    obtain ⟨x, y, z, part, holds⟩ | ⟨before, run, after, rfl, front, inside, back⟩ := ih
    · exact .inl ⟨x, y, z, part.cons w, holds⟩
    by_cases holds : chosen w
    · match before, run with
      | [], run =>
        exact .inr ⟨[], w :: run, after, rfl, nofun, List.forall_mem_cons.mpr ⟨holds, inside⟩, back⟩
      | before, [] =>
        refine .inr ⟨[], [w], before ++ after, by simp, nofun, by simpa using holds, fun x member => ?_⟩
        exact (List.mem_append.mp member).elim (front x) (back x)
      | y :: before, z :: run =>
        refine .inl ⟨w, y, z, ?_, holds, front y List.mem_cons_self, inside z List.mem_cons_self⟩
        refine .cons_cons w (.cons_cons y (List.singleton_sublist.mpr ?_))
        simp
    · exact .inr ⟨w :: before, run, after, rfl, List.forall_mem_cons.mpr ⟨holds, front⟩, inside, back⟩

theorem sublist_of_not_mem {x : Handle} (part : (x :: hs).Sublist (before ++ xs))
    (fresh : x ∉ before) : (x :: hs).Sublist xs := by
  obtain ⟨ls, rs, whole, part, part'⟩ := List.sublist_append_iff.mp part
  cases ls with
  | nil => rwa [whole]
  | cons w ls =>
    cases (List.cons.inj whole).1
    exact absurd (part.subset List.mem_cons_self) fresh

/-- What stands between two elements of a run is in the run. -/
theorem mem_run_of_between {x y z : Handle} (nodup : (before ++ hs ++ after).Nodup)
    (part : [x, y, z].Sublist (before ++ hs ++ after)) (first : x ∈ hs) (last : z ∈ hs) : y ∈ hs := by
  obtain ⟨nodup', _, apart⟩ := List.nodup_append.mp nodup
  obtain ⟨_, _, apart'⟩ := List.nodup_append.mp nodup'
  rw [List.append_assoc] at part
  have front := sublist_of_not_mem part fun member => apart' x member x first rfl
  have backwards : [z, y, x].Sublist (after.reverse ++ hs.reverse) := by
    simpa using List.reverse_sublist.mpr front
  have inside := sublist_of_not_mem backwards fun member =>
    apart z (List.mem_append_right _ last) z (List.mem_reverse.mp member) rfl
  exact List.mem_reverse.mp (inside.subset (by simp))

end Runs

/-! ### Running requests -/

namespace Select

variable {α β : Type}

theorem run_lift_bind {m : Except Fault α} {f : α → Select β} {x : α} (answer : m = .ok x) :
    ((liftM m : Select α) >>= f).run = (f x).run := by
  subst answer
  rfl

theorem run_bind_of_ok {x : Select α} {f : α → Select β} {y : α} (answer : x.run = .ok (.ok y)) :
    (x >>= f).run = (f y).run := by
  rw [ExceptT.run_bind, answer]
  rfl

theorem run_anyM {f : α → Select Bool} {g : α → Bool} {xs : List α}
    (all : ∀ x ∈ xs, (f x).run = .ok (.ok (g x))) : (xs.anyM f).run = .ok (.ok (xs.any g)) := by
  induction xs with
  | nil => rfl
  | cons x xs ih =>
    obtain ⟨head, tail⟩ := List.forall_mem_cons.mp all
    rw [List.anyM, run_bind_of_ok head, List.any_cons]
    cases g x with
    | true => rfl
    | false => exact ih tail

end Select

namespace Selection

/-- A reachable element, or two or more neighbouring children of one, but not all of them. -/
inductive Valid (a : Arena) : Selection → Prop where
  | single {h : Handle} : a.Reachable h → Valid a (single h)
  | run {p first second : Handle} {n : Node} {before rest after : List Handle} : a.Reachable p →
      a.get? p = some n → n.element.children = before ++ first :: second :: rest ++ after →
      before ++ after ≠ [] → Valid a ⟨first, second :: rest⟩

variable {a b : Arena} {h k p first second : Handle} {hs ks l rest before after : List Handle} {n : Node}
variable {out out' : Except SelectError Selection}

theorem Valid.shown {s : Selection} (valid : s.Valid a) (shows : a.Shows b) : s.Valid b := by
  cases valid with
  | single reached => exact .single (shows.reachable reached)
  | run reached stored children other =>
    exact .run (shows.reachable reached) (shows.kept reached stored) children other

/-! ### Outermost elements -/

/-- A given element that lies inside no other one. -/
def Outermost (a : Arena) (hs : List Handle) (h : Handle) : Prop :=
  h ∈ hs ∧ ∀ k ∈ hs, ¬ a.IsAbove k h

open Classical in
theorem outermost_eq_ok (wf : a.WellFormed) (stored : ∀ h ∈ hs, ∃ n, a.get? h = some n) :
    outermost a hs = .ok (hs.filter fun h => !(hs.any fun other => decide (a.IsAbove other h))) := by
  refine filterM_eq_filter fun h member => ?_
  obtain ⟨n, held⟩ := stored h member
  rw [anyM_eq_any fun other _ => wf.isAncestorOf_eq_ok held other, ok_bind]
  rfl

theorem exists_topmost (wf : a.WellFormed) (other : hs ≠ []) :
    ∃ h ∈ hs, ∀ k ∈ hs, ¬ a.IsAbove k h := by
  obtain ⟨h, member, most⟩ := hs.toFinset.exists_max_image (fun h => (a.below h).card)
    ((List.toFinset_nonempty_iff hs).mpr other)
  refine ⟨h, List.mem_toFinset.mp member, fun k inside above => ?_⟩
  have less := wf.card_below_lt above
  have bound := most k (List.mem_toFinset.mpr inside)
  omega

/-- Whatever is given is outermost or lies inside something that is. -/
theorem exists_outermost (wf : a.WellFormed) (member : h ∈ hs) :
    ∃ k, Outermost a hs k ∧ (k = h ∨ a.IsAbove k h) := by
  classical
  have around : ∀ {k}, k ∈ hs.filter (fun k => k = h ∨ a.IsAbove k h) ↔
      k ∈ hs ∧ (k = h ∨ a.IsAbove k h) := by
    intro k
    rw [List.mem_filter, decide_eq_true_iff]
  obtain ⟨k, inside, topmost⟩ := exists_topmost wf
    (List.ne_nil_of_mem (around.mpr ⟨member, .inl rfl⟩))
  obtain ⟨given, below⟩ := around.mp inside
  refine ⟨k, ⟨given, fun j given' above => topmost j (around.mpr ⟨given', .inr ?_⟩) above⟩, below⟩
  rcases below with rfl | below
  · exact above
  · exact above.trans below

/-- What lies below something reachable is reachable. -/
theorem reachable_below (wf : a.WellFormed) (reached : a.Reachable k) (below : k = h ∨ a.IsAbove k h) :
    a.Reachable h := by
  rcases below with rfl | above
  · exact reached
  · exact reached.down wf above

/-- The outermost elements, once each, in document order. -/
theorem outermost_total (wf : a.WellFormed) (reached : ∀ h ∈ hs, a.Reachable h) :
    ∃ l l', sortByDocument a hs = .ok l ∧ outermost a (dropRepeated l) = .ok l' ∧
      l'.Pairwise a.Before ∧ ∀ x, x ∈ l' ↔ Outermost a hs x := by
  classical
  obtain ⟨l, read, sorted, same⟩ := sorted_total wf reached
  refine ⟨l, _, read, outermost_eq_ok wf fun h member => (reached h ((same h).mp member)).stored wf,
    sorted.filter _, fun x => ?_⟩
  rw [List.mem_filter, same, Bool.not_eq_true', List.any_eq_false]
  refine and_congr_right fun _ => forall_congr' fun k => ?_
  rw [same, decide_eq_true_iff]

/-! ### Siblings -/

theorem run_parents (stored : ∀ h ∈ rest, ∃ n, a.get? h = some n) (q : Option Handle) :
    (rest.anyM fun h => (do return decide ((← a.parent h) ≠ q) : Select Bool)).run =
      .ok (.ok (rest.any fun h => decide (a.owner? h ≠ q))) := by
  refine Select.run_anyM fun h member => ?_
  obtain ⟨n, held⟩ := stored h member
  rw [Select.run_lift_bind (parent_of_get? held)]
  rfl

/-- What two or more children of one element are answered with depends on their slots. -/
theorem run_ofSiblings_of_owned (stored : a.get? p = some n)
    (owned : ∀ h ∈ first :: second :: rest, a.owner? h = some p) {positions : List Nat}
    (read : (first :: second :: rest).mapM (n.element.children.idxOf? ·) = some positions) :
    (ofSiblings a first (second :: rest)).run = .ok (if isConsecutive positions = true then
      if (first :: second :: rest).length = n.element.children.length then .ok (single p)
      else .ok ⟨first, second :: rest⟩
      else .error .notAdjacent) := by
  obtain ⟨front, shared⟩ := List.forall_mem_cons.mp owned
  have together : ((second :: rest).any fun h => decide (a.owner? h ≠ some p)) = false :=
    List.any_eq_false.mpr fun h member => by simpa using shared h member
  unfold ofSiblings
  rw [Select.run_lift_bind (parent_eq_some.mpr front), Select.run_bind_of_ok (run_parents
    (fun h member => Arena.stored_of_owner? (shared h member)) _), together]
  simp only [Bool.false_eq_true, if_false]
  rw [Select.run_lift_bind (children_of_get? stored), read]
  dsimp only
  cases isConsecutive positions with
  | false => rfl
  | true =>
    simp only [Bool.not_true, Bool.false_eq_true, if_false, if_true]
    split <;> rfl

/-- Neighbours that are not all children of an element are selected as they are. -/
theorem run_ofSiblings (wf : a.WellFormed) (stored : a.get? p = some n)
    (children : n.element.children = before ++ first :: second :: rest ++ after) :
    (ofSiblings a first (second :: rest)).run =
      .ok (.ok (if before ++ after = [] then single p else ⟨first, second :: rest⟩)) := by
  have owned : ∀ h ∈ first :: second :: rest, a.owner? h = some p := fun h member =>
    wf.records stored h (by
      rw [children]
      exact List.mem_append.mpr (.inl (List.mem_append.mpr (.inr member))))
  have nodup := wf.distinct stored
  rw [children] at nodup
  have read := mapM_idxOf?_run nodup
  rw [← children] at read
  have length : (first :: second :: rest).length = n.element.children.length ↔
      before ++ after = [] := by
    rw [children, ← List.length_eq_zero_iff]
    simp only [List.length_append]
    omega
  rw [run_ofSiblings_of_owned stored owned read, if_pos (isConsecutive_range' _ _)]
  simp only [length]
  split <;> rfl

/-- Children of one element with another one between them are not selected. -/
theorem run_ofSiblings_apart (wf : a.WellFormed) (stored : a.get? p = some n)
    (owned : ∀ h ∈ first :: second :: rest, a.owner? h = some p) {x y z : Handle}
    (between : [x, y, z].Sublist n.element.children) (chosen : x ∈ first :: second :: rest)
    (other : y ∉ first :: second :: rest) (chosen' : z ∈ first :: second :: rest) :
    (ofSiblings a first (second :: rest)).run = .ok (.error .notAdjacent) := by
  obtain ⟨positions, read, _⟩ := mapM_idxOf?_total fun h member =>
    (wf.mem_children_iff stored).mpr (owned h member)
  rw [run_ofSiblings_of_owned stored owned read, if_neg]
  intro consecutive
  cases positions with
  | nil =>
    rw [List.mapM_cons] at read
    obtain ⟨_, _, read⟩ := Option.bind_eq_some_iff.mp read
    obtain ⟨_, _, read⟩ := Option.bind_eq_some_iff.mp read
    cases read
  | cons i positions =>
    obtain ⟨after, same⟩ := isPrefix_drop read consecutive
    have whole : n.element.children.take i ++ first :: second :: rest ++ after =
        n.element.children := by
      rw [List.append_assoc, same, List.take_append_drop]
    have nodup := wf.distinct stored
    rw [← whole] at between nodup
    exact other (mem_run_of_between nodup between chosen chosen')

/-- Elements with different owners are not selected. -/
theorem run_ofSiblings_scattered (stored : ∀ h ∈ first :: second :: rest, ∃ n, a.get? h = some n)
    {x y : Handle} (chosen : x ∈ first :: second :: rest) (chosen' : y ∈ first :: second :: rest)
    (apart : a.owner? x ≠ a.owner? y) :
    (ofSiblings a first (second :: rest)).run = .ok (.error .differentParents) := by
  obtain ⟨⟨m, held⟩, stored'⟩ := List.forall_mem_cons.mp stored
  have scattered : ((second :: rest).any fun h => decide (a.owner? h ≠ a.owner? first)) = true := by
    by_contra none
    have shared : ∀ h ∈ second :: rest, a.owner? h = a.owner? first := by
      intro h member
      have same := List.any_eq_false.mp (Bool.eq_false_iff.mpr none) h member
      simpa using same
    have shared' : ∀ h ∈ first :: second :: rest, a.owner? h = a.owner? first :=
      List.forall_mem_cons.mpr ⟨rfl, shared⟩
    exact apart ((shared' x chosen).trans (shared' y chosen').symm)
  unfold ofSiblings
  rw [Select.run_lift_bind (parent_of_get? held), Select.run_bind_of_ok (run_parents stored' _),
    scattered]
  rfl

/-! ### Resolving -/

open Classical in
theorem isSelectable_eq_ok (wf : a.WellFormed) (h : Handle) :
    isSelectable a h = .ok (decide (a.Reachable h)) := by
  unfold isSelectable
  cases found : a.get? h with
  | none =>
    have unreachable : ¬ a.Reachable h := fun reached => by
      obtain ⟨n, stored⟩ := reached.stored wf
      rw [found] at stored
      cases stored
    rw [contains, found, decide_eq_false unreachable]
    rfl
  | some n =>
    obtain ⟨answer, read, holds⟩ := wf.isReachable_eq_ok found
    rw [contains_iff.mpr ⟨n, found⟩]
    simp only [Bool.not_true, Bool.false_eq_true, if_false]
    rw [read]
    congr 1
    rw [Bool.eq_iff_iff, holds, decide_eq_true_iff]

open Classical in
theorem areSelectable_eq_ok (wf : a.WellFormed) (hs : List Handle) :
    areSelectable a hs = .ok (hs.all fun h => decide (a.Reachable h)) :=
  allM_eq_all fun h _ => isSelectable_eq_ok wf h

/-- The selection of outermost elements in document order. -/
def ofOutermost (a : Arena) : List Handle → Select Selection
  | [] => throwThe Fault .nothingOutermost
  | [only] => return single only
  | first :: rest => ofSiblings a first rest

theorem resolve_detached (wf : a.WellFormed) (member : h ∈ hs) (detached : ¬ a.Reachable h) :
    (resolve a hs).run = .ok (.error .detached) := by
  classical
  have some : (hs.all fun h => decide (a.Reachable h)) = false :=
    List.all_eq_false.mpr ⟨h, member, by simpa using detached⟩
  unfold resolve
  rw [if_neg (by simpa using List.ne_nil_of_mem member)]
  dsimp only
  rw [Select.run_lift_bind (areSelectable_eq_ok wf hs), some]
  rfl

/-- Of reachable elements the outermost ones are resolved, in document order. -/
theorem run_resolve (wf : a.WellFormed) (other : hs ≠ []) (reached : ∀ h ∈ hs, a.Reachable h)
    (sorted : l.Pairwise a.Before) (exact : ∀ x, x ∈ l ↔ Outermost a hs x) :
    (resolve a hs).run = (ofOutermost a l).run := by
  classical
  have all : (hs.all fun h => decide (a.Reachable h)) = true := by simpa using reached
  obtain ⟨l', l'', read, outer, sorted', same⟩ := outermost_total wf reached
  obtain rfl : l'' = l := eq_of_before sorted' sorted fun x => (same x).trans (exact x).symm
  unfold resolve
  rw [if_neg (by simpa using other)]
  dsimp only
  rw [Select.run_lift_bind (areSelectable_eq_ok wf hs), all]
  simp only [Bool.not_true, Bool.false_eq_true, if_false]
  rw [Select.run_lift_bind read, Select.run_lift_bind outer]
  cases l'' with
  | nil => rfl
  | cons first rest => cases rest <;> rfl

/-- Children of one element are all outermost. -/
theorem outermost_siblings (wf : a.WellFormed) (owned : ∀ h ∈ hs, a.owner? h = some p) :
    Outermost a hs h ↔ h ∈ hs :=
  and_iff_left_of_imp fun member k inside =>
    not_isAbove_sibling (wf.acyclic p) (owned k inside) (owned h member)

/-- What a request for some elements is answered with. -/
inductive Meets (a : Arena) (hs : List Handle) : Except SelectError Selection → Prop where
  | empty : hs = [] → Meets a hs (.error .empty)
  | detached {h : Handle} : h ∈ hs → ¬ a.Reachable h → Meets a hs (.error .detached)
  | one {h : Handle} : (∀ h ∈ hs, a.Reachable h) → (∀ k, Outermost a hs k ↔ k = h) →
      Meets a hs (.ok (single h))
  | differentParents {x y : Handle} : (∀ h ∈ hs, a.Reachable h) → Outermost a hs x →
      Outermost a hs y → a.owner? x ≠ a.owner? y → Meets a hs (.error .differentParents)
  | notAdjacent {p x y z : Handle} {n : Node} : (∀ h ∈ hs, a.Reachable h) →
      (∀ k, Outermost a hs k → a.owner? k = some p) → a.get? p = some n →
      [x, y, z].Sublist n.element.children → Outermost a hs x → ¬ Outermost a hs y →
      Outermost a hs z → Meets a hs (.error .notAdjacent)
  | whole {p : Handle} {n : Node} : (∀ h ∈ hs, a.Reachable h) → a.get? p = some n →
      2 ≤ n.element.children.length → (∀ k, Outermost a hs k ↔ k ∈ n.element.children) →
      Meets a hs (.ok (single p))
  | run {p first second : Handle} {n : Node} {before rest after : List Handle} :
      (∀ h ∈ hs, a.Reachable h) → a.get? p = some n →
      n.element.children = before ++ first :: second :: rest ++ after → before ++ after ≠ [] →
      (∀ k, Outermost a hs k ↔ k ∈ first :: second :: rest) → Meets a hs (.ok ⟨first, second :: rest⟩)

/-- With two outermost elements a request is one for siblings. -/
theorem run_resolve_of_two (wf : a.WellFormed) (reached : ∀ h ∈ hs, a.Reachable h) {x y : Handle}
    (chosen : Outermost a hs x) (chosen' : Outermost a hs y) (other : x ≠ y) :
    ∃ first second rest, (∀ k, k ∈ first :: second :: rest ↔ Outermost a hs k) ∧
      (resolve a hs).run = (ofSiblings a first (second :: rest)).run := by
  obtain ⟨_, l, _, _, sorted, exact⟩ := outermost_total wf reached
  have resolved := run_resolve wf (List.ne_nil_of_mem chosen.1) reached sorted exact
  have first := (exact x).mpr chosen
  have second := (exact y).mpr chosen'
  match l with
  | [] => cases first
  | [only] => exact absurd ((List.mem_singleton.mp first).trans (List.mem_singleton.mp second).symm) other
  | first :: second :: rest => exact ⟨first, second, rest, exact, resolved⟩

theorem run_resolve_children (wf : a.WellFormed) (reached : ∀ h ∈ hs, a.Reachable h)
    (stored : a.get? p = some n)
    (children : n.element.children = before ++ first :: second :: rest ++ after)
    (exact : ∀ k, Outermost a hs k ↔ k ∈ first :: second :: rest) :
    (resolve a hs).run =
      .ok (.ok (if before ++ after = [] then single p else ⟨first, second :: rest⟩)) := by
  have part : (first :: second :: rest).Sublist n.element.children := by
    rw [children, List.append_assoc]
    exact (List.sublist_append_left _ _).trans (List.sublist_append_right _ _)
  have front := ((exact first).mpr List.mem_cons_self).1
  have above := (reached first front).owner wf
    (wf.records stored first (part.subset List.mem_cons_self))
  rw [run_resolve wf (List.ne_nil_of_mem front) reached ((wf.children_sorted above stored).sublist part)
    fun k => (exact k).symm]
  exact run_ofSiblings wf stored children

/-- What a request meets is what it is resolved to. -/
theorem Meets.run_resolve (meets : Meets a hs out) (wf : a.WellFormed) :
    (resolve a hs).run = .ok out := by
  cases meets with
  | empty none =>
    rw [none]
    rfl
  | detached member detached => exact resolve_detached wf member detached
  | @one h reached exact =>
    rw [Selection.run_resolve wf (List.ne_nil_of_mem ((exact h).mpr rfl).1) reached
      (List.pairwise_singleton _ h) fun k => List.mem_singleton.trans (exact k).symm]
    rfl
  | differentParents reached chosen chosen' apart =>
    obtain ⟨first, second, rest, exact, resolved⟩ := run_resolve_of_two wf reached chosen chosen'
      fun same => apart (congrArg a.owner? same)
    rw [resolved]
    exact run_ofSiblings_scattered (fun h member => (reached h ((exact h).mp member).1).stored wf)
      ((exact _).mpr chosen) ((exact _).mpr chosen') apart
  | @notAdjacent p x y z n reached owned stored between chosen other chosen' =>
    have different : x ≠ z := by
      rintro rfl
      have nodup := (wf.distinct stored).sublist between
      simp at nodup
    obtain ⟨first, second, rest, exact, resolved⟩ := run_resolve_of_two wf reached chosen chosen' different
    rw [resolved]
    exact run_ofSiblings_apart wf stored (fun h member => owned h ((exact h).mp member)) between
      ((exact _).mpr chosen) (fun member => other ((exact _).mp member)) ((exact _).mpr chosen')
  | @whole p n reached stored long exact =>
    match same : n.element.children, long with
    | first :: second :: rest, _ =>
      have children : n.element.children = [] ++ first :: second :: rest ++ [] := by
        rw [same, List.nil_append, List.append_nil]
      rw [run_resolve_children wf reached stored children (same ▸ exact)]
      rfl
  | run reached stored children other exact =>
    rw [run_resolve_children wf reached stored children exact, if_neg other]

/-- Every request meets an answer. -/
theorem exists_meets (wf : a.WellFormed) (hs : List Handle) : ∃ out, Meets a hs out := by
  by_cases none : hs = []
  · exact ⟨_, .empty none⟩
  by_cases reached : ∀ h ∈ hs, a.Reachable h
  swap
  · simp only [not_forall] at reached
    obtain ⟨h, member, detached⟩ := reached
    exact ⟨_, .detached member detached⟩
  obtain ⟨h, member⟩ := List.exists_mem_of_ne_nil hs none
  obtain ⟨x, chosen, _⟩ := exists_outermost wf member
  by_cases alone : ∀ y, Outermost a hs y → y = x
  · exact ⟨_, .one reached fun y => ⟨alone y, fun same => same ▸ chosen⟩⟩
  by_cases shared : ∀ y, Outermost a hs y → a.owner? y = a.owner? x
  swap
  · simp only [not_forall] at shared
    obtain ⟨y, chosen', apart⟩ := shared
    exact ⟨_, .differentParents reached chosen' chosen apart⟩
  simp only [not_forall] at alone
  obtain ⟨y, chosen', other⟩ := alone
  cases owned : a.owner? x with
  | none =>
    have root := (reached x chosen.1).eq_root wf owned
    have root' := (reached y chosen'.1).eq_root wf ((shared y chosen').trans owned)
    exact absurd (root'.trans root.symm) other
  | some p =>
    rw [owned] at shared
    obtain ⟨n, stored⟩ := wf.stored_of_owner? owned
    -- the outermost elements are children of one list, and either a run of it or not
    obtain ⟨x, y, z, between, first, second, third⟩ | ⟨before, run, after, children, front, inside, back⟩ :=
      gap_or_run (Outermost a hs) n.element.children
    · exact ⟨_, .notAdjacent reached shared stored between first second third⟩
    have exact : ∀ k, Outermost a hs k ↔ k ∈ run := by
      refine fun k => ⟨fun chosen => ?_, inside k⟩
      have member := (wf.mem_children_iff stored).mpr (shared k chosen)
      rw [children, List.append_assoc] at member
      rcases List.mem_append.mp member with member | member
      · exact absurd chosen (front k member)
      rcases List.mem_append.mp member with member | member
      · exact member
      · exact absurd chosen (back k member)
    match run with
    | [] => cases (exact x).mp chosen
    | [only] =>
      have same := List.mem_singleton.mp ((exact x).mp chosen)
      exact absurd ((List.mem_singleton.mp ((exact y).mp chosen')).trans same.symm) other
    | first :: second :: rest =>
      by_cases full : before ++ after = []
      · obtain ⟨rfl, rfl⟩ := List.append_eq_nil_iff.mp full
        rw [List.nil_append, List.append_nil] at children
        refine ⟨_, .whole reached stored ?_ fun k => children ▸ exact k⟩
        rw [children, List.length_cons, List.length_cons]
        omega
      · exact ⟨_, .run reached stored children full exact⟩

/-- A request is resolved to what it meets, and to nothing else. -/
theorem meets_iff (wf : a.WellFormed) : Meets a hs out ↔ (resolve a hs).run = .ok out := by
  refine ⟨fun meets => meets.run_resolve wf, fun resolved => ?_⟩
  obtain ⟨out', meets⟩ := exists_meets wf hs
  cases resolved.symm.trans (meets.run_resolve wf)
  exact meets

theorem Meets.valid {s : Selection} (meets : Meets a hs (.ok s)) (wf : a.WellFormed) : s.Valid a := by
  have above : ∀ {p n k}, (∀ h ∈ hs, a.Reachable h) → a.get? p = some n →
      k ∈ n.element.children → Outermost a hs k → a.Reachable p := fun reached stored member chosen =>
    (reached _ chosen.1).owner wf (wf.records stored _ member)
  cases meets with
  | @one h reached exact => exact .single (reached h ((exact h).mpr rfl).1)
  | @whole p n reached stored long exact =>
    obtain ⟨k, member⟩ := List.exists_mem_of_length_pos (Nat.lt_of_lt_of_le Nat.zero_lt_two long)
    exact .single (above reached stored member ((exact k).mpr member))
  | @run p first second n before rest after reached stored children other exact =>
    have member : first ∈ n.element.children := by
      rw [children]
      simp
    exact .run (above reached stored member ((exact first).mpr List.mem_cons_self)) stored children other

/-- The answer depends on nothing but the set of outermost elements. -/
theorem Meets.congr (meets : Meets a hs out) (wf : a.WellFormed)
    (same : ∀ k, Outermost a ks k ↔ Outermost a hs k) : Meets a ks out := by
  have reached : (∀ h ∈ hs, a.Reachable h) → ∀ h ∈ ks, a.Reachable h := by
    intro reached h member
    obtain ⟨k, chosen, below⟩ := exists_outermost wf member
    exact reachable_below wf (reached k ((same k).mp chosen).1) below
  cases meets with
  | empty none =>
    refine .empty (List.eq_nil_iff_forall_not_mem.mpr fun h member => ?_)
    obtain ⟨k, chosen, _⟩ := exists_outermost wf member
    rw [same, none] at chosen
    cases chosen.1
  | detached member detached =>
    obtain ⟨k, chosen, below⟩ := exists_outermost wf member
    exact .detached ((same k).mpr chosen).1 fun reached => detached (reachable_below wf reached below)
  | one all exact => exact .one (reached all) fun k => (same k).trans (exact k)
  | differentParents all chosen chosen' apart =>
    exact .differentParents (reached all) ((same _).mpr chosen) ((same _).mpr chosen') apart
  | notAdjacent all owned stored between chosen other chosen' =>
    exact .notAdjacent (reached all) (fun k chosen => owned k ((same k).mp chosen)) stored between
      ((same _).mpr chosen) (fun chosen => other ((same _).mp chosen)) ((same _).mpr chosen')
  | whole all stored long exact =>
    exact .whole (reached all) stored long fun k => (same k).trans (exact k)
  | run all stored children other exact =>
    exact .run (reached all) stored children other fun k => (same k).trans (exact k)

theorem resolve_total (wf : a.WellFormed) (hs : List Handle) :
    ∃ out, (resolve a hs).run = .ok out ∧ ∀ s, out = .ok s → s.Valid a := by
  obtain ⟨out, meets⟩ := exists_meets wf hs
  exact ⟨out, meets.run_resolve wf, fun s same => (same ▸ meets).valid wf⟩

/-! ### Requests for neighbours -/

theorem resolve_single (wf : a.WellFormed) (reached : a.Reachable h) :
    (resolve a [h]).run = .ok (.ok (single h)) := by
  refine Meets.run_resolve (.one (List.forall_mem_singleton.mpr reached) fun k => ?_) wf
  rw [Outermost, List.forall_mem_singleton, List.mem_singleton]
  exact and_iff_left_of_imp fun same => same ▸ wf.acyclic h

/-- Neighbouring children of a reachable element are selected in child order, and all of them as the
element itself. -/
theorem resolve_perm (wf : a.WellFormed) (reached : a.Reachable p) (stored : a.get? p = some n)
    (children : n.element.children = before ++ first :: second :: rest ++ after)
    (perm : hs.Perm (first :: second :: rest)) :
    (resolve a hs).run =
      .ok (.ok (if before ++ after = [] then single p else ⟨first, second :: rest⟩)) := by
  have part : ∀ h ∈ hs, h ∈ n.element.children := by
    intro h member
    rw [children]
    exact List.mem_append_left _ (List.mem_append_right _ (perm.subset member))
  have owned := fun h member => wf.records stored h (part h member)
  exact run_resolve_children wf (fun h member => reached.child stored (part h member)) stored children
    fun k => (outermost_siblings wf owned).trans perm.mem_iff

theorem resolve_run (wf : a.WellFormed) (reached : a.Reachable p) (stored : a.get? p = some n)
    (children : n.element.children = before ++ first :: second :: rest ++ after) :
    (resolve a (first :: second :: rest)).run =
      .ok (.ok (if before ++ after = [] then single p else ⟨first, second :: rest⟩)) :=
  resolve_perm wf reached stored children (.refl _)

/-- Two neighbours that are asked for the other way round are put in order. -/
theorem resolve_pair (wf : a.WellFormed) (reached : a.Reachable p) (stored : a.get? p = some n)
    (children : n.element.children = before ++ [first, second] ++ after) (other : before ++ after ≠ []) :
    (resolve a [second, first]).run = .ok (.ok ⟨first, [second]⟩) := by
  rw [resolve_perm wf reached stored children (.swap first second []), if_neg other]

/-- A valid selection is what its elements resolve to. -/
theorem Valid.resolve {s : Selection} (valid : s.Valid a) (wf : a.WellFormed) :
    (resolve a s.toList).run = .ok (.ok s) := by
  cases valid with
  | single reached => exact resolve_single wf reached
  | run reached stored children other =>
    have resolved := resolve_run wf reached stored children
    rw [if_neg other] at resolved
    exact resolved

end Selection

end AlgebraEditor
