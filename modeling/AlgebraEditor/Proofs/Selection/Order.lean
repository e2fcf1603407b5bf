import AlgebraEditor.Proofs.Arena.Reachability
import AlgebraEditor.Proofs.Arena.Slots
import AlgebraEditor.Selection.Basic

/-!
# Document order

An element is found by the slots on the way down to it, and document order compares nothing but
these: `Found.documentOrder_eq_ok`. So it is a total order, and sorting a list and dropping what is
repeated leaves each of its elements once, in order, whatever the list was like.
-/

namespace AlgebraEditor

namespace Arena

/-- The way down from an element to another one, and the slots that it takes. -/
inductive Takes (a : Arena) : Handle → List Handle → List Nat → Handle → Prop where
  | here (h : Handle) : Takes a h [] [] h
  | down {p c h : Handle} {n : Node} {i : Nat} {path : List Handle} {slots : List Nat} :
      a.get? p = some n → n.element.children.idxOf? c = some i → Takes a c path slots h →
      Takes a p (c :: path) (i :: slots) h

/-- The element is found below the root by taking these slots. -/
def At (a : Arena) (slots : List Nat) (h : Handle) : Prop :=
  ∃ path, a.lineage h = .ok (a.root :: path) ∧ a.Takes a.root path slots h

/-- The element is found below its topmost ancestor by taking these slots. -/
def Found (a : Arena) (top : Handle) (slots : List Nat) (h : Handle) : Prop :=
  ∃ path, a.lineage h = .ok (top :: path) ∧ a.Takes top path slots h

/-- The first element comes before the second one in the expression. -/
def Before (a : Arena) (x y : Handle) : Prop :=
  ∃ is js, a.At is x ∧ a.At js y ∧ compare is js = .lt

variable {a : Arena} {common h k p x y z : Handle} {n : Node} {xs ys path : List Handle}
variable {i : Nat} {is js : List Nat}

/-! ### Slots -/

theorem Takes.snoc (way : a.Takes x path is p) (stored : a.get? p = some n)
    (found : n.element.children.idxOf? h = some i) : a.Takes x (path ++ [h]) (is ++ [i]) h := by
  induction way with
  | here p => exact .down stored found (.here h)
  | down held slot _ ih => exact .down held slot (ih stored)

/-- The slots lead to one element only. -/
theorem Takes.eq_of_slots (first : a.Takes p xs is x) (second : a.Takes p ys is y) : x = y := by
  induction first generalizing ys with
  | here p =>
    cases second
    rfl
  | down stored found _ ih =>
    cases second with
    | down stored' found' second =>
      cases stored.symm.trans stored'
      obtain rfl := eq_of_idxOf? found found'
      exact ih second

/-- There is one way to take through the same elements. -/
theorem Takes.unique (first : a.Takes p path is x) (second : a.Takes p path js x) : is = js := by
  induction first generalizing js with
  | here p =>
    cases second
    rfl
  | down stored found _ ih =>
    cases second with
    | down stored' found' second =>
      cases stored.symm.trans stored'
      cases found.symm.trans found'
      rw [ih second]

/-- Where two ways part, their slots part too. -/
theorem Takes.compareLineages_eq_ok (first : a.Takes common xs is x)
    (second : a.Takes common ys js y) : a.compareLineages common xs ys = .ok (compare is js) := by
  induction first generalizing ys js with
  | here p =>
    cases second with
    | here => rfl
    | down _ _ _ => rfl
  | @down p c h n i path is stored found first ih =>
    cases second with
    | here => rfl
    | @down _ d _ m j ys js stored' found' second =>
      cases stored.symm.trans stored'
      unfold compareLineages
      rw [List.compare_cons_cons]
      by_cases same : c = d
      · subst same
        cases found.symm.trans found'
        rw [if_pos rfl, ih second, Std.compare_self]
        rfl
      · have apart : compare i j ≠ .eq := fun equal => by
          cases Std.LawfulEqCmp.eq_of_compare equal
          exact same (eq_of_idxOf? found found')
        rw [if_neg same, childIndex, childIndex, children_of_get? stored, ok_bind, ok_bind, found,
          found']
        cases order : compare i j with
        | eq => exact absurd order apart
        | lt | gt =>
          change Except.ok (compare i j) = _
          rw [order]
          rfl

theorem Descends.takes (way : a.Descends p path h) (wf : a.WellFormed) :
    ∃ is, a.Takes p path is h := by
  induction way with
  | here h => exact ⟨[], .here h⟩
  | down owned _ ih =>
    obtain ⟨is, way⟩ := ih
    obtain ⟨n, stored, member⟩ := wf.holds owned
    obtain ⟨i, found⟩ := exists_idxOf? member
    exact ⟨i :: is, .down stored found way⟩

/-! ### Places -/

namespace Found

variable {top other : Handle}

theorem unique (first : a.Found top is h) (second : a.Found other js h) : top = other ∧ is = js := by
  obtain ⟨path, read, way⟩ := first
  obtain ⟨path', read', way'⟩ := second
  cases read.symm.trans read'
  exact ⟨rfl, way.unique way'⟩

theorem eq_of_slots (first : a.Found top is x) (second : a.Found top is y) : x = y := by
  obtain ⟨path, _, way⟩ := first
  obtain ⟨path', _, way'⟩ := second
  exact way.eq_of_slots way'

/-- Document order compares slots. -/
theorem documentOrder_eq_ok (first : a.Found top is x) (second : a.Found top js y) :
    a.documentOrder x y = .ok (compare is js) := by
  obtain ⟨xs, read, way⟩ := first
  obtain ⟨ys, read', way'⟩ := second
  unfold documentOrder
  rw [read, ok_bind, read', ok_bind]
  dsimp only
  rw [if_pos rfl, way.compareLineages_eq_ok way']

/-- A child is found by one slot more. -/
theorem child (inside : a.Found top is p) (wf : a.WellFormed) (stored : a.get? p = some n)
    (found : n.element.children.idxOf? h = some i) : a.Found top (is ++ [i]) h := by
  obtain ⟨path, read, way⟩ := inside
  obtain ⟨hs, up⟩ := wf.exists_ascends stored
  have owned := wf.records stored h (mem_of_idxOf? found)
  refine ⟨path ++ [h], ?_, way.snoc stored found⟩
  unfold lineage at read ⊢
  rw [up.ancestors_eq_ok, ok_bind, pure_eq_ok] at read
  rw [(Ascends.up owned up).ancestors_eq_ok, ok_bind, List.reverse_cons, read]
  rfl

end Found

theorem Reachable.at (reached : a.Reachable h) (wf : a.WellFormed) : ∃ is, a.At is h := by
  obtain ⟨path, read, way⟩ := wf.lineage_eq_ok reached
  obtain ⟨is, way⟩ := way.takes wf
  exact ⟨is, path, read, way⟩

theorem At.found (place : a.At is h) : a.Found a.root is h := place

theorem At.unique (first : a.At is h) (second : a.At js h) : is = js :=
  (first.found.unique second.found).2

theorem compare_append_left (is js ks : List Nat) :
    compare (is ++ js) (is ++ ks) = compare js ks := by
  induction is with
  | nil => rfl
  | cons i is ih =>
    rw [List.cons_append, List.cons_append, List.compare_cons_cons, Std.compare_self, ih]
    rfl

/-! ### The order -/

theorem Before.irrefl : ¬ a.Before x x := by
  rintro ⟨is, js, first, second, less⟩
  rw [first.unique second, Std.compare_self] at less
  cases less

theorem Before.ne (before : a.Before x y) : x ≠ y := by
  rintro rfl
  exact before.irrefl

theorem Before.trans (first : a.Before x y) (second : a.Before y z) : a.Before x z := by
  obtain ⟨is, js, atX, atY, less⟩ := first
  obtain ⟨js', ks, atY', atZ, less'⟩ := second
  obtain rfl := atY.unique atY'
  exact ⟨is, ks, atX, atZ, Std.TransCmp.lt_trans less less'⟩

theorem Before.asymm (first : a.Before x y) : ¬ a.Before y x :=
  fun second => (first.trans second).irrefl

/-- Of two reachable elements that are not before each other both are the same. -/
theorem Reachable.compared (first : a.Reachable x) (second : a.Reachable y) (wf : a.WellFormed) :
    ∃ o, a.documentOrder x y = .ok o ∧ (o = .lt → a.Before x y) ∧ (o ≠ .lt → y = x ∨ a.Before y x) := by
  obtain ⟨is, atX⟩ := first.at wf
  obtain ⟨js, atY⟩ := second.at wf
  refine ⟨_, atX.found.documentOrder_eq_ok atY.found, fun less => ⟨is, js, atX, atY, less⟩,
    fun other => ?_⟩
  cases order : compare is js with
  | lt => exact absurd order other
  | eq =>
    cases Std.LawfulEqCmp.eq_of_compare order
    exact .inl (atY.found.eq_of_slots atX.found)
  | gt => exact .inr ⟨js, is, atY, atX, Std.OrientedCmp.gt_iff_lt.mp order⟩

/-- Two lists in document order with the same elements are one. -/
theorem eq_of_before (sorted : xs.Pairwise a.Before) (sorted' : ys.Pairwise a.Before)
    (same : ∀ x, x ∈ xs ↔ x ∈ ys) : xs = ys := by
  have perm := (List.perm_ext_iff_of_nodup (sorted.imp Before.ne) (sorted'.imp Before.ne)).mpr same
  exact perm.eq_of_pairwise (fun x y _ _ first second => absurd second first.asymm) sorted sorted'

namespace WellFormed

/-- The children of an element are in document order. -/
theorem children_sorted (wf : a.WellFormed) (reached : a.Reachable p) (stored : a.get? p = some n) :
    n.element.children.Pairwise a.Before := by
  obtain ⟨is, inside⟩ := reached.at wf
  rw [List.pairwise_iff_getElem]
  intro i j first second less
  have atSlot : ∀ {k} (bound : k < n.element.children.length),
      a.At (is ++ [k]) n.element.children[k] := fun bound =>
    inside.found.child wf stored (idxOf?_getElem (wf.distinct stored) bound)
  refine ⟨_, _, atSlot first, atSlot second, ?_⟩
  rw [compare_append_left, List.compare_cons_cons, compare_lt_iff_lt.mpr less]
  rfl

end WellFormed

end Arena

namespace Selection

open Arena

variable {a : Arena} {h : Handle} {hs ks l : List Handle}

/-! ### Sorting -/

theorem insertReversed_eq_ok (wf : a.WellFormed) (reached : ∀ x ∈ h :: l, a.Reachable x)
    (sorted : l.Pairwise fun x y => y = x ∨ a.Before y x) :
    ∃ l', insertReversed a h l = .ok l' ∧ l'.Perm (h :: l) ∧
      l'.Pairwise fun x y => y = x ∨ a.Before y x := by
  induction l with
  | nil => exact ⟨[h], rfl, .refl _, List.pairwise_singleton _ _⟩
  | cons last before ih =>
    obtain ⟨first, later⟩ := List.forall_mem_cons.mp reached
    obtain ⟨second, rest⟩ := List.forall_mem_cons.mp later
    obtain ⟨below, sorted'⟩ := List.pairwise_cons.mp sorted
    obtain ⟨order, compared, less, notLess⟩ := first.compared second wf
    unfold insertReversed
    rw [compared, ok_bind]
    by_cases smaller : order = .lt
    · obtain ⟨l', inserted, perm, sorted''⟩ := ih (List.forall_mem_cons.mpr ⟨first, rest⟩) sorted'
      rw [if_pos smaller, inserted, ok_bind]
      refine ⟨last :: l', rfl, (perm.cons last).trans (.swap h last before),
        List.pairwise_cons.mpr ⟨fun y member => ?_, sorted''⟩⟩
      rcases List.mem_cons.mp (perm.subset member) with rfl | inside
      · exact .inr (less smaller)
      · exact below y inside
    · rw [if_neg smaller]
      refine ⟨h :: last :: before, rfl, .refl _, List.pairwise_cons.mpr ⟨fun y member => ?_, sorted⟩⟩
      rcases List.mem_cons.mp member with rfl | inside
      · exact notLess smaller
      rcases notLess smaller with rfl | greater
      · exact below y inside
      rcases below y inside with rfl | greater'
      · exact .inr greater
      · exact .inr (greater'.trans greater)

theorem sortByDocument_eq_ok (wf : a.WellFormed) (reached : ∀ x ∈ hs, a.Reachable x) :
    ∃ l, sortByDocument a hs = .ok l ∧ l.Perm hs ∧ l.Pairwise fun x y => x = y ∨ a.Before x y := by
  have fold : ∀ hs l : List Handle, (∀ x ∈ hs ++ l, a.Reachable x) →
      (l.Pairwise fun x y => y = x ∨ a.Before y x) →
      ∃ l', hs.foldlM (fun sorted h => insertReversed a h sorted) l = .ok l' ∧
        l'.Perm (hs ++ l) ∧ l'.Pairwise fun x y => y = x ∨ a.Before y x := by
    intro hs
    induction hs with
    | nil => exact fun l _ sorted => ⟨l, rfl, .refl _, sorted⟩
    | cons h hs ih =>
      intro l reached sorted
      obtain ⟨l', inserted, perm, sorted'⟩ := insertReversed_eq_ok (h := h) (l := l) wf
        (fun x member => reached x (by grind)) sorted
      obtain ⟨l'', folded, perm', sorted''⟩ := ih l' (fun x member => reached x (by grind)) sorted'
      refine ⟨l'', ?_, perm'.trans ((perm.append_left hs).trans List.perm_middle), sorted''⟩
      rw [List.foldlM_cons, inserted, ok_bind, folded]
  obtain ⟨l, folded, perm, sorted⟩ := fold hs [] (by simpa using reached) .nil
  refine ⟨l.reverse, ?_, ?_, List.pairwise_reverse.mpr sorted⟩
  · unfold sortByDocument
    rw [folded]
    rfl
  · rw [List.append_nil] at perm
    exact (List.reverse_perm l).trans perm

/-! ### Repetitions -/

theorem mem_dropRepeated {x : Handle} : x ∈ dropRepeated l ↔ x ∈ l := by
  induction l using dropRepeated.induct with
  | case1 | case2 => rfl
  | case3 h rest ih =>
    rw [dropRepeated, if_pos rfl, ih, List.mem_cons (a := x) (l := h :: rest),
      or_iff_right_of_imp fun same => List.mem_cons.mpr (.inl same)]
  | case4 h k rest other ih => rw [dropRepeated, if_neg other, List.mem_cons, ih, ← List.mem_cons]

/-- In a sorted list equal elements are neighbours, so none is left twice. -/
theorem dropRepeated_sorted (sorted : l.Pairwise fun x y => x = y ∨ a.Before x y) :
    (dropRepeated l).Pairwise a.Before := by
  induction l using dropRepeated.induct with
  | case1 => exact .nil
  | case2 => exact List.pairwise_singleton _ _
  | case3 h rest ih =>
    rw [dropRepeated, if_pos rfl]
    exact ih (List.pairwise_cons.mp sorted).2
  | case4 h k rest other ih =>
    rw [dropRepeated, if_neg other]
    obtain ⟨front, later⟩ := List.pairwise_cons.mp sorted
    refine List.pairwise_cons.mpr ⟨fun y member => ?_, ih later⟩
    have next := (front k List.mem_cons_self).resolve_left other
    rcases List.mem_cons.mp (mem_dropRepeated.mp member) with rfl | inside
    · exact next
    · rcases (List.pairwise_cons.mp later).1 y inside with rfl | after
      · exact next
      · exact next.trans after

/-- Sorted and without repetitions, a list has each of its elements once, in document order. -/
theorem sorted_total (wf : a.WellFormed) (reached : ∀ x ∈ hs, a.Reachable x) :
    ∃ l, sortByDocument a hs = .ok l ∧ (dropRepeated l).Pairwise a.Before ∧
      ∀ x, x ∈ dropRepeated l ↔ x ∈ hs := by
  obtain ⟨l, read, perm, sorted⟩ := sortByDocument_eq_ok wf reached
  exact ⟨l, read, dropRepeated_sorted sorted, fun x => mem_dropRepeated.trans perm.mem_iff⟩

end Selection

end AlgebraEditor
