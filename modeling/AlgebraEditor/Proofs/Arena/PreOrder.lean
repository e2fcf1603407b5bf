import AlgebraEditor.Proofs.Arena.Splicing
import AlgebraEditor.Proofs.Law.Basic
import AlgebraEditor.Proofs.Selection.Order
import Mathlib.Order.RelIso.Basic

/-!
# Document order is pre-order

The pre-order of an element is sorted by document order, in every part of an arena and not only below
the root. So comparing two ways down tells which of two elements a walk over the whole part meets
first. The walk may as well be one that keeps a stack of the elements still to be visited.
-/

namespace AlgebraEditor.Arena

/-- The element lies in what hangs from `top`, which nothing owns. -/
def Tops (a : Arena) (top h : Handle) : Prop := a.owner? top = none ∧ a.Encloses top h

/-- The walk with a stack: the topmost element is visited, and its children take its place, the first
one topmost. -/
def visit (a : Arena) : Nat → List Handle → Except Fault (List Handle)
  | _, [] => return []
  | 0, h :: _ => throw (.endless h)
  | steps + 1, h :: waiting => do
    let below ← a.children h
    return h :: (← visit a steps (below ++ waiting))

variable {a : Arena} {h p s t x y : Handle} {n m : Node} {slots : List Nat} {d d' steps : Nat}
variable {xs ys waiting : List Handle}

/-! ### What an element hangs from -/

theorem Encloses.of_owner? (owned : a.owner? x = some p) (inside : a.Encloses t p) :
    a.Encloses t x := by
  rcases inside with rfl | above
  · exact .inr (isAbove_of_owner? owned)
  · exact .inr (above.trans (isAbove_of_owner? owned))

theorem Tops.unique (first : a.Tops s x) (second : a.Tops t x) : s = t := by
  have lowest : ∀ {u v : Handle}, a.owner? v = none → ¬ a.IsAbove u v := by
    intro u v free above
    obtain ⟨p, owned, -⟩ := isAbove_iff.mp above
    cases free.symm.trans owned
  obtain ⟨free, inside⟩ := first
  obtain ⟨free', inside'⟩ := second
  rcases inside with rfl | above <;> rcases inside' with rfl | above'
  · rfl
  · exact absurd above' (lowest free)
  · exact absurd above (lowest free')
  · rcases above.comparable above' with same | higher | higher
    · exact same
    · exact absurd higher (lowest free')
    · exact absurd higher (lowest free)

theorem Ascends.found {hs : List Handle} (up : a.Ascends h hs) (wf : a.WellFormed) :
    ∃ t slots, a.Tops t h ∧ a.Found t slots h := by
  induction up with
  | @top h n stored free =>
    refine ⟨h, [], ⟨(owner?_of_get? stored).trans free, .inl rfl⟩, [], ?_, .here h⟩
    unfold lineage
    rw [(Ascends.top stored free).ancestors_eq_ok]
    rfl
  | up owned _ ih =>
    obtain ⟨t, slots, ⟨free, inside⟩, place⟩ := ih
    obtain ⟨n, stored, member⟩ := wf.holds owned
    obtain ⟨i, found⟩ := exists_idxOf? member
    exact ⟨t, slots ++ [i], ⟨free, inside.of_owner? owned⟩, place.child wf stored found⟩

/-- Every stored element is found below the one that it hangs from. -/
theorem WellFormed.exists_found (wf : a.WellFormed) (stored : a.get? h = some n) :
    ∃ t slots, a.Tops t h ∧ a.Found t slots h := by
  obtain ⟨hs, up⟩ := wf.exists_ascends stored
  exact up.found wf

theorem Found.of_tops (wf : a.WellFormed) (stored : a.get? h = some n) (top : a.Tops t h) :
    ∃ slots, a.Found t slots h := by
  obtain ⟨s, slots, top', place⟩ := wf.exists_found stored
  cases top.unique top'
  exact ⟨slots, place⟩

theorem documentOrder_of_ne {is js : List Nat} (first : a.Found s is x) (second : a.Found t js y)
    (other : s ≠ t) : a.documentOrder x y = .error (.unrelated x y) := by
  obtain ⟨xs, read, -⟩ := first
  obtain ⟨ys, read', -⟩ := second
  unfold documentOrder
  rw [read, ok_bind, read', ok_bind]
  exact if_neg other

/-! ### Sorted walks -/

theorem compare_append_cons (is : List Nat) (j : Nat) (js : List Nat) :
    compare is (is ++ j :: js) = .lt := by
  have same := compare_append_left is [] (j :: js)
  rw [List.append_nil] at same
  exact same

/-- An element comes before everything that lies in it. -/
theorem Found.documentOrder_below (place : a.Found t slots x) (wf : a.WellFormed)
    (above : a.IsAbove x y) : a.documentOrder x y = .ok .lt := by
  have step : ∀ {p y is}, a.Found t is p → a.owner? y = some p → ∃ i, a.Found t (is ++ [i]) y := by
    intro p y is place owned
    obtain ⟨n, stored, member⟩ := wf.holds owned
    obtain ⟨i, found⟩ := exists_idxOf? member
    exact ⟨i, place.child wf stored found⟩
  have deeper : ∃ j js, a.Found t (slots ++ j :: js) y := by
    induction above with
    | single owned =>
      obtain ⟨i, place'⟩ := step place owned
      exact ⟨i, [], place'⟩
    | tail _ owned ih =>
      obtain ⟨j, js, place'⟩ := ih
      obtain ⟨i, place''⟩ := step place' owned
      rw [List.append_assoc, List.cons_append] at place''
      exact ⟨j, js ++ [i], place''⟩
  obtain ⟨j, js, place'⟩ := deeper
  rw [place.documentOrder_eq_ok place', compare_append_cons]

/-- A walk down is sorted by document order. The elements of a child are found by the slot of the
child and more, so those of an earlier child come before those of a later one. -/
theorem Found.descend_sorted (place : a.Found t slots h) (wf : a.WellFormed)
    (stored : a.get? h = some n) (enough : (a.below h).card < d) :
    ∃ xs, a.descend d h = .ok xs ∧ (∀ x ∈ xs, ∃ is, a.Found t (slots ++ is) x) ∧
      xs.Pairwise fun x y => a.documentOrder x y = .ok .lt := by
  refine wf.depth_induction (motive := fun d h => ∀ {slots}, a.Found t slots h →
    ∃ xs, a.descend d h = .ok xs ∧ (∀ x ∈ xs, ∃ is, a.Found t (slots ++ is) x) ∧
      xs.Pairwise fun x y => a.documentOrder x y = .ok .lt)
    (fun d h n stored ih slots place => ?_) stored enough place
  have each : ∀ c ∈ n.element.children, ∃ xs, a.descend d c = .ok xs ∧
      (∀ i, n.element.children.idxOf? c = some i → ∀ x ∈ xs, ∃ is, a.Found t (slots ++ i :: is) x) ∧
      xs.Pairwise fun x y => a.documentOrder x y = .ok .lt := by
    intro c member
    have above := wf.isAbove_child stored member
    obtain ⟨i, found⟩ := exists_idxOf? member
    obtain ⟨xs, read, places, sorted⟩ := ih c above (place.child wf stored found)
    refine ⟨xs, read, fun j found' x inside => ?_, sorted⟩
    cases found.symm.trans found'
    obtain ⟨is, place⟩ := places x inside
    rw [List.append_assoc] at place
    exact ⟨is, place⟩
  choose! parts read places sorted using each
  have slot : ∀ x ∈ n.element.children.flatMap parts, ∃ i is, a.Found t (slots ++ i :: is) x := by
    intro x listed
    obtain ⟨c, member, inside⟩ := List.mem_flatMap.mp listed
    obtain ⟨i, found⟩ := exists_idxOf? member
    exact ⟨i, places c member i found x inside⟩
  refine ⟨h :: n.element.children.flatMap parts, ?_, ?_, ?_⟩
  · unfold descend
    rw [children_of_get? stored, ok_bind, mapM_eq_map read, List.flatMap_def]
    rfl
  · refine List.forall_mem_cons.mpr ⟨⟨[], by rwa [List.append_nil]⟩, fun x listed => ?_⟩
    obtain ⟨i, is, place⟩ := slot x listed
    exact ⟨i :: is, place⟩
  · refine List.pairwise_cons.mpr ⟨fun x listed => ?_, List.pairwise_flatMap.mpr ⟨sorted, ?_⟩⟩
    · obtain ⟨i, is, place'⟩ := slot x listed
      rw [place.documentOrder_eq_ok place', compare_append_cons]
    · rw [List.pairwise_iff_getElem]
      intro i j first second less x inside y inside'
      have index := fun {k} (bound : k < n.element.children.length) =>
        idxOf?_getElem (wf.distinct stored) bound
      obtain ⟨is, place⟩ := places _ (List.getElem_mem first) i (index first) x inside
      obtain ⟨js, place'⟩ := places _ (List.getElem_mem second) j (index second) y inside'
      rw [place.documentOrder_eq_ok place', compare_append_left, List.compare_cons_cons,
        compare_lt_iff_lt.mpr less]
      rfl

/-- In a sorted list document order compares positions. -/
theorem documentOrder_eq_compare (places : ∀ x ∈ xs, ∃ is, a.Found t is x)
    (sorted : xs.Pairwise fun x y => a.documentOrder x y = .ok .lt) (first : x ∈ xs)
    (second : y ∈ xs) : a.documentOrder x y = .ok (compare (xs.idxOf x) (xs.idxOf y)) := by
  have before : ∀ {x y}, x ∈ xs → y ∈ xs → xs.idxOf x < xs.idxOf y →
      a.documentOrder x y = .ok .lt := by
    intro x y first second less
    have inOrder := List.pairwise_iff_getElem.mp sorted _ _ (List.idxOf_lt_length_of_mem first)
      (List.idxOf_lt_length_of_mem second) less
    rwa [List.getElem_idxOf, List.getElem_idxOf] at inOrder
  obtain ⟨is, place⟩ := places x first
  obtain ⟨js, place'⟩ := places y second
  rcases Nat.lt_trichotomy (xs.idxOf x) (xs.idxOf y) with less | same | greater
  · rw [before first second less, compare_lt_iff_lt.mpr less]
  · rw [same]
    cases (List.idxOf_inj first).mp same
    rw [place.documentOrder_eq_ok place, Std.compare_self, Std.compare_self]
  · have swapped := before second first greater
    rw [place'.documentOrder_eq_ok place, Except.ok.injEq] at swapped
    rw [place.documentOrder_eq_ok place', Std.OrientedCmp.gt_iff_lt.mpr swapped,
      compare_gt_iff_gt.mpr greater]

/-! ### Parts of a walk -/

/-- With more depth to go, the same is listed. -/
theorem descend_mono (read : a.descend d h = .ok xs) (more : d ≤ d') : a.descend d' h = .ok xs := by
  induction d generalizing h xs d' with
  | zero => cases read
  | succ d ih =>
    obtain ⟨d', rfl⟩ : ∃ k, d' = k + 1 := ⟨d' - 1, by omega⟩
    unfold descend at read ⊢
    obtain ⟨cs, children, rest⟩ := bind_eq_ok.mp read
    obtain ⟨parts, listed, same⟩ := bind_eq_ok.mp rest
    have listed' : cs.mapM (a.descend d') = .ok parts :=
      mapM_eq_ok.mpr ((mapM_eq_ok.mp listed).imp fun _ _ read => ih read (by omega))
    rw [children, ok_bind, listed', ok_bind, same]

/-- What lies in a child is listed without a break. -/
theorem preOrder_child (read : a.preOrder p = .ok ys) (stored : a.get? p = some n)
    (member : x ∈ n.element.children) : ∃ xs, a.preOrder x = .ok xs ∧ xs <:+: ys := by
  unfold preOrder reach descend at read
  rw [children_of_get? stored, ok_bind] at read
  obtain ⟨parts, listed, same⟩ := bind_eq_ok.mp read
  cases pure_eq_ok.mp same
  obtain ⟨i, bound, rfl⟩ := List.getElem_of_mem member
  have all := mapM_eq_ok.mp listed
  have bound' : i < parts.length := all.length_eq ▸ bound
  refine ⟨parts[i], descend_mono (all.get bound bound') (Nat.le_succ _), ?_⟩
  exact (List.infix_of_mem_flatten (List.getElem_mem bound')).trans (List.suffix_cons _ _).isInfix

/-- So is what lies in anything below. -/
theorem preOrder_infix (wf : a.WellFormed) (read : a.preOrder t = .ok ys) (inside : a.Encloses t x) :
    ∃ xs, a.preOrder x = .ok xs ∧ xs <:+: ys := by
  have child : ∀ {p x xs}, a.owner? x = some p → a.preOrder p = .ok xs → xs <:+: ys →
      ∃ xs, a.preOrder x = .ok xs ∧ xs <:+: ys := by
    intro p x xs owned read part
    obtain ⟨n, stored, member⟩ := wf.holds owned
    obtain ⟨zs, read', part'⟩ := preOrder_child read stored member
    exact ⟨zs, read', part'.trans part⟩
  rcases inside with rfl | above
  · exact ⟨ys, read, List.infix_refl ys⟩
  · induction above with
    | single owned => exact child owned read (List.infix_refl ys)
    | tail _ owned ih =>
      obtain ⟨xs, read', part⟩ := ih
      exact child owned read' part

/-- The walk with a stack takes one step for each element that it lists. -/
theorem visit_of_descend (read : a.descend d h = .ok xs) (rest : a.visit steps waiting = .ok ys) :
    a.visit (xs.length + steps) (h :: waiting) = .ok (xs ++ ys) := by
  induction d generalizing h xs steps waiting ys with
  | zero => cases read
  | succ d ih =>
    unfold descend at read
    obtain ⟨cs, children, others⟩ := bind_eq_ok.mp read
    obtain ⟨parts, listed, same⟩ := bind_eq_ok.mp others
    cases pure_eq_ok.mp same
    have below : a.visit (parts.flatten.length + steps) (cs ++ waiting) =
        .ok (parts.flatten ++ ys) := by
      clear children same others read
      have all := mapM_eq_ok.mp listed
      clear listed
      induction all with
      | nil =>
        rw [List.flatten_nil, List.length_nil, Nat.zero_add]
        exact rest
      | @cons c part cs parts first _ later =>
        rw [List.flatten_cons, List.length_append, Nat.add_assoc, List.append_assoc]
        exact ih first later
    rw [List.length_cons, Nat.add_right_comm, visit, children, ok_bind, below]
    rfl

/-! ### The order of a part -/

/-- Positions in a list without repetition are a strict total order of its members. -/
theorem isStrictTotalOrder_of_compare (compared : ∀ x ∈ xs, ∀ y ∈ xs,
    a.documentOrder x y = .ok (compare (xs.idxOf x) (xs.idxOf y))) :
    IsStrictTotalOrder {x // x ∈ xs} fun x y => a.documentOrder x y = .ok .lt := by
  let positions : (fun x y : {x // x ∈ xs} => a.documentOrder x y = .ok .lt) ↪r
      ((· < ·) : Nat → Nat → Prop) :=
    { toFun := fun x => xs.idxOf x.1
      inj' := fun x y same => Subtype.ext ((List.idxOf_inj x.2).mp same)
      map_rel_iff' := fun {x y} => by
        rw [compared x x.2 y y.2, Except.ok.injEq, compare_lt_iff_lt]
        rfl }
  exact positions.isStrictTotalOrder

/-- Two stored elements are compared exactly if they hang from the same element. What hangs from an
element that nothing owns is listed without repetition by the walk down from it, in finitely many
steps of the walk with a stack, and document order compares the positions in this list. So it is a
strict total order of this part, in which an element comes before all that lies in it and nothing
from outside comes between. -/
theorem document_order_is_pre_order (wf : a.WellFormed) :
    (∀ {x y n m}, a.get? x = some n → a.get? y = some m → ∃ s t, a.Tops s x ∧ a.Tops t y ∧
      ((∃ fault, a.documentOrder x y = .error fault) ↔ s ≠ t) ∧
      (s ≠ t → a.documentOrder x y = .error (.unrelated x y))) ∧
    ∀ {t n}, a.get? t = some n → n.parent = none → ∃ xs, a.preOrder t = .ok xs ∧ xs.Nodup ∧
      (∀ x, x ∈ xs ↔ a.Tops t x) ∧ a.visit xs.length [t] = .ok xs ∧
      (∀ x ∈ xs, ∀ y ∈ xs, a.documentOrder x y = .ok (compare (xs.idxOf x) (xs.idxOf y))) ∧
      IsStrictTotalOrder {x // x ∈ xs} (fun x y => a.documentOrder x y = .ok .lt) ∧
      (∀ x ∈ xs, ∀ y, a.IsAbove x y → a.documentOrder x y = .ok .lt) ∧
      ∀ x ∈ xs, ∃ ys, a.preOrder x = .ok ys ∧ ys <:+: xs := by
  refine ⟨fun {x y n m} stored stored' => ?_, fun {t n} stored free => ?_⟩
  · obtain ⟨s, is, top, place⟩ := wf.exists_found stored
    obtain ⟨t, js, top', place'⟩ := wf.exists_found stored'
    have apart := documentOrder_of_ne place place'
    refine ⟨s, t, top, top', ⟨fun ⟨fault, failed⟩ => ?_, fun other => ⟨_, apart other⟩⟩, apart⟩
    rintro rfl
    rw [place.documentOrder_eq_ok place'] at failed
    cases failed
  have unowned := (owner?_of_get? stored).trans free
  have top : a.Tops t t := ⟨unowned, .inl rfl⟩
  obtain ⟨slots, place⟩ := Found.of_tops wf stored top
  obtain ⟨xs, read, nodup, -, holds⟩ := wf.preOrder_eq_ok stored
  obtain ⟨_, read', places, sorted⟩ :=
    place.descend_sorted wf stored (a.card_below_lt_reach t)
  cases read.symm.trans read'
  have found : ∀ x ∈ xs, ∃ is, a.Found t is x := fun x listed => ⟨_, (places x listed).choose_spec⟩
  have compared : ∀ x ∈ xs, ∀ y ∈ xs,
      a.documentOrder x y = .ok (compare (xs.idxOf x) (xs.idxOf y)) :=
    fun x first y second => documentOrder_eq_compare found sorted first second
  refine ⟨xs, read, nodup, fun x => ?_, ?_, compared, isStrictTotalOrder_of_compare compared,
    fun x listed y above => ?_, fun x listed => preOrder_infix wf read ((holds x).mp listed)⟩
  · exact (holds x).trans ⟨fun inside => ⟨unowned, inside⟩, And.right⟩
  · have ended : a.visit (xs.length + 0) [t] = .ok (xs ++ []) := visit_of_descend read rfl
    rwa [Nat.add_zero, List.append_nil] at ended
  · obtain ⟨is, place'⟩ := found x listed
    exact place'.documentOrder_below wf above

/-- Beside `x + y*z` a sign in front of `w` is owned by nothing. The product and `w` cannot be
compared; the parts of the expression can, and so can the sign and `w`. -/
theorem document_order_is_pre_order_beside_sum : ∃ a : Arena, a.WellFormed ∧
    a.get? ⟨4⟩ = some ⟨some ⟨2⟩, .product [⟨5⟩, ⟨6⟩]⟩ ∧ a.get? ⟨8⟩ = some ⟨some ⟨7⟩, .symbol "w"⟩ ∧
    a.get? ⟨0⟩ = some ⟨none, .root ⟨2⟩⟩ ∧ a.get? ⟨7⟩ = some ⟨none, .negation ⟨8⟩⟩ ∧
    (∃ s t, a.Tops s ⟨4⟩ ∧ a.Tops t ⟨8⟩ ∧ s ≠ t ∧
      a.documentOrder ⟨4⟩ ⟨8⟩ = .error (.unrelated ⟨4⟩ ⟨8⟩)) ∧
    a.preOrder ⟨0⟩ = .ok [⟨0⟩, ⟨2⟩, ⟨3⟩, ⟨4⟩, ⟨5⟩, ⟨6⟩] ∧
    a.documentOrder ⟨5⟩ ⟨3⟩ = .ok (compare 4 2) ∧
    a.preOrder ⟨7⟩ = .ok [⟨7⟩, ⟨8⟩] ∧ a.documentOrder ⟨7⟩ ⟨8⟩ = .ok (compare 0 1) := by
  obtain ⟨a, same⟩ : ∃ a, a = ((zero.plant (.sum [.symbol "x", .product [.symbol "y",
    .symbol "z"]])).rewire ⟨0⟩ (.root ⟨2⟩)).plant (.negation (.symbol "w")) := ⟨_, rfl⟩
  have wf : a.WellFormed := by
    rw [same]
    exact (Edit.wellFormed_expression (by decide)).plant (by decide)
  have product : a.get? ⟨4⟩ = some ⟨some ⟨2⟩, .product [⟨5⟩, ⟨6⟩]⟩ := by rw [same]; rfl
  have letter : a.get? ⟨8⟩ = some ⟨some ⟨7⟩, .symbol "w"⟩ := by rw [same]; rfl
  have wrapper : a.get? ⟨0⟩ = some ⟨none, .root ⟨2⟩⟩ := by rw [same]; rfl
  have sign : a.get? ⟨7⟩ = some ⟨none, .negation ⟨8⟩⟩ := by rw [same]; rfl
  have refused : a.documentOrder ⟨4⟩ ⟨8⟩ = .error (.unrelated ⟨4⟩ ⟨8⟩) := by rw [same]; rfl
  have whole : a.preOrder ⟨0⟩ = .ok [⟨0⟩, ⟨2⟩, ⟨3⟩, ⟨4⟩, ⟨5⟩, ⟨6⟩] := by rw [same]; rfl
  have beside : a.preOrder ⟨7⟩ = .ok [⟨7⟩, ⟨8⟩] := by rw [same]; rfl
  obtain ⟨compares, lists⟩ := document_order_is_pre_order wf
  obtain ⟨s, t, top, top', apart, -⟩ := compares product letter
  obtain ⟨xs, read, -, -, -, compared, -⟩ := lists wrapper rfl
  obtain ⟨ys, read', -, -, -, compared', -⟩ := lists sign rfl
  cases whole.symm.trans read
  cases beside.symm.trans read'
  exact ⟨a, wf, product, letter, wrapper, sign,
    ⟨s, t, top, top', apart.mp ⟨_, refused⟩, refused⟩, whole,
    compared ⟨5⟩ (by decide) ⟨3⟩ (by decide), beside,
    compared' ⟨7⟩ (by decide) ⟨8⟩ (by decide)⟩

end AlgebraEditor.Arena
