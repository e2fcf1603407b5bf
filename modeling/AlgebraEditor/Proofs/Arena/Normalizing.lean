import AlgebraEditor.Proofs.Arena.Exchanging
import AlgebraEditor.Proofs.Arena.Holding

/-!
# Normalizing a list

What the nodes of an arena are after children have left a list. `Thinned` tells those after the
first write, and `Removed` those after all: the list stays if two or more children are left, and
leaves its slot to the only one or to its identity if not.
-/

namespace AlgebraEditor

namespace Element

variable {e : Element} {xs : List Handle} {old x : Handle}

/-- The children that are left when some are removed. -/
def remaining (e : Element) (xs : List Handle) : List Handle := e.children.filter (!xs.contains ·)

theorem mem_remaining : x ∈ e.remaining xs ↔ x ∈ e.children ∧ x ∉ xs := by
  simp [remaining]

theorem replaceChild_self : e.replaceChild old old = e := by
  cases e with
  | product hs | sum hs => rw [replaceChild, replace_self]
  | _ => grind [replaceChild]

theorem replaceChild_of_notMem (absent : old ∉ e.children) {new : Handle} :
    e.replaceChild old new = e := by
  cases e <;> grind [replaceChild, children, List.replace_of_not_mem]

end Element

namespace Arena

variable {a b : Arena} {list owner r x : Handle} {rest xs : List Handle} {e : Element}
  {n m : Node} {t : Term}

/-! ### Fewer children -/

/-- The list has kept the children `rest`, and nothing that was stored has changed but for the
children that have left it. -/
structure Thinned (a : Arena) (list : Handle) (rest : List Handle) (b : Arena) : Prop where
  wf : b.WellFormed
  root : b.root = a.root
  container : ∀ {n}, a.get? list = some n →
    b.get? list = some ⟨n.parent, n.element.modifyList fun _ => rest⟩
  left : ∀ {x n}, a.get? x = some n → n.parent = some list → x ∉ rest →
    b.get? x = some ⟨none, n.element⟩
  kept : ∀ {x n}, a.get? x = some n → x ≠ list → (n.parent = some list → x ∈ rest) →
    b.get? x = some n

theorem thinned_rewire (wf : a.WellFormed) (stored : a.get? list = some n)
    (isList : n.element.kind.isList = true) (part : rest.Sublist n.element.children) :
    a.Thinned list rest (a.rewire list (n.element.modifyList fun _ => rest)) := by
  have rewirable := Edit.rewirable_sublist wf stored isList part
  have children := Element.children_modifyList (fun _ => rest) isList
  refine ⟨wf.rewire stored rewirable, rfl, fun held => ?_, fun held child gone => ?_,
    fun held other stays => ?_⟩
  · cases stored.symm.trans held
    exact rewirable.get?_container wf stored
  · have owned := (owner?_of_get? held).trans child
    exact get?_rewire_of_left held (wf.irrefl owned) (by rwa [children]) child
  · refine get?_rewire_of_iff held other ?_
    rw [children]
    refine ⟨fun inside => ?_, stays⟩
    rw [← owner?_of_get? held]
    exact wf.records stored _ (part.subset inside)

theorem Thinned.plant (thinned : a.Thinned list rest b) (unwrapped : t.Unwrapped) :
    a.Thinned list rest (b.plant t) where
  wf := thinned.wf.plant unwrapped
  root := thinned.root
  container stored := get?_plant_of_stored (thinned.container stored) t
  left stored child gone := get?_plant_of_stored (thinned.left stored child gone) t
  kept stored other stays := get?_plant_of_stored (thinned.kept stored other stays) t

/-! ### Removing and normalizing -/

/-- The children `xs` have been removed from the list that held `e` in a slot of `owner`, and `r`
stands in this slot now. -/
structure Removed (a : Arena) (list owner : Handle) (e : Element) (xs : List Handle) (r : Handle)
    (b : Arena) : Prop where
  wf : b.WellFormed
  root : b.root = a.root
  slot : ∀ {m}, a.get? owner = some m →
    b.get? owner = some ⟨m.parent, m.element.replaceChild list r⟩
  long : 2 ≤ (e.remaining xs).length →
    r = list ∧ b.get? list = some ⟨some owner, e.modifyList fun _ => e.remaining xs⟩
  short : (e.remaining xs).length < 2 → b.get? list = some ⟨none, e.modifyList fun _ => []⟩
  single : ∀ {only}, e.remaining xs = [only] →
    r = only ∧ ∀ {m}, a.get? only = some m → b.get? only = some ⟨some owner, m.element⟩
  empty : e.remaining xs = [] → a.get? r = none ∧
    b.get? r = some ⟨some owner, .integer (if e.kind = .sum then 0 else 1)⟩
  removed : ∀ {x m}, x ∈ xs → a.get? x = some m → b.get? x = some ⟨none, m.element⟩
  kept : ∀ {x m}, a.get? x = some m → x ∉ xs → x ≠ list → x ≠ owner → e.remaining xs ≠ [x] →
    b.get? x = some m

/-- If the list stays, what owns it stays as it was. -/
theorem Removed.owner_kept (removed : a.Removed list owner e xs r b)
    (long : 2 ≤ (e.remaining xs).length) (around : a.get? owner = some m) :
    b.get? owner = some m := by
  obtain ⟨rfl, -⟩ := removed.long long
  rw [removed.slot around, Element.replaceChild_self]

/-- Only the list and what owns it change their elements. -/
theorem Removed.element_kept (removed : a.Removed list owner e xs r b) (held : a.get? x = some m)
    (notList : x ≠ list) (notOwner : x ≠ owner) :
    ∃ m', b.get? x = some m' ∧ m'.element = m.element := by
  by_cases listed : x ∈ xs
  · exact ⟨_, removed.removed listed held, rfl⟩
  by_cases only : e.remaining xs = [x]
  · exact ⟨_, (removed.single only).2 held, rfl⟩
  exact ⟨m, removed.kept held listed notList notOwner only, rfl⟩

section

variable {d : Arena} (wf : a.WellFormed) (stored : a.get? list = some ⟨some owner, e⟩)

include wf stored

theorem child_of_parent (held : a.get? x = some m) (child : m.parent = some list) :
    x ∈ e.children :=
  (wf.mem_children_iff stored).mpr ((owner?_of_get? held).trans child)

theorem ne_owner_of_child (child : x ∈ e.children) : x ≠ list ∧ x ≠ owner := by
  have owned := wf.records stored x child
  refine ⟨wf.irrefl owned, ?_⟩
  rintro rfl
  exact wf.acyclic list ((isAbove_of_owner? owned).tail (owner?_of_get? stored))

/-- What owns the list does not lie in it. -/
theorem owner_outside (around : a.get? owner = some m) :
    owner ≠ list ∧ m.parent ≠ some list :=
  ⟨Ne.symm (wf.irrefl (owner?_of_get? stored)), fun child =>
    (ne_owner_of_child wf stored (child_of_parent wf stored around child)).2 rfl⟩

/-- A list of two children or more stays where it is. -/
theorem removed_long (inside : ∀ x ∈ xs, x ∈ e.children)
    (thinned : a.Thinned list (e.remaining xs) b) (long : 2 ≤ (e.remaining xs).length) :
    a.Removed list owner e xs list b := by
  refine ⟨thinned.wf, thinned.root, fun around => ?_, fun _ => ⟨rfl, thinned.container stored⟩,
    fun short => absurd short (Nat.not_lt.mpr long), fun single => ?_, fun empty => ?_,
    fun listed held => ?_, fun held outside notList _ _ => ?_⟩
  · obtain ⟨other, apart⟩ := owner_outside wf stored around
    rw [Element.replaceChild_self]
    exact thinned.kept around other fun child => absurd child apart
  · rw [single] at long
    cases Nat.le_of_succ_le_succ long
  · rw [empty] at long
    cases long
  · have child := (owner?_of_get? held).symm.trans (wf.records stored _ (inside _ listed))
    exact thinned.left held child fun kept => (Element.mem_remaining.mp kept).2 listed
  · exact thinned.kept held notList fun child =>
      Element.mem_remaining.mpr ⟨child_of_parent wf stored held child, outside⟩

/-- A list of fewer children leaves its slot to what it stands for. -/
theorem removed_short (inside : ∀ x ∈ xs, x ∈ e.children) (thinned : a.Thinned list [] d)
    (exchanged : d.Exchanged owner list r b) (stands : e.remaining xs = [r] ∨ (e.remaining xs = [] ∧
      a.get? r = none ∧ d.get? r = some ⟨none, .integer (if e.kind = .sum then 0 else 1)⟩)) :
    a.Removed list owner e xs r b := by
  have different : ∀ {x m}, a.get? x = some m → e.remaining xs ≠ [x] → x ≠ r := by
    rintro x m held other rfl
    rcases stands with only | ⟨_, fresh, _⟩
    · exact other only
    · rw [held] at fresh
      cases fresh
  have emptied : ∀ {x m}, a.get? x = some m → m.parent = some list →
      d.get? x = some ⟨none, m.element⟩ := fun held child =>
    thinned.left held child List.not_mem_nil
  refine ⟨exchanged.wf, exchanged.root.trans thinned.root, fun around => ?_, fun long => ?_,
    fun _ => exchanged.left (thinned.container stored), fun single => ?_, fun empty => ?_,
    fun listed held => ?_, fun held outside notList notOwner other => ?_⟩
  · obtain ⟨other, apart⟩ := owner_outside wf stored around
    exact exchanged.container (thinned.kept around other fun child => absurd child apart)
  · rcases stands with same | ⟨same, _⟩ <;> simp [same] at long
  · rcases stands with same | ⟨same, _⟩
    · cases same.symm.trans single
      have left : r ∈ e.remaining xs := by rw [single]; exact List.mem_singleton_self r
      have owned := wf.records stored r (Element.mem_remaining.mp left).1
      refine ⟨rfl, fun held => ?_⟩
      have free := emptied held ((owner?_of_get? held).symm.trans owned)
      exact (exchanged.came free :)
    · cases same.symm.trans single
  · rcases stands with same | ⟨_, fresh, integer⟩
    · cases same.symm.trans empty
    · exact ⟨fresh, exchanged.came integer⟩
  · have member := inside _ listed
    obtain ⟨notList, notOwner⟩ := ne_owner_of_child wf stored member
    have child := (owner?_of_get? held).symm.trans (wf.records stored _ member)
    refine exchanged.kept (emptied held child) notOwner notList (different held fun only => ?_)
    have left := Element.mem_remaining.mp (only ▸ List.mem_singleton_self _)
    exact left.2 listed
  · refine exchanged.kept (thinned.kept held notList fun child => ?_) notOwner notList
      (different held other)
    have left := Element.mem_remaining.mpr ⟨child_of_parent wf stored held child, outside⟩
    rcases stands with same | ⟨same, _⟩
    · rw [same] at left
      exact absurd (same.trans (List.mem_singleton.mp left ▸ rfl)) other
    · rwa [same] at left

/-- What the list does not lie in denotes what it did. -/
theorem Removed.denote_eq (removed : a.Removed list owner e xs r b) (held : a.get? x = some m)
    (notList : x ≠ list) (outside : ¬ a.IsAbove x list) : b.denote x = a.denote x := by
  have owned := owner?_of_get? stored
  refine wf.denote_congr removed.wf held fun y m place found => removed.element_kept found ?_ ?_
  · rintro rfl
    exact place.elim (Ne.symm notList) outside
  · rintro rfl
    refine outside ?_
    rcases place with rfl | above
    · exact isAbove_of_owner? owned
    · exact above.tail owned

/-- What is left of the list lies where the list was. -/
theorem Removed.isAbove_left (removed : a.Removed list owner e xs r b)
    (isList : e.kind.isList = true) (left : x ∈ e.remaining xs) : b.IsAbove owner x := by
  rcases Nat.lt_or_ge (e.remaining xs).length 2 with short | long
  · obtain ⟨only, single⟩ := List.length_eq_one_iff.mp
      (Nat.le_antisymm (Nat.le_of_lt_succ short) (List.length_pos_of_mem left))
    rw [single] at left
    cases List.mem_singleton.mp left
    have child := (Element.mem_remaining.mp (single ▸ List.mem_singleton_self x)).1
    obtain ⟨m, held⟩ := wf.stored_of_mem_children stored child
    exact isAbove_of_owner? (owner?_of_get? ((removed.single single).2 held))
  · obtain ⟨-, held⟩ := removed.long long
    have above := isAbove_of_owner? (owner?_of_get? held)
    refine above.trans (removed.wf.isAbove_child held ?_)
    rwa [Element.children_modifyList _ isList]

/-- What owned the list stays in the expression if it was there. -/
theorem Removed.reachable_owner (removed : a.Removed list owner e xs r b)
    (inside : ∀ x ∈ xs, x ∈ e.children) (reached : a.Reachable list) : b.Reachable owner := by
  have owned := owner?_of_get? stored
  have reached' := reached.owner wf owned
  refine reached'.of_owners wf removed.wf removed.root fun y onTheWay => ?_
  have onTheWay' : a.Reachable y := by
    rcases onTheWay with rfl | above
    · exact reached'
    · exact reached'.above wf above
  obtain ⟨m, held⟩ := onTheWay'.stored wf
  rw [owner?_of_get? held]
  rcases onTheWay with rfl | above
  · rw [owner?_of_get? (removed.slot held)]
  have notList : y ≠ list := by
    rintro rfl
    exact wf.acyclic y (above.tail owned)
  have notOwner : y ≠ owner := by
    rintro rfl
    exact wf.acyclic y above
  -- no child of the list lies above the list
  have noChild : y ∉ e.children := fun child =>
    wf.acyclic y ((above.tail owned).tail (wf.records stored y child))
  rw [owner?_of_get? (removed.kept held (fun listed => noChild (inside y listed)) notList notOwner
    fun only => noChild (Element.mem_remaining.mp (only ▸ List.mem_singleton_self y)).1)]

/-- What lies in a removed child stays as it was. -/
theorem Removed.kept_below {y : Handle} (removed : a.Removed list owner e xs r b)
    (inside : ∀ x ∈ xs, x ∈ e.children) (listed : x ∈ xs) (below : a.IsAbove x y)
    (held : a.get? y = some m) : b.get? y = some m := by
  have above := isAbove_of_owner? (wf.records stored x (inside x listed))
  have noChild : y ∉ e.children := fun child => by
    obtain ⟨p, owned, rest⟩ := isAbove_iff.mp below
    cases owned.symm.trans (wf.records stored y child)
    rcases rest with rfl | circle
    · exact wf.acyclic x above
    · exact wf.acyclic x (circle.trans above)
  refine removed.kept held (fun member => noChild (inside y member)) ?_ ?_ fun only => ?_
  · rintro rfl
    exact wf.acyclic x (below.trans above)
  · rintro rfl
    exact wf.acyclic x ((below.tail (owner?_of_get? stored)).trans above)
  · exact noChild (Element.mem_remaining.mp (only ▸ List.mem_singleton_self y)).1

end

end Arena

namespace Edit

open Arena

variable {a : Arena} {list owner : Handle} {k : Nat} {xs : List Handle} {e : Element} {m : Node}

/-- Removing distinct children of an owned list goes through, and normalizes the list. -/
theorem exists_removed (wf : a.WellFormed) (stored : a.get? list = some ⟨some owner, e⟩)
    (isList : e.kind.isList = true) (nodup : xs.Nodup) (inside : ∀ x ∈ xs, x ∈ e.children) :
    ∃ r b, (removeChildren list xs).run a = .ok r b ∧ a.Removed list owner e xs r b := by
  have owned := owner?_of_get? stored
  obtain ⟨m, around⟩ := wf.stored_of_owner? owned
  have member := (wf.mem_children_iff around).mpr owned
  obtain ⟨other, apart⟩ := owner_outside wf stored around
  obtain ⟨r, b, run, normalized⟩ :=
    exists_run_removeChildren wf stored isList owned around nodup inside
  refine ⟨r, b, run, ?_⟩
  have emptied := thinned_rewire wf stored isList (List.nil_sublist _)
  have around' := emptied.kept around other fun child => absurd child apart
  change Normalized a list e owner m.element (e.remaining xs) r b at normalized
  match left : e.remaining xs with
  | [] =>
    rw [left] at normalized
    obtain ⟨value, identity, rfl, rfl⟩ := normalized
    have worth : value = if e.kind = .sum then 0 else 1 := by
      cases kind : e.kind <;> simp_all [Kind.identity?]
    have zero := Term.unwrapped_integer value
    have leaf := get?_plant_next (a := a.rewire list (e.modifyList fun _ => []))
      (t := .integer value)
    have exchanged := exchanged_rewire (emptied.wf.plant zero) (get?_plant_of_stored around' _)
      member (attachable_plant emptied.wf around')
    rw [next_rewire] at leaf exchanged
    refine removed_short wf stored inside (emptied.plant zero) exchanged
      (.inr ⟨left, get?_next a, ?_⟩)
    rw [leaf, worth]
    rfl
  | [only] =>
    rw [left] at normalized
    obtain ⟨rfl, rfl⟩ := normalized
    have child := (Element.mem_remaining.mp (left ▸ List.mem_singleton_self r)).1
    exact removed_short wf stored inside emptied (exchanged_rewire emptied.wf around' member
      (attachable_emptied wf stored isList child around member)) (.inl left)
  | x :: y :: rest =>
    rw [left] at normalized
    obtain ⟨rfl, rfl⟩ := normalized
    have part : (e.remaining xs).Sublist e.children := List.filter_sublist
    have thinned := thinned_rewire wf stored isList part
    rw [left] at thinned
    exact removed_long wf stored inside (left ▸ thinned) (by simp [left])

theorem removed_of_run {r : Handle} {b : Arena} (wf : a.WellFormed)
    (run : (removeChildren list xs).run a = .ok r b) : ∃ owner e,
      a.get? list = some ⟨some owner, e⟩ ∧ e.kind.isList = true ∧ (∀ x ∈ xs, x ∈ e.children) ∧
      a.Removed list owner e xs r b := by
  obtain ⟨⟨parent, e⟩, owner, m, stored, isList, owned, _, nodup, inside, _⟩ :=
    (run_removeChildren_eq_ok wf).mp run
  cases (owner?_of_get? stored).symm.trans owned
  obtain ⟨r', b', run', removed⟩ := exists_removed wf stored isList nodup inside
  cases run.symm.trans run'
  exact ⟨owner, e, stored, isList, inside, removed⟩

/-- Distinct children can be removed from an owned list in any order. Two or more that are left stay
in the list, the only one that is left takes the slot of the list, and the identity takes it if none
is left. The removed children keep what lies in them, and nothing else changes. -/
theorem removeChildren_normalizes (wf : a.WellFormed)
    (stored : a.get? list = some ⟨some owner, e⟩) (isList : e.kind.isList = true)
    (around : a.get? owner = some m) (slot : m.element.children[k]? = some list)
    (nodup : xs.Nodup) (inside : ∀ x ∈ xs, x ∈ e.children) :
    ∃ r b, (removeChildren list xs).run a = .ok r b ∧ a.Removed list owner e xs r b ∧
      (∃ m', b.get? owner = some m' ∧ m'.parent = m.parent ∧ m'.element.kind = m.element.kind ∧
        m'.element.children = m.element.children.set k r) ∧
      ∀ x ∈ xs, ∀ y n, a.IsAbove x y → a.get? y = some n → b.get? y = some n := by
  obtain ⟨r, b, run, removed⟩ := exists_removed wf stored isList nodup inside
  have positions := Element.children_replaceChild_eq_set r (wf.distinct around) slot
  exact ⟨r, b, run, removed,
    ⟨_, removed.slot around, rfl, Element.kind_replaceChild .., positions⟩,
    fun x listed y n below held => removed.kept_below wf stored inside listed below held⟩

/-- In the sum `a*b*c + d` the product loses its last factor and its first, and leaves its slot to
the one between them. -/
theorem removeChildren_normalizes_of_product : ∃ a : Arena, a.WellFormed ∧
    a.get? ⟨3⟩ = some ⟨some ⟨2⟩, .product [⟨4⟩, ⟨5⟩, ⟨6⟩]⟩ ∧
    a.get? ⟨2⟩ = some ⟨none, .sum [⟨3⟩, ⟨7⟩]⟩ ∧
    ∃ b, (removeChildren ⟨3⟩ [⟨6⟩, ⟨4⟩]).run a = .ok ⟨5⟩ b ∧
      b.get? ⟨2⟩ = some ⟨none, .sum [⟨5⟩, ⟨7⟩]⟩ ∧ b.get? ⟨3⟩ = some ⟨none, .product []⟩ := by
  obtain ⟨a, same⟩ : ∃ a, a = zero.plant
    (.sum [.product [.symbol "a", .symbol "b", .symbol "c"], .symbol "d"]) := ⟨_, rfl⟩
  have wf : a.WellFormed := same ▸ wellFormed_zero.plant (by decide)
  have stored : a.get? ⟨3⟩ = some ⟨some ⟨2⟩, .product [⟨4⟩, ⟨5⟩, ⟨6⟩]⟩ := same ▸ rfl
  have around : a.get? ⟨2⟩ = some ⟨none, .sum [⟨3⟩, ⟨7⟩]⟩ := same ▸ rfl
  have nodup : ([⟨6⟩, ⟨4⟩] : List Handle).Nodup := by decide
  obtain ⟨r, b, run, removed, _⟩ :=
    removeChildren_normalizes (k := 0) wf stored rfl around rfl nodup (by decide)
  have only : (Element.product [⟨4⟩, ⟨5⟩, ⟨6⟩]).remaining [⟨6⟩, ⟨4⟩] = [⟨5⟩] := rfl
  obtain ⟨rfl, _⟩ := removed.single only
  exact ⟨a, wf, stored, around, b, run, removed.slot around, removed.short (by decide)⟩

end Edit

namespace Arena

variable {a b : Arena} {p r : Handle} {hs xs : List Handle}

/-- A list that is left with two or more children stays. -/
theorem Holds.removeChildren (holds : a.Holds p hs) (wf : a.WellFormed)
    (run : (Edit.removeChildren p xs).run a = .ok r b)
    (long : 2 ≤ (hs.filter (!xs.contains ·)).length) : b.Holds p (hs.filter (!xs.contains ·)) := by
  obtain ⟨owner, e, stored, isList, inside, removed⟩ := Edit.removed_of_run wf run
  obtain ⟨n, held, rfl⟩ := holds.children
  cases stored.symm.trans held
  obtain ⟨-, kept⟩ := removed.long long
  have reached := removed.reachable_owner wf stored inside holds.reached
  exact ⟨reached.step removed.wf (owner?_of_get? kept), _, kept, Element.children_modifyList _ isList⟩

end Arena

end AlgebraEditor
