import AlgebraEditor.Arena.Edit
import AlgebraEditor.Proofs.Arena.Denotation

/-!
# Reachability

What can be reached from the root is the expression. Sweeping keeps exactly that, and whatever
looks only at the expression cannot tell a swept arena from the one before.
-/

namespace AlgebraEditor.Arena

/-- The root, and the children of what is reachable. -/
inductive Reachable (a : Arena) : Handle → Prop where
  | root : Reachable a a.root
  | child {p c : Handle} {n : Node} : Reachable a p → a.get? p = some n → c ∈ n.element.children →
      Reachable a c

/-- The elements below the first one, on the way down to the last one. -/
inductive Descends (a : Arena) : Handle → List Handle → Handle → Prop where
  | here (h : Handle) : Descends a h [] h
  | down {p c h : Handle} {path : List Handle} : a.owner? c = some p → Descends a c path h →
      Descends a p (c :: path) h

variable {a b : Arena} {h p x y : Handle} {n : Node} {path : List Handle}

theorem Descends.snoc (way : a.Descends x path p) (owned : a.owner? h = some p) :
    a.Descends x (path ++ [h]) h := by
  induction way with
  | here p => exact .down owned (.here h)
  | down first _ ih => exact .down first (ih owned)

theorem Reachable.owner (reached : a.Reachable h) (wf : a.WellFormed) (owned : a.owner? h = some p) :
    a.Reachable p := by
  cases reached with
  | root =>
    rw [wf.owner?_root] at owned
    cases owned
  | child above stored member =>
    cases (wf.records stored h member).symm.trans owned
    exact above

theorem Reachable.stored (reached : a.Reachable h) (wf : a.WellFormed) : ∃ n, a.get? h = some n := by
  cases reached with
  | root =>
    obtain ⟨inner, stored⟩ := wf.wrapper
    exact ⟨_, stored⟩
  | child _ stored member => exact wf.stored_of_mem_children stored member

theorem Reachable.step (reached : a.Reachable p) (wf : a.WellFormed) (owned : a.owner? h = some p) :
    a.Reachable h := by
  obtain ⟨n, stored, member⟩ := wf.holds owned
  exact reached.child stored member

/-- Whatever lies below a reachable element is reachable. -/
theorem Reachable.down (reached : a.Reachable p) (wf : a.WellFormed) (above : a.IsAbove p h) :
    a.Reachable h := by
  induction above with
  | single owned => exact reached.step wf owned
  | tail _ owned ih => exact ih.step wf owned

/-- Apart from the root itself, what is reachable is owned. -/
theorem Reachable.owned (reached : a.Reachable h) (wf : a.WellFormed) (other : h ≠ a.root) :
    ∃ p, a.owner? h = some p := by
  cases reached with
  | root => exact absurd rfl other
  | child _ stored member => exact ⟨_, wf.records stored h member⟩

theorem Reachable.eq_root (reached : a.Reachable h) (wf : a.WellFormed) (free : a.owner? h = none) :
    h = a.root := by
  by_contra other
  obtain ⟨p, owned⟩ := reached.owned wf other
  rw [free] at owned
  cases owned

theorem WellFormed.reachable_iff (wf : a.WellFormed) :
    a.Reachable h ↔ h = a.root ∨ a.IsAbove a.root h := by
  constructor
  · intro reached
    induction reached with
    | root => exact .inl rfl
    | child _ stored member ih =>
      have owned := isAbove_of_owner? (wf.records stored _ member)
      rcases ih with rfl | above
      · exact .inr owned
      · exact .inr (above.trans owned)
  · rintro (rfl | above)
    · exact .root
    · exact Reachable.root.down wf above

/-- The way up from what is reachable ends at the root. -/
theorem Reachable.descends (reached : a.Reachable h) (wf : a.WellFormed) :
    ∃ hs path, a.Ascends h hs ∧ hs.reverse ++ [h] = a.root :: path ∧ a.Descends a.root path h := by
  induction reached with
  | root =>
    obtain ⟨inner, stored⟩ := wf.wrapper
    exact ⟨[], [], .top stored rfl, rfl, .here a.root⟩
  | @child p c n _ stored member ih =>
    obtain ⟨hs, path, up, whole, way⟩ := ih
    have owned := wf.records stored c member
    refine ⟨p :: hs, path ++ [c], .up owned up, ?_, way.snoc owned⟩
    rw [List.reverse_cons, whole]
    rfl

theorem reachable_of_ascends (up : a.Ascends h path) (wf : a.WellFormed)
    (top : path.getLast? = some a.root) : a.Reachable h := by
  induction up with
  | top _ _ => cases top
  | @up h p hs owned up ih =>
    cases hs with
    | nil =>
      cases top
      exact Reachable.root.step wf owned
    | cons q hs => exact (ih top).step wf owned

theorem length_flatMap_eq_sizes {xs : List Handle} {parts : Handle → List Handle}
    (each : ∀ c ∈ xs, (parts c).length = (a.denote c).size) :
    (xs.flatMap parts).length = Term.sizes (xs.map a.denote) := by
  induction xs with
  | nil => rfl
  | cons c xs ih =>
    obtain ⟨head, tail⟩ := List.forall_mem_cons.mp each
    simp [Term.sizes, head, ih tail]

namespace WellFormed

theorem isReachable_eq_ok (wf : a.WellFormed) (stored : a.get? h = some n) :
    ∃ answer, a.isReachable h = .ok answer ∧ (answer = true ↔ a.Reachable h) := by
  unfold isReachable
  by_cases same : h = a.root
  · rw [if_pos same, same]
    exact ⟨true, rfl, fun _ => .root, fun _ => rfl⟩
  rw [if_neg same]
  obtain ⟨hs, up⟩ := wf.exists_ascends stored
  rw [up.ancestors_eq_ok, ok_bind]
  refine ⟨_, rfl, ?_⟩
  rw [decide_eq_true_iff]
  refine ⟨reachable_of_ascends up wf, fun reached => ?_⟩
  obtain ⟨ks, path, up', whole, _⟩ := reached.descends wf
  obtain rfl := up.unique up'
  rw [← List.head?_reverse]
  cases reversed : hs.reverse with
  | nil =>
    rw [reversed] at whole
    exact absurd (List.cons.inj whole).1 same
  | cons x rest =>
    rw [reversed] at whole
    rw [List.head?_cons, (List.cons.inj whole).1]

theorem lineage_eq_ok (wf : a.WellFormed) (reached : a.Reachable h) :
    ∃ path, a.lineage h = .ok (a.root :: path) ∧ a.Descends a.root path h := by
  obtain ⟨hs, path, up, whole, way⟩ := reached.descends wf
  refine ⟨path, ?_, way⟩
  unfold lineage
  rw [up.ancestors_eq_ok, ok_bind, whole]
  rfl

/-! ### Walks downwards -/

theorem isAbove_iff_child (wf : a.WellFormed) (stored : a.get? h = some n) :
    a.IsAbove h x ↔ ∃ c ∈ n.element.children, x = c ∨ a.IsAbove c x := by
  constructor
  · intro above
    obtain ⟨c, owned, rest⟩ := Relation.TransGen.head'_iff.mp above
    refine ⟨c, (wf.mem_children_iff stored).mpr owned, ?_⟩
    exact (Relation.reflTransGen_iff_eq_or_transGen.mp rest)
  · rintro ⟨c, member, rfl | above⟩
    · exact wf.isAbove_child stored member
    · exact (wf.isAbove_child stored member).trans above

/-- Every element in an element is listed once, and there are as many as the term has parts. -/
theorem descend_eq_ok (wf : a.WellFormed) (stored : a.get? h = some n) {d : Nat}
    (enough : (a.below h).card < d) : ∃ xs, a.descend d h = .ok xs ∧ xs.Nodup ∧
      xs.length = (a.denote h).size ∧ ∀ x, x ∈ xs ↔ x = h ∨ a.IsAbove h x := by
  refine wf.depth_induction (motive := fun d h => ∃ xs, a.descend d h = .ok xs ∧ xs.Nodup ∧
    xs.length = (a.denote h).size ∧ ∀ x, x ∈ xs ↔ x = h ∨ a.IsAbove h x)
    (fun d h n stored ih => ?_) stored enough
  have total : ∀ c ∈ n.element.children, ∃ xs, a.descend d c = .ok xs ∧ xs.Nodup ∧
      xs.length = (a.denote c).size ∧ ∀ x, x ∈ xs ↔ x = c ∨ a.IsAbove c x :=
    fun c member => ih c (wf.isAbove_child stored member)
  choose! parts read nodup count holds using total
  refine ⟨h :: n.element.children.flatMap parts, ?_, ?_, ?_, fun x => ?_⟩
  · unfold descend
    rw [children_of_get? stored, ok_bind, mapM_eq_map read, List.flatMap_def]
    rfl
  · exact nodup_parts (wf.acyclic h) (wf.distinct stored) (wf.records stored) nodup
      fun c member x => (holds c member x).mp
  · rw [List.length_cons, length_flatMap_eq_sizes count, Term.size_eq, wf.denote_eq stored,
      Element.children_toTerm]
  · rw [List.mem_cons, List.mem_flatMap, wf.isAbove_iff_child stored]
    exact or_congr_right (exists_congr fun c => and_congr_right fun member => holds c member x)

theorem preOrder_eq_ok (wf : a.WellFormed) (stored : a.get? h = some n) :
    ∃ xs, a.preOrder h = .ok xs ∧ xs.Nodup ∧ xs.length = (a.denote h).size ∧
      ∀ x, x ∈ xs ↔ x = h ∨ a.IsAbove h x :=
  wf.descend_eq_ok stored (a.card_below_lt_reach h)

theorem preOrder_root (wf : a.WellFormed) :
    ∃ xs, a.preOrder a.root = .ok xs ∧ ∀ x, x ∈ xs ↔ a.Reachable x := by
  obtain ⟨inner, stored⟩ := wf.wrapper
  obtain ⟨xs, read, -, -, holds⟩ := wf.preOrder_eq_ok stored
  exact ⟨xs, read, fun x => (holds x).trans wf.reachable_iff.symm⟩

end WellFormed

/-- The second arena has the expression of the first one, place by place. -/
structure Shows (a b : Arena) : Prop where
  root : b.root = a.root
  kept : ∀ {h n}, a.Reachable h → a.get? h = some n → b.get? h = some n

theorem Shows.reachable (shows : a.Shows b) (reached : a.Reachable h) : b.Reachable h := by
  induction reached with
  | root =>
    rw [← shows.root]
    exact .root
  | child above stored member ih => exact ih.child (shows.kept above stored) member

theorem Shows.reachable_iff (shows : a.Shows b) (wf : a.WellFormed) :
    b.Reachable h ↔ a.Reachable h := by
  refine ⟨fun reached => ?_, shows.reachable⟩
  induction reached with
  | root =>
    rw [shows.root]
    exact .root
  | child _ found member ih =>
    obtain ⟨n, stored⟩ := ih.stored wf
    cases (shows.kept ih stored).symm.trans found
    exact ih.child stored member

theorem Shows.denote_eq (shows : a.Shows b) (wf : a.WellFormed) (wf' : b.WellFormed)
    (reached : a.Reachable h) : b.denote h = a.denote h := by
  obtain ⟨n, stored⟩ := reached.stored wf
  refine wf.denote_congr wf' stored fun x m place held => ⟨m, shows.kept ?_ held, rfl⟩
  rcases place with rfl | above
  · exact reached
  · exact reached.down wf above

/-! ### Sweeping -/

/-- The second arena stores the reachable elements of the first one and nothing else. -/
structure Swept (a b : Arena) : Prop where
  root : b.root = a.root
  kept : ∀ {h}, a.Reachable h → b.get? h = a.get? h
  reached : ∀ {h n}, b.get? h = some n → a.Reachable h

/-- The arena without the elements that are not listed. -/
def retain (a : Arena) (kept : List Handle) : Arena :=
  { a with places := a.places.mapIdx fun i place => place.filter fun _ => kept.contains ⟨i⟩ }

theorem get?_retain (a : Arena) (kept : List Handle) (h : Handle) :
    (a.retain kept).get? h = if h ∈ kept then a.get? h else none := by
  obtain ⟨i⟩ := h
  unfold retain get?
  rw [Array.getElem?_mapIdx]
  cases a.places[i]? with
  | none => simp
  | some place =>
    by_cases member : (⟨i⟩ : Handle) ∈ kept
    · cases place <;> simp [member]
    · cases place <;> simp [member]

theorem run_sweep_of_preOrder {kept : List Handle} (read : a.preOrder a.root = .ok kept) :
    Edit.sweep.run a = .ok (a.size - (a.retain kept).size) (a.retain kept) := by
  unfold Edit.sweep
  rw [Edit.run_get_bind, Edit.run_bind_of_ok (Edit.run_inspect_of_ok read)]
  rfl

theorem run_sweep (wf : a.WellFormed) :
    ∃ count b, Edit.sweep.run a = .ok count b ∧ a.Swept b := by
  obtain ⟨kept, read, holds⟩ := wf.preOrder_root
  refine ⟨_, _, run_sweep_of_preOrder read, rfl, fun {h} reached => ?_, fun {h n} found => ?_⟩
  · rw [get?_retain, if_pos ((holds h).mpr reached)]
  · rw [get?_retain] at found
    split at found
    case isTrue member => exact (holds h).mp member
    case isFalse => cases found

namespace Swept

theorem stored (swept : a.Swept b) (found : b.get? h = some n) : a.get? h = some n :=
  (swept.kept (swept.reached found)).symm.trans found

theorem owner?_of_reachable (swept : a.Swept b) (reached : a.Reachable h) :
    b.owner? h = a.owner? h := by
  rw [owner?, owner?, swept.kept reached]

theorem owned (swept : a.Swept b) (owned : b.owner? h = some p) :
    a.Reachable h ∧ a.owner? h = some p := by
  obtain ⟨n, found, recorded⟩ := owner?_eq_some.mp owned
  exact ⟨swept.reached found, owner?_eq_some.mpr ⟨n, swept.stored found, recorded⟩⟩

theorem isAbove (swept : a.Swept b) (above : b.IsAbove x y) : a.IsAbove x y :=
  Relation.TransGen.mono (fun _ _ owned => (swept.owned owned).2) _ _ above

theorem wf (swept : a.Swept b) (wf : a.WellFormed) : b.WellFormed where
  records := by
    intro h n found c member
    have stored := swept.stored found
    rw [swept.owner?_of_reachable ((swept.reached found).child stored member)]
    exact wf.records stored c member
  distinct found := wf.distinct (swept.stored found)
  holds := by
    intro h p owned
    obtain ⟨reached, owned⟩ := swept.owned owned
    obtain ⟨n, stored, member⟩ := wf.holds owned
    exact ⟨n, (swept.kept (reached.owner wf owned)).trans stored, member⟩
  acyclic h above := wf.acyclic h (swept.isAbove above)
  wrapper := by
    obtain ⟨inner, stored⟩ := wf.wrapper
    rw [swept.root]
    exact ⟨inner, (swept.kept .root).trans stored⟩
  only_wrapper found kind := (wf.only_wrapper (swept.stored found) kind).trans swept.root.symm

theorem shows (swept : a.Swept b) : a.Shows b where
  root := swept.root
  kept reached stored := (swept.kept reached).trans stored

/-- What is not in the expression makes no difference to what is left. -/
theorem of_shows {c : Arena} (swept : b.Swept c) (wf : a.WellFormed) (shows : a.Shows b) :
    a.Swept c where
  root := swept.root.trans shows.root
  kept reached := by
    obtain ⟨n, stored⟩ := reached.stored wf
    rw [swept.kept (shows.reachable reached), shows.kept reached stored, stored]
  reached found := (shows.reachable_iff wf).mp (swept.reached found)

end Swept

end AlgebraEditor.Arena
