import AlgebraEditor.Proofs.Outcome
import Mathlib.Data.List.Nodup
import Mathlib.Data.List.Perm.Subperm
import Mathlib.Logic.Relation

/-!
# Ownership

In a well-formed arena both directions of ownership agree, over all stored elements and not only
those below the root: a child records the container that holds it, and holds no second slot; what
records a container is held by it; and no element lies above itself. `exists_ascends` says that the
way up from every element ends.
-/

namespace AlgebraEditor.Arena

/-- The container that an element records. -/
def owner? (a : Arena) (h : Handle) : Option Handle := (a.get? h).bind Node.parent

/-- `ancestor` is met on the way up from an element. -/
def IsAbove (a : Arena) : Handle → Handle → Prop :=
  Relation.TransGen fun ancestor h => a.owner? h = some ancestor

/-- Ownership is single, the same in both directions, and without circles. -/
structure WellFormed (a : Arena) : Prop where
  records : ∀ {h n}, a.get? h = some n → ∀ c ∈ n.element.children, a.owner? c = some h
  distinct : ∀ {h n}, a.get? h = some n → n.element.children.Nodup
  holds : ∀ {h p}, a.owner? h = some p → ∃ n, a.get? p = some n ∧ h ∈ n.element.children
  acyclic : ∀ h, ¬ a.IsAbove h h
  wrapper : ∃ inner, a.get? a.root = some ⟨none, .root inner⟩
  only_wrapper : ∀ {h n}, a.get? h = some n → n.element.kind = .root → h = a.root

variable {a b : Arena} {h p x y : Handle} {n : Node}

/-! ### Recorded owners -/

theorem owner?_of_get? (stored : a.get? h = some n) : a.owner? h = n.parent := by
  simp [owner?, stored]

theorem owner?_eq_some : a.owner? h = some p ↔ ∃ n, a.get? h = some n ∧ n.parent = some p := by
  simp [owner?, Option.bind_eq_some_iff]

theorem stored_of_owner? (owned : a.owner? h = some p) : ∃ n, a.get? h = some n := by
  obtain ⟨n, stored, _⟩ := owner?_eq_some.mp owned
  exact ⟨n, stored⟩

theorem parent_eq_ok {q : Option Handle} :
    a.parent h = .ok q ↔ ∃ n, a.get? h = some n ∧ n.parent = q := by
  simp only [parent, bind_eq_ok, node_eq_ok, pure_eq_ok]

theorem parent_of_get? (stored : a.get? h = some n) : a.parent h = .ok (a.owner? h) :=
  parent_eq_ok.mpr ⟨n, stored, (owner?_of_get? stored).symm⟩

theorem parent_eq_some : a.parent h = .ok (some p) ↔ a.owner? h = some p := by
  rw [parent_eq_ok, owner?_eq_some]

theorem element_eq_ok {e : Element} :
    a.element h = .ok e ↔ ∃ n, a.get? h = some n ∧ n.element = e := by
  simp only [element, bind_eq_ok, node_eq_ok, pure_eq_ok]

theorem element_of_get? (stored : a.get? h = some n) : a.element h = .ok n.element :=
  element_eq_ok.mpr ⟨n, stored, rfl⟩

theorem kind_of_get? (stored : a.get? h = some n) : a.kind h = .ok n.element.kind := by
  rw [kind, element_of_get? stored]; rfl

theorem children_of_get? (stored : a.get? h = some n) : a.children h = .ok n.element.children := by
  rw [children, element_of_get? stored]; rfl

theorem negated?_of_get? (stored : a.get? h = some n) : a.negated? h = .ok n.element.negated? := by
  rw [negated?, element_of_get? stored]; rfl

theorem kind_eq_ok {k : Kind} :
    a.kind h = .ok k ↔ ∃ n, a.get? h = some n ∧ n.element.kind = k := by
  simp only [kind, bind_eq_ok, element_eq_ok, pure_eq_ok]
  constructor
  · rintro ⟨_, ⟨n, stored, rfl⟩, same⟩; exact ⟨n, stored, same⟩
  · rintro ⟨n, stored, same⟩; exact ⟨_, ⟨n, stored, rfl⟩, same⟩

theorem children_eq_ok {cs : List Handle} :
    a.children h = .ok cs ↔ ∃ n, a.get? h = some n ∧ n.element.children = cs := by
  simp only [children, bind_eq_ok, element_eq_ok, pure_eq_ok]
  constructor
  · rintro ⟨_, ⟨n, stored, rfl⟩, same⟩; exact ⟨n, stored, same⟩
  · rintro ⟨n, stored, same⟩; exact ⟨_, ⟨n, stored, rfl⟩, same⟩

/-! ### The way up -/

theorem isAbove_of_owner? (owned : a.owner? h = some p) : a.IsAbove p h :=
  Relation.TransGen.single owned

theorem IsAbove.trans (first : a.IsAbove x y) (second : a.IsAbove y h) : a.IsAbove x h :=
  Relation.TransGen.trans first second

/-- What lies above an element is its owner, or lies above that. -/
theorem isAbove_iff : a.IsAbove x h ↔ ∃ p, a.owner? h = some p ∧ (x = p ∨ a.IsAbove x p) := by
  constructor
  · intro above
    cases above with
    | single owned => exact ⟨x, owned, .inl rfl⟩
    | tail above owned => exact ⟨_, owned, .inr above⟩
  · rintro ⟨p, owned, rfl | above⟩
    · exact .single owned
    · exact .tail above owned

theorem owns_of_isAbove (above : a.IsAbove x h) : ∃ y, a.owner? y = some x := by
  induction above with
  | single owned => exact ⟨_, owned⟩
  | tail _ _ ih => exact ih

theorem stored_of_isAbove (above : a.IsAbove x h) : ∃ n, a.get? h = some n := by
  obtain ⟨p, owned, _⟩ := isAbove_iff.mp above
  exact stored_of_owner? owned

/-- What lies above one element lies on one line. -/
theorem IsAbove.comparable (first : a.IsAbove x h) (second : a.IsAbove y h) :
    x = y ∨ a.IsAbove x y ∨ a.IsAbove y x := by
  induction first with
  | single owned =>
    obtain ⟨q, owned', rest⟩ := isAbove_iff.mp second
    cases owned.symm.trans owned'
    rcases rest with rfl | above
    · exact .inl rfl
    · exact .inr (.inr above)
  | tail above owned ih =>
    obtain ⟨q, owned', rest⟩ := isAbove_iff.mp second
    cases owned.symm.trans owned'
    rcases rest with rfl | second
    · exact .inr (.inl above)
    · exact ih second

/-- Children of an element that does not lie in itself do not lie in each other. -/
theorem not_isAbove_sibling (free : ¬ a.IsAbove p p) (owned : a.owner? x = some p)
    (owned' : a.owner? y = some p) : ¬ a.IsAbove x y := by
  intro above
  obtain ⟨q, owner, rest⟩ := isAbove_iff.mp above
  cases owned'.symm.trans owner
  rcases rest with rfl | above
  · exact free (isAbove_of_owner? owned)
  · exact free ((isAbove_of_owner? owned).trans above)

/-- They have nothing below them in common. -/
theorem eq_of_shared (free : ¬ a.IsAbove p p) (owned : a.owner? x = some p)
    (owned' : a.owner? y = some p) (inside : h = x ∨ a.IsAbove x h)
    (inside' : h = y ∨ a.IsAbove y h) : x = y := by
  have apart := not_isAbove_sibling free owned owned'
  have apart' := not_isAbove_sibling free owned' owned
  rcases inside with rfl | above <;> rcases inside' with rfl | above'
  · rfl
  · exact absurd above' apart'
  · exact absurd above apart
  · rcases above.comparable above' with same | above | above
    · exact same
    · exact absurd above apart
    · exact absurd above apart'

/-- If what is listed for each child lies in the child, nothing is listed twice. -/
theorem nodup_parts (free : ¬ a.IsAbove p p) {cs : List Handle} {parts : Handle → List Handle}
    (distinct : cs.Nodup) (owned : ∀ c ∈ cs, a.owner? c = some p)
    (nodup : ∀ c ∈ cs, (parts c).Nodup) (inside : ∀ c ∈ cs, ∀ x ∈ parts c, x = c ∨ a.IsAbove c x) :
    (p :: cs.flatMap parts).Nodup := by
  refine List.nodup_cons.mpr ⟨fun listed => ?_, List.nodup_flatMap.mpr ⟨nodup, ?_⟩⟩
  · obtain ⟨c, member, listed⟩ := List.mem_flatMap.mp listed
    have below := isAbove_of_owner? (owned c member)
    rcases inside c member p listed with rfl | above
    · exact free below
    · exact free (below.trans above)
  · refine distinct.imp_of_mem fun {c d} member member' other x listed listed' => other ?_
    exact eq_of_shared free (owned c member) (owned d member') (inside c member x listed)
      (inside d member' x listed')

/-- The way up depends on the owners of the elements that it meets, and on nothing else. -/
theorem isAbove_congr (same : ∀ y, y = h ∨ a.IsAbove y h → b.owner? y = a.owner? y) :
    b.IsAbove x h ↔ a.IsAbove x h := by
  constructor
  · intro above
    induction above with
    | single owned => exact .single ((same _ (.inl rfl)).symm.trans owned)
    | @tail y h _ owned ih =>
      have owned' : a.owner? h = some y := (same _ (.inl rfl)).symm.trans owned
      refine (ih fun z later => same z (.inr ?_)).tail owned'
      rcases later with rfl | above
      · exact .single owned'
      · exact above.tail owned'
  · intro above
    induction above with
    | single owned => exact .single ((same _ (.inl rfl)).trans owned)
    | @tail y h above owned ih =>
      refine .tail (ih fun z later => same z (.inr ?_)) ((same _ (.inl rfl)).trans owned)
      rcases later with rfl | above
      · exact .single owned
      · exact above.tail owned

/-- `hs` is the whole way up from an element, nearest first. -/
inductive Ascends (a : Arena) : Handle → List Handle → Prop where
  | top {h : Handle} {n : Node} : a.get? h = some n → n.parent = none → Ascends a h []
  | up {h p : Handle} {hs : List Handle} : a.owner? h = some p → Ascends a p hs →
      Ascends a h (p :: hs)

theorem Ascends.stored {hs : List Handle} (up : a.Ascends h hs) : ∃ n, a.get? h = some n := by
  cases up with
  | top stored _ => exact ⟨_, stored⟩
  | up owned _ => exact stored_of_owner? owned

theorem Ascends.mem_iff {hs : List Handle} (up : a.Ascends h hs) : x ∈ hs ↔ a.IsAbove x h := by
  induction up with
  | top stored parentless =>
    refine ⟨nofun, fun above => ?_⟩
    obtain ⟨p, owned, _⟩ := isAbove_iff.mp above
    rw [owner?_of_get? stored, parentless] at owned
    cases owned
  | up owned _ ih =>
    rw [List.mem_cons, ih]
    constructor
    · exact fun above => isAbove_iff.mpr ⟨_, owned, above⟩
    · intro above
      obtain ⟨q, owned', above⟩ := isAbove_iff.mp above
      cases Option.some.inj (owned.symm.trans owned')
      exact above

theorem Ascends.all_stored {hs : List Handle} (up : a.Ascends h hs) :
    ∀ x ∈ h :: hs, ∃ n, a.get? x = some n := by
  induction up with
  | top stored _ => simpa using ⟨_, stored⟩
  | up owned _ ih =>
    intro x member
    rcases List.mem_cons.mp member with rfl | later
    · exact stored_of_owner? owned
    · exact ih x later

theorem Ascends.unique {hs ks : List Handle} (up : a.Ascends h hs) (other : a.Ascends h ks) :
    hs = ks := by
  induction up generalizing ks with
  | top stored parentless =>
    cases other with
    | top _ _ => rfl
    | up owned _ =>
      rw [owner?_of_get? stored, parentless] at owned
      cases owned
  | up owned _ ih =>
    cases other with
    | top stored parentless =>
      rw [owner?_of_get? stored, parentless] at owned
      cases owned
    | up owned' other =>
      cases Option.some.inj (owned.symm.trans owned')
      rw [ih other]

theorem climb_eq_ok {hs : List Handle} (up : a.Ascends h hs) {steps : Nat}
    (enough : hs.length < steps) : a.climb steps h = .ok hs := by
  induction up generalizing steps with
  | top stored parentless =>
    obtain ⟨steps, rfl⟩ : ∃ k, steps = k + 1 := ⟨steps - 1, by omega⟩
    rw [climb, parent_eq_ok.mpr ⟨_, stored, parentless⟩]
    rfl
  | @up h p hs owned up ih =>
    obtain ⟨steps, rfl⟩ : ∃ k, steps = k + 1 := ⟨steps - 1, by omega⟩
    rw [List.length_cons] at enough
    rw [climb, parent_eq_some.mpr owned]
    simp only [ok_bind]
    rw [ih (by omega)]
    rfl

theorem climbMeets_eq_ok {hs : List Handle} (up : a.Ascends h hs) {steps : Nat}
    (enough : hs.length < steps) (target : Handle) :
    a.climbMeets target steps h = .ok (decide (target ∈ hs)) := by
  induction up generalizing steps with
  | top stored parentless =>
    obtain ⟨steps, rfl⟩ : ∃ k, steps = k + 1 := ⟨steps - 1, by omega⟩
    rw [climbMeets, parent_eq_ok.mpr ⟨_, stored, parentless⟩]
    rfl
  | @up h p hs owned up ih =>
    obtain ⟨steps, rfl⟩ : ∃ k, steps = k + 1 := ⟨steps - 1, by omega⟩
    rw [List.length_cons] at enough
    obtain ⟨m, stored⟩ := up.stored
    rw [climbMeets, parent_eq_some.mpr owned]
    simp only [ok_bind, node_eq_ok.mpr stored]
    split
    · rename_i same
      simp [same, pure, Except.pure]
    · rename_i other
      rw [ih (by omega)]
      simp [Ne.symm other]

/-! ### Bounds -/

theorem index_lt_of_get? (stored : a.get? h = some n) : h.index < a.places.size := by
  apply Nat.lt_of_not_le
  intro outside
  simp [get?, Array.getElem?_eq_none outside] at stored

theorem ne_next_of_stored (stored : a.get? h = some n) : h ≠ a.next := by
  rintro rfl
  rw [get?_next] at stored
  cases stored

/-- There are no more distinct stored elements than places. -/
theorem length_le_of_nodup {hs : List Handle} (nodup : hs.Nodup)
    (stored : ∀ x ∈ hs, ∃ n, a.get? x = some n) : hs.length ≤ a.places.size := by
  have indices : (hs.map Handle.index).Nodup := nodup.map fun x y same => by
    cases x; cases y; exact congrArg Handle.mk same
  have inside : hs.map Handle.index ⊆ List.range a.places.size := by
    intro i member
    obtain ⟨x, held, rfl⟩ := List.mem_map.mp member
    obtain ⟨n, found⟩ := stored x held
    exact List.mem_range.mpr (index_lt_of_get? found)
  simpa using (indices.subperm inside).length_le

/-- From what is met on a way up, less of the way is left. -/
theorem Ascends.rest {hs : List Handle} (up : a.Ascends h hs) (member : x ∈ hs) :
    ∃ ks, a.Ascends x ks ∧ ks.length < hs.length := by
  induction up with
  | top _ _ => cases member
  | @up h p hs owned up ih =>
    rcases List.mem_cons.mp member with rfl | later
    · exact ⟨hs, up, Nat.lt_succ_self _⟩
    · obtain ⟨ks, up', shorter⟩ := ih later
      exact ⟨ks, up', Nat.lt_succ_of_lt shorter⟩

/-- A way up that ends passes no element twice. -/
theorem Ascends.nodup {hs : List Handle} (up : a.Ascends h hs) : (h :: hs).Nodup := by
  induction up with
  | top _ _ => exact List.nodup_singleton _
  | @up h p hs owned up ih =>
    refine List.nodup_cons.mpr ⟨fun member => ?_, ih⟩
    obtain ⟨ks, up', shorter⟩ := (Ascends.up owned up).rest member
    rw [up'.unique (.up owned up)] at shorter
    exact Nat.lt_irrefl _ shorter

theorem Ascends.not_isAbove {hs : List Handle} (up : a.Ascends h hs) : ¬ a.IsAbove h h :=
  fun above => (List.nodup_cons.mp up.nodup).1 (up.mem_iff.mpr above)

theorem Ascends.length_lt {hs : List Handle} (up : a.Ascends h hs) : hs.length < a.places.size :=
  length_le_of_nodup up.nodup up.all_stored

theorem Ascends.length_lt_reach {hs : List Handle} (up : a.Ascends h hs) : hs.length < a.reach :=
  Nat.lt_succ_of_lt up.length_lt

theorem Ascends.ancestors_eq_ok {hs : List Handle} (up : a.Ascends h hs) :
    a.ancestors h = .ok hs :=
  climb_eq_ok up up.length_lt_reach

namespace WellFormed

theorem stored_of_owner? (wf : a.WellFormed) (owned : a.owner? h = some p) :
    ∃ n, a.get? p = some n := by
  obtain ⟨n, stored, _⟩ := wf.holds owned
  exact ⟨n, stored⟩

theorem mem_children_iff (wf : a.WellFormed) (stored : a.get? p = some n) :
    h ∈ n.element.children ↔ a.owner? h = some p := by
  constructor
  · exact wf.records stored h
  · intro owned
    obtain ⟨m, stored', member⟩ := wf.holds owned
    cases Option.some.inj (stored.symm.trans stored')
    exact member

theorem stored_of_mem_children (wf : a.WellFormed) (stored : a.get? p = some n)
    (member : h ∈ n.element.children) : ∃ m, a.get? h = some m :=
  Arena.stored_of_owner? (wf.records stored h member)

theorem owner?_root (wf : a.WellFormed) : a.owner? a.root = none := by
  obtain ⟨inner, stored⟩ := wf.wrapper
  simp [owner?, stored]

theorem ne_root_of_owner? (wf : a.WellFormed) (owned : a.owner? h = some p) : h ≠ a.root := by
  rintro rfl
  rw [wf.owner?_root] at owned
  cases owned

theorem kind_ne_root (wf : a.WellFormed) (stored : a.get? h = some n) (other : h ≠ a.root) :
    n.element.kind ≠ .root := fun same => other (wf.only_wrapper stored same)

theorem irrefl (wf : a.WellFormed) (owned : a.owner? h = some p) : h ≠ p := by
  rintro rfl
  exact wf.acyclic h (.single owned)

/-- The way up from a stored element ends: the elements below it that the walk has left behind are
pairwise distinct, so it runs out of places. -/
theorem exists_ascends (wf : a.WellFormed) (stored : a.get? h = some n) :
    ∃ hs, a.Ascends h hs := by
  have walk : ∀ (left : Nat) (h : Handle) (n : Node) (behind : List Handle),
      a.get? h = some n → a.places.size ≤ left + behind.length → behind.Nodup →
      (∀ x ∈ behind, a.IsAbove h x) → ∃ hs, a.Ascends h hs := by
    intro left
    induction left with
    | zero =>
      intro h n behind stored full nodup below
      have fresh : h ∉ behind := fun member => wf.acyclic h (below h member)
      have bound := length_le_of_nodup (List.nodup_cons.mpr ⟨fresh, nodup⟩) fun x member => by
        rcases List.mem_cons.mp member with rfl | later
        · exact ⟨n, stored⟩
        · exact stored_of_isAbove (below x later)
      rw [List.length_cons] at bound
      omega
    | succ left ih =>
      intro h n behind stored enough nodup below
      cases owned : a.owner? h with
      | none => exact ⟨[], .top stored ((owner?_of_get? stored).symm.trans owned)⟩
      | some p =>
        have fresh : h ∉ behind := fun member => wf.acyclic h (below h member)
        obtain ⟨m, stored'⟩ := wf.stored_of_owner? owned
        obtain ⟨hs, up⟩ := ih p m (h :: behind) stored'
          (by rw [List.length_cons]; omega) (List.nodup_cons.mpr ⟨fresh, nodup⟩) (by
            intro x member
            rcases List.mem_cons.mp member with rfl | later
            · exact .single owned
            · exact .trans (.single owned) (below x later))
        exact ⟨p :: hs, .up owned up⟩
  exact walk a.places.size h n [] stored (by simp) List.nodup_nil (by simp)

/-! ### Walks upwards -/

open Classical in
theorem isAncestorOf_eq_ok (wf : a.WellFormed) (stored : a.get? h = some n) (x : Handle) :
    a.isAncestorOf x h = .ok (decide (a.IsAbove x h)) := by
  obtain ⟨hs, up⟩ := wf.exists_ascends stored
  rw [isAncestorOf, climbMeets_eq_ok up up.length_lt_reach]
  simp only [up.mem_iff]

end WellFormed

/-! ### The first arena -/

theorem get?_zero : zero.get? h = some n ↔
    (h = ⟨0⟩ ∧ n = ⟨none, .root ⟨1⟩⟩) ∨ (h = ⟨1⟩ ∧ n = ⟨some ⟨0⟩, .integer 0⟩) := by
  obtain ⟨i⟩ := h
  match i with
  | 0 => simp [get?, zero, eq_comm]
  | 1 => simp [get?, zero, eq_comm]
  | i + 2 => simp [get?, zero]

theorem owner?_zero : zero.owner? h = some p ↔ h = ⟨1⟩ ∧ p = ⟨0⟩ := by
  rw [owner?_eq_some]
  constructor
  · rintro ⟨n, stored, recorded⟩
    rcases get?_zero.mp stored with ⟨rfl, rfl⟩ | ⟨rfl, rfl⟩
    · cases recorded
    · exact ⟨rfl, (Option.some.inj recorded).symm⟩
  · rintro ⟨rfl, rfl⟩
    exact ⟨_, get?_zero.mpr (.inr ⟨rfl, rfl⟩), rfl⟩

theorem wellFormed_zero : zero.WellFormed where
  records := by
    intro h n stored c member
    rcases get?_zero.mp stored with ⟨rfl, rfl⟩ | ⟨rfl, rfl⟩
    · obtain rfl := List.mem_singleton.mp member
      exact owner?_zero.mpr ⟨rfl, rfl⟩
    · cases member
  distinct := by
    intro h n stored
    rcases get?_zero.mp stored with ⟨rfl, rfl⟩ | ⟨rfl, rfl⟩
    · exact List.nodup_singleton _
    · exact List.nodup_nil
  holds := by
    intro h p owned
    obtain ⟨rfl, rfl⟩ := owner?_zero.mp owned
    exact ⟨_, get?_zero.mpr (.inl ⟨rfl, rfl⟩), List.mem_singleton_self _⟩
  acyclic := by
    intro h above
    obtain ⟨p, owned, rest⟩ := isAbove_iff.mp above
    obtain ⟨rfl, rfl⟩ := owner?_zero.mp owned
    rcases rest with same | above
    · cases same
    · obtain ⟨q, owned, _⟩ := isAbove_iff.mp above
      cases (owner?_zero.mp owned).1
  wrapper := ⟨⟨1⟩, get?_zero.mpr (.inl ⟨rfl, rfl⟩)⟩
  only_wrapper := by
    intro h n stored kind
    rcases get?_zero.mp stored with ⟨rfl, rfl⟩ | ⟨rfl, rfl⟩
    · rfl
    · cases kind

end AlgebraEditor.Arena
