import AlgebraEditor.Proofs.Arena.Denotation

/-!
# Rewiring

Every edit of an arena stores new elements or lets one container hold other children than before.
`rewire` is the latter, in both directions of ownership at once. It keeps an arena well-formed if the
new children are owned by nothing and the container does not lie in them.
-/

namespace AlgebraEditor

/-- The node at a handle once the container `c` holds `e`. -/
def Node.rewired (c : Handle) (e : Element) (h : Handle) (n : Node) : Node where
  parent := if h ∈ e.children then some c else if n.parent = some c then none else n.parent
  element := if h = c then e else n.element

namespace Arena

/-- The arena in which a container holds `e`. Children that it holds no longer lose their owner. -/
def rewire (a : Arena) (c : Handle) (e : Element) : Arena :=
  { a with places := a.places.mapIdx fun i place => place.map (Node.rewired c e ⟨i⟩) }

/-- What a container may newly hold: an element that is owned by nothing, is not the root, and does
not have the container in it. -/
structure Attachable (a : Arena) (c x : Handle) : Prop where
  stored : ∃ n, a.get? x = some n
  free : a.owner? x = none
  not_root : x ≠ a.root
  other : x ≠ c
  not_above : ¬ a.IsAbove x c

/-- What a container may hold instead of what it held. -/
structure Rewirable (a : Arena) (c : Handle) (e : Element) : Prop where
  nodup : e.children.Nodup
  child : ∀ x ∈ e.children, a.owner? x = some c ∨ a.Attachable c x
  wrapper : e.kind = .root ↔ c = a.root

variable {a : Arena} {c h p x y : Handle} {e : Element} {n : Node}

/-- Arenas are equal if they have the same places, the same root and the same nodes. -/
theorem ext_get? {b : Arena} (size : a.places.size = b.places.size) (root : a.root = b.root)
    (nodes : ∀ h, a.get? h = b.get? h) : a = b := by
  obtain ⟨places, _⟩ := a
  obtain ⟨places', _⟩ := b
  obtain rfl := root
  congr 1
  apply Array.ext size
  intro i left right
  have same := nodes ⟨i⟩
  simpa [get?, Array.getElem?_eq_getElem left, Array.getElem?_eq_getElem right] using same

/-! ### Reading a rewired arena -/

@[simp] theorem root_rewire (a : Arena) (c : Handle) (e : Element) :
    (a.rewire c e).root = a.root := rfl

@[simp] theorem size_places_rewire (a : Arena) (c : Handle) (e : Element) :
    (a.rewire c e).places.size = a.places.size := by
  simp [rewire]

@[simp] theorem next_rewire (a : Arena) (c : Handle) (e : Element) :
    (a.rewire c e).next = a.next := by
  simp [next]

theorem get?_rewire (a : Arena) (c : Handle) (e : Element) (h : Handle) :
    (a.rewire c e).get? h = (a.get? h).map (Node.rewired c e h) := by
  simp only [get?, rewire, Array.getElem?_mapIdx]
  cases a.places[h.index]? with
  | none => rfl
  | some place => cases place <;> rfl

theorem get?_rewire_eq_some : (a.rewire c e).get? h = some n ↔
    ∃ m, a.get? h = some m ∧ m.rewired c e h = n := by
  rw [get?_rewire, Option.map_eq_some_iff]

theorem get?_rewire_of_stored (stored : a.get? h = some n) :
    (a.rewire c e).get? h = some (n.rewired c e h) := by
  rw [get?_rewire, stored]
  rfl

theorem element_rewired_self (c : Handle) (e : Element) (n : Node) :
    (n.rewired c e c).element = e := if_pos rfl

theorem element_rewired_of_ne (other : h ≠ c) (e : Element) (n : Node) :
    (n.rewired c e h).element = n.element := if_neg other

theorem owner?_rewire_of_mem (stored : a.get? h = some n) (member : h ∈ e.children) :
    (a.rewire c e).owner? h = some c := by
  rw [owner?_of_get? (get?_rewire_of_stored stored), Node.rewired, if_pos member]

theorem owner?_rewire_of_not_mem (absent : h ∉ e.children) :
    (a.rewire c e).owner? h = if a.owner? h = some c then none else a.owner? h := by
  rw [owner?, get?_rewire, owner?]
  cases a.get? h with
  | none => simp
  | some n => simp [Node.rewired, absent]

/-- An element that stays where it is, in the container or out of it, keeps its owner. -/
theorem owner?_rewire_of_iff (stored : a.get? h = some n)
    (stays : h ∈ e.children ↔ a.owner? h = some c) : (a.rewire c e).owner? h = a.owner? h := by
  by_cases member : h ∈ e.children
  · rw [owner?_rewire_of_mem stored member, stays.mp member]
  · rw [owner?_rewire_of_not_mem member, if_neg (mt stays.mpr member)]

theorem owner?_rewire_eq_some (owned : (a.rewire c e).owner? h = some p) :
    (h ∈ e.children ∧ p = c) ∨ (h ∉ e.children ∧ p ≠ c ∧ a.owner? h = some p) := by
  by_cases member : h ∈ e.children
  · obtain ⟨n, stored⟩ := stored_of_owner? owned
    obtain ⟨m, held, _⟩ := get?_rewire_eq_some.mp stored
    rw [owner?_rewire_of_mem held member] at owned
    exact .inl ⟨member, (Option.some.inj owned).symm⟩
  · rw [owner?_rewire_of_not_mem member] at owned
    split at owned
    · cases owned
    · rename_i other
      exact .inr ⟨member, fun same => other (by rw [owned, same]), owned⟩

/-- What stays in the container or out of it is as it was. -/
theorem get?_rewire_of_iff (stored : a.get? h = some n) (other : h ≠ c)
    (stays : h ∈ e.children ↔ n.parent = some c) : (a.rewire c e).get? h = some n := by
  rw [get?_rewire_of_stored stored, Node.rewired, if_neg other]
  by_cases member : h ∈ e.children
  · rw [if_pos member, ← stays.mp member]
  · rw [if_neg member, if_neg (mt stays.mpr member)]

/-- What leaves the container is owned by nothing. -/
theorem get?_rewire_of_left (stored : a.get? h = some n) (other : h ≠ c) (left : h ∉ e.children)
    (held : n.parent = some c) : (a.rewire c e).get? h = some ⟨none, n.element⟩ := by
  rw [get?_rewire_of_stored stored, Node.rewired, if_neg other, if_neg left, if_pos held]

/-- The container stays where it is. -/
theorem get?_rewire_container (stored : a.get? c = some n) (absent : c ∉ e.children)
    (apart : n.parent ≠ some c) : (a.rewire c e).get? c = some ⟨n.parent, e⟩ := by
  rw [get?_rewire_of_stored stored, Node.rewired, if_pos rfl, if_neg absent, if_neg apart]

namespace Rewirable

theorem stored (fits : a.Rewirable c e) (member : x ∈ e.children) : ∃ n, a.get? x = some n := by
  rcases fits.child x member with owned | attachable
  · exact stored_of_owner? owned
  · exact attachable.stored

theorem owner?_of_mem (fits : a.Rewirable c e) (member : x ∈ e.children) :
    a.owner? x = some c ∨ a.owner? x = none :=
  (fits.child x member).imp_right Attachable.free

theorem not_mem_of_owner? (fits : a.Rewirable c e) (owned : a.owner? x = some p) (other : p ≠ c) :
    x ∉ e.children := by
  intro member
  rcases fits.owner?_of_mem member with owned' | free
  · exact other (Option.some.inj (owned.symm.trans owned'))
  · rw [owned] at free
    cases free

theorem self_not_mem (fits : a.Rewirable c e) (wf : a.WellFormed) : c ∉ e.children := by
  intro member
  rcases fits.child c member with owned | attachable
  · exact wf.irrefl owned rfl
  · exact attachable.other rfl

theorem get?_container (fits : a.Rewirable c e) (wf : a.WellFormed) (stored : a.get? c = some n) :
    (a.rewire c e).get? c = some ⟨n.parent, e⟩ :=
  get?_rewire_container stored (fits.self_not_mem wf) fun same =>
    wf.irrefl ((owner?_of_get? stored).trans same) rfl

/-- What lies above the container stays as it was. -/
theorem isAbove_container (fits : a.Rewirable c e) (wf : a.WellFormed) :
    (a.rewire c e).IsAbove x c ↔ a.IsAbove x c := by
  refine isAbove_congr fun y onTheWay => ?_
  have absent : y ∉ e.children := by
    intro member
    rcases onTheWay with rfl | above
    · exact fits.self_not_mem wf member
    · rcases fits.child y member with owned | attachable
      · exact wf.acyclic c ((isAbove_of_owner? owned).trans above)
      · exact attachable.not_above above
  rw [owner?_rewire_of_not_mem absent, if_neg]
  intro owned
  rcases onTheWay with rfl | above
  · exact wf.irrefl owned rfl
  · exact wf.acyclic c ((isAbove_of_owner? owned).trans above)

/-- A way up in the rewired arena was there before, or leads through the container. -/
theorem isAbove_rewire (above : (a.rewire c e).IsAbove x y) :
    a.IsAbove x y ∨
      ((x = c ∨ (a.rewire c e).IsAbove x c) ∧ (a.rewire c e).IsAbove c y) := by
  induction above with
  | single owned =>
    rcases owner?_rewire_eq_some owned with ⟨_, rfl⟩ | ⟨_, _, owned'⟩
    · exact .inr ⟨.inl rfl, isAbove_of_owner? owned⟩
    · exact .inl (isAbove_of_owner? owned')
  | @tail y z above owned ih =>
    rcases ih with before | ⟨upper, lower⟩
    · rcases owner?_rewire_eq_some owned with ⟨_, rfl⟩ | ⟨_, _, owned'⟩
      · exact .inr ⟨.inr above, isAbove_of_owner? owned⟩
      · exact .inl (before.trans (isAbove_of_owner? owned'))
    · exact .inr ⟨upper, lower.trans (isAbove_of_owner? owned)⟩

end Rewirable

theorem WellFormed.rewire (wf : a.WellFormed) (stored : a.get? c = some n)
    (fits : a.Rewirable c e) : (a.rewire c e).WellFormed where
  records := by
    intro h m held x member
    obtain ⟨k, stored', rfl⟩ := get?_rewire_eq_some.mp held
    by_cases same : h = c
    · subst same
      rw [element_rewired_self] at member
      obtain ⟨l, child⟩ := fits.stored member
      exact owner?_rewire_of_mem child member
    · rw [element_rewired_of_ne same] at member
      have owned := wf.records stored' x member
      rw [owner?_rewire_of_not_mem (fits.not_mem_of_owner? owned same), owned, if_neg]
      exact fun both => same (Option.some.inj both)
  distinct := by
    intro h m held
    obtain ⟨k, stored', rfl⟩ := get?_rewire_eq_some.mp held
    by_cases same : h = c
    · subst same
      rw [element_rewired_self]
      exact fits.nodup
    · rw [element_rewired_of_ne same]
      exact wf.distinct stored'
  holds := by
    intro h p owned
    rcases owner?_rewire_eq_some owned with ⟨member, rfl⟩ | ⟨_, other, owned'⟩
    · exact ⟨_, get?_rewire_of_stored stored, by rwa [element_rewired_self]⟩
    · obtain ⟨m, held, member⟩ := wf.holds owned'
      exact ⟨_, get?_rewire_of_stored held, by rwa [element_rewired_of_ne other]⟩
  acyclic := by
    intro h circle
    rcases Rewirable.isAbove_rewire circle with before | ⟨upper, lower⟩
    · exact wf.acyclic h before
    · -- a circle through the container was there before, as nothing above the container changed
      have around : (a.rewire c e).IsAbove c c := by
        rcases upper with rfl | upper
        · exact circle
        · exact lower.trans upper
      exact wf.acyclic c ((fits.isAbove_container wf).mp around)
  wrapper := by
    obtain ⟨inner, held⟩ := wf.wrapper
    have absent : a.root ∉ e.children := by
      intro member
      rcases fits.child _ member with owned | attachable
      · rw [wf.owner?_root] at owned
        cases owned
      · exact attachable.not_root rfl
    rw [root_rewire, get?_rewire_of_stored held, Node.rewired, if_neg absent, if_neg nofun]
    by_cases same : a.root = c
    · have kind := fits.wrapper.mpr same.symm
      cases e with
      | root inner => exact ⟨inner, by rw [if_pos same]⟩
      | _ => cases kind
    · exact ⟨inner, by rw [if_neg same]⟩
  only_wrapper := by
    intro h m held kind
    obtain ⟨k, stored', rfl⟩ := get?_rewire_eq_some.mp held
    by_cases same : h = c
    · subst same
      rw [element_rewired_self] at kind
      exact fits.wrapper.mp kind
    · rw [element_rewired_of_ne same] at kind
      exact wf.only_wrapper stored' kind

/-- An element of the same kind fits if its children are old ones or may be attached. -/
theorem WellFormed.rewirable (wf : a.WellFormed) (stored : a.get? c = some n)
    (kind : e.kind = n.element.kind) (nodup : e.children.Nodup)
    (each : ∀ x ∈ e.children, x ∈ n.element.children ∨ a.Attachable c x) : a.Rewirable c e where
  nodup := nodup
  child := fun x member => (each x member).imp_left (wf.records stored x)
  wrapper := by
    rw [kind]
    constructor
    · exact wf.only_wrapper stored
    · rintro rfl
      obtain ⟨inner, held⟩ := wf.wrapper
      cases held.symm.trans stored
      rfl

/-- What lies neither at the container nor around it denotes what it did. -/
theorem WellFormed.denote_rewire (wf : a.WellFormed) (wf' : (a.rewire c e).WellFormed)
    (stored : a.get? h = some n) (other : c ≠ h) (outside : ¬ a.IsAbove h c) :
    (a.rewire c e).denote h = a.denote h := by
  refine wf.denote_congr wf' stored fun x m place held =>
    ⟨_, get?_rewire_of_stored held, element_rewired_of_ne ?_ e m⟩
  rintro rfl
  exact place.elim other outside

theorem WellFormed.rewirable_self (wf : a.WellFormed) (stored : a.get? c = some n) :
    a.Rewirable c n.element :=
  wf.rewirable stored rfl (wf.distinct stored) fun _ => Or.inl

theorem Attachable.not_mem_children (fits : a.Attachable c x) (wf : a.WellFormed)
    (stored : a.get? h = some n) : x ∉ n.element.children := by
  intro member
  have free := fits.free
  rw [wf.records stored x member] at free
  cases free

/-- A container that is rewired twice holds what it was given last. -/
theorem rewire_rewire (fits : a.Rewirable c e) (e' : Element) :
    (a.rewire c e).rewire c e' = a.rewire c e' := by
  refine ext_get? (by simp) rfl fun h => ?_
  rw [get?_rewire, get?_rewire, get?_rewire]
  cases held : a.get? h with
  | none => rfl
  | some m =>
    have recorded : h ∈ e.children → m.parent = some c ∨ m.parent = none := by
      intro member
      rw [← owner?_of_get? held]
      exact fits.owner?_of_mem member
    simp only [Option.map_some, Node.rewired]
    grind

/-- A container stays free to take what it does not take now. -/
theorem Attachable.rewire (fits : a.Attachable c x) (wf : a.WellFormed) (absent : x ∉ e.children)
    (rewirable : a.Rewirable c e) : (a.rewire c e).Attachable c x where
  stored := by
    obtain ⟨m, held⟩ := fits.stored
    exact ⟨_, get?_rewire_of_stored held⟩
  free := by rw [owner?_rewire_of_not_mem absent, fits.free]; rfl
  not_root := fits.not_root
  other := fits.other
  not_above := fun above => fits.not_above ((rewirable.isAbove_container wf).mp above)

/-- Holding what it holds already changes nothing for a container. -/
theorem rewire_self (wf : a.WellFormed) (stored : a.get? c = some n) :
    a.rewire c n.element = a := by
  refine ext_get? (by simp) rfl fun h => ?_
  rw [get?_rewire]
  cases held : a.get? h with
  | none => rfl
  | some m =>
    have child := wf.mem_children_iff (h := h) stored
    rw [owner?_of_get? held] at child
    have parent : (m.rewired c n.element h).parent = m.parent := by
      by_cases owned : m.parent = some c
      · simp [Node.rewired, child, owned]
      · simp [Node.rewired, child, owned]
    have element : (m.rewired c n.element h).element = m.element := by
      by_cases same : h = c
      · subst same
        cases held.symm.trans stored
        exact element_rewired_self h n.element n
      · exact element_rewired_of_ne same n.element m
    exact congrArg some (congr (congrArg Node.mk parent) element)

/-- What left its container may come back. -/
theorem attachable_removed (wf : a.WellFormed) (owned : a.owner? x = some c)
    (absent : x ∉ e.children) (fits : a.Rewirable c e) : (a.rewire c e).Attachable c x where
  stored := by
    obtain ⟨k, held⟩ := stored_of_owner? owned
    exact ⟨_, get?_rewire_of_stored held⟩
  free := by rw [owner?_rewire_of_not_mem absent, if_pos owned]
  not_root := wf.ne_root_of_owner? owned
  other := wf.irrefl owned
  not_above above := by
    have before := (fits.isAbove_container wf).mp above
    exact wf.acyclic x (before.trans (isAbove_of_owner? owned))

/-- A container that is rewired may hold what it may hold once it is rewired. -/
theorem Rewirable.trans (wf : a.WellFormed) {e' : Element} (fits : a.Rewirable c e)
    (later : (a.rewire c e).Rewirable c e') : a.Rewirable c e' where
  nodup := later.nodup
  wrapper := later.wrapper
  child := by
    intro x member
    rcases later.child x member with owned | attachable
    · rcases owner?_rewire_eq_some owned with ⟨held, _⟩ | ⟨_, other, _⟩
      · exact fits.child x held
      · exact absurd rfl other
    · by_cases owned : a.owner? x = some c
      · exact .inl owned
      · have absent : x ∉ e.children := fun held => by
          have free := attachable.free
          obtain ⟨k, stored⟩ := fits.stored held
          rw [owner?_rewire_of_mem stored held] at free
          cases free
        obtain ⟨k, stored⟩ := attachable.stored
        obtain ⟨k', stored', _⟩ := get?_rewire_eq_some.mp stored
        refine .inr ⟨⟨k', stored'⟩, ?_, attachable.not_root, attachable.other, fun above => ?_⟩
        · have free := attachable.free
          rwa [owner?_rewire_of_not_mem absent, if_neg owned] at free
        · exact attachable.not_above ((fits.isAbove_container wf).mpr above)

/-- Where a container only loses children, nothing comes to lie above anything. -/
theorem isAbove_of_rewire (wf : a.WellFormed) (stored : a.get? c = some n)
    (fewer : ∀ x ∈ e.children, x ∈ n.element.children) (above : (a.rewire c e).IsAbove x y) :
    a.IsAbove x y := by
  have owners : ∀ {p h}, (a.rewire c e).owner? h = some p → a.owner? h = some p := by
    intro p h owned
    rcases owner?_rewire_eq_some owned with ⟨member, rfl⟩ | ⟨_, _, owned'⟩
    · exact wf.records stored h (fewer h member)
    · exact owned'
  induction above with
  | single owned => exact isAbove_of_owner? (owners owned)
  | tail _ owned ih => exact ih.trans (isAbove_of_owner? (owners owned))

end Arena

end AlgebraEditor
