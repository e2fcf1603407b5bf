import AlgebraEditor.Proofs.Arena.Evolution

/-!
# Building elements

New elements are built from the leaves up, in an arena that is in use: each is stored, and then takes
its parts, which nothing owns until then. `Adds` is what holds all the while. An arena with elements
added has its old elements as they were, and the new ones hang below tops that nothing owns, each of
which denotes a term. One new container joins some of the tops to one (`Adds.create`), and what was
added in two goes adds up (`Adds.trans`).
-/

namespace AlgebraEditor

open Term

namespace Arena

/-- The second arena has everything that the first one has, as it was there. -/
structure Retains (a b : Arena) : Prop where
  root : b.root = a.root
  kept : ∀ h n, a.get? h = some n → b.get? h = some n

/-- The second arena is the first one with the elements of the terms `ts` added, where `xs` are their
tops. Places that were there are as they were, empty ones included. -/
structure Adds (a : Arena) (ts : List Term) (xs : List Handle) (b : Arena) : Prop where
  wf : b.WellFormed
  root : b.root = a.root
  room : a.places.size ≤ b.places.size
  old : ∀ h, h.index < a.places.size → b.get? h = a.get? h
  tops : ∀ h, h ∈ xs ↔ a.places.size ≤ h.index ∧ ∃ n, b.get? h = some n ∧ n.parent = none
  nodup : xs.Nodup
  denotes : xs.map b.denote = ts
  size : b.size = a.size + sizes ts

variable {a b d : Arena} {c h p x y old : Handle} {e : Element} {n m : Node} {t : Term}
  {ts us : List Term} {xs ys : List Handle}

theorem Retains.refl (a : Arena) : a.Retains a := ⟨rfl, fun _ _ stored => stored⟩

theorem Retains.trans (first : a.Retains b) (second : b.Retains d) : a.Retains d :=
  ⟨second.root.trans first.root, fun h n stored => second.kept h n (first.kept h n stored)⟩

theorem Retains.denote_eq (retains : a.Retains b) (wf : a.WellFormed) (wf' : b.WellFormed)
    (stored : a.get? h = some n) : b.denote h = a.denote h :=
  wf.denote_congr wf' stored fun x m _ held => ⟨m, retains.kept x m held, rfl⟩

theorem absent_of_le (outside : a.places.size ≤ h.index) : a.get? h = none := by
  cases held : a.get? h with
  | none => rfl
  | some n => exact absurd (index_lt_of_get? held) (Nat.not_lt.mpr outside)

theorem sizes_perm (perm : ts.Perm us) : sizes ts = sizes us := by
  induction perm with
  | nil => rfl
  | cons t _ ih => rw [sizes, sizes, ih]
  | swap t u ts => simp only [sizes]; omega
  | trans _ _ first second => rw [first, second]

namespace Adds

/-! ### What was there -/

section

variable (adds : a.Adds ts xs b)

include adds

theorem stored (held : a.get? h = some n) : b.get? h = some n := by
  rw [adds.old h (index_lt_of_get? held), held]

theorem length_eq : xs.length = ts.length := by rw [← adds.denotes, List.length_map]

theorem retains : a.Retains b := ⟨adds.root, fun _ _ => adds.stored⟩

theorem owner?_eq (held : a.get? h = some n) : b.owner? h = a.owner? h := by
  rw [owner?_of_get? held, owner?_of_get? (adds.stored held)]

theorem evolves : a.Evolves b := ⟨adds.wf, adds.root, fun held => ⟨_, adds.stored held⟩⟩

theorem denote_eq (wf : a.WellFormed) (held : a.get? h = some n) : b.denote h = a.denote h :=
  adds.retains.denote_eq wf adds.wf held

/-! ### What is new -/

theorem new_of_absent (absent : a.get? h = none) (found : b.get? h = some n) :
    a.places.size ≤ h.index := by
  by_contra old
  rw [adds.old h (Nat.lt_of_not_le old), absent] at found
  cases found

theorem fresh (top : x ∈ xs) : a.get? x = none := absent_of_le ((adds.tops x).mp top).1

theorem top_stored (top : x ∈ xs) : ∃ n, b.get? x = some n ∧ n.parent = none :=
  ((adds.tops x).mp top).2

theorem unowned (top : x ∈ xs) : b.owner? x = none := by
  obtain ⟨n, found, free⟩ := adds.top_stored top
  rw [owner?_of_get? found, free]

theorem ne_root (wf : a.WellFormed) (top : x ∈ xs) : x ≠ b.root := by
  rintro rfl
  obtain ⟨inner, held⟩ := wf.wrapper
  rw [← adds.root, adds.fresh top] at held
  cases held

/-- What a new element holds is new. -/
theorem child_new (wf : a.WellFormed) (new : a.places.size ≤ h.index) (found : b.get? h = some n)
    (member : c ∈ n.element.children) : a.places.size ≤ c.index := by
  by_contra old
  obtain ⟨m, held⟩ := adds.wf.stored_of_mem_children found member
  rw [adds.old c (Nat.lt_of_not_le old)] at held
  have owned := adds.wf.records found c member
  rw [adds.owner?_eq held] at owned
  obtain ⟨k, stored⟩ := wf.stored_of_owner? owned
  rw [absent_of_le new] at stored
  cases stored

/-- Nothing that was there owns what is new. -/
theorem owner_new (wf : a.WellFormed) (new : a.places.size ≤ h.index)
    (owned : b.owner? h = some p) : a.places.size ≤ p.index := by
  by_contra old
  obtain ⟨n, held, member⟩ := adds.wf.holds owned
  rw [adds.old p (Nat.lt_of_not_le old)] at held
  obtain ⟨m, stored⟩ := wf.stored_of_mem_children held member
  rw [absent_of_le new] at stored
  cases stored

/-- New elements lie below the tops. -/
theorem exists_top (wf : a.WellFormed) (new : a.places.size ≤ h.index)
    (found : b.get? h = some n) : ∃ x ∈ xs, h = x ∨ b.IsAbove x h := by
  obtain ⟨hs, up⟩ := adds.wf.exists_ascends found
  induction up generalizing n with
  | top stored free => exact ⟨_, (adds.tops _).mpr ⟨new, _, stored, free⟩, .inl rfl⟩
  | @up h p hs owned _ ih =>
    obtain ⟨m, stored⟩ := adds.wf.stored_of_owner? owned
    obtain ⟨x, top, rfl | above⟩ := ih (adds.owner_new wf new owned) stored
    · exact ⟨p, top, .inr (isAbove_of_owner? owned)⟩
    · exact ⟨x, top, .inr (above.tail owned)⟩

/-- What lies in an element is new if the element is, and only then. -/
theorem new_iff_of_isAbove (wf : a.WellFormed) (above : b.IsAbove h x) :
    a.places.size ≤ h.index ↔ a.places.size ≤ x.index := by
  have step : ∀ {p c}, b.owner? c = some p → (a.places.size ≤ p.index ↔ a.places.size ≤ c.index) := by
    intro p c owned
    obtain ⟨n, found, member⟩ := adds.wf.holds owned
    exact ⟨fun new => adds.child_new wf new found member, fun new => adds.owner_new wf new owned⟩
  induction above with
  | single owned => exact step owned
  | tail _ owned ih => exact ih.trans (step owned)

/-- Whatever is below a top is new. -/
theorem new_of_isAbove (wf : a.WellFormed) (top : x ∈ xs) (above : b.IsAbove x h) :
    a.places.size ≤ h.index :=
  (adds.new_iff_of_isAbove wf above).mp ((adds.tops x).mp top).1

/-- Everything that was there may hold a top. -/
theorem attachable (wf : a.WellFormed) (held : a.get? c = some n) (top : x ∈ xs) :
    b.Attachable c x where
  stored := by
    obtain ⟨n, found, _⟩ := adds.top_stored top
    exact ⟨n, found⟩
  free := adds.unowned top
  not_root := adds.ne_root wf top
  other := by
    rintro rfl
    rw [adds.fresh top] at held
    cases held
  not_above above := Nat.not_lt.mpr (adds.new_of_isAbove wf top above) (index_lt_of_get? held)

end

/-- What a single top has below it, and itself, is all that is new. -/
theorem new_iff (adds : a.Adds [t] [x] b) (wf : a.WellFormed) :
    (h = x ∨ b.IsAbove x h) ↔ a.contains h = false ∧ b.contains h = true := by
  have absent : a.contains h = false ↔ a.get? h = none := by
    rw [contains, Option.isSome_eq_false_iff, Option.isNone_iff_eq_none]
  rw [absent, contains_iff]
  constructor
  · rintro (rfl | above)
    · obtain ⟨n, found, _⟩ := adds.top_stored (List.mem_singleton_self h)
      exact ⟨adds.fresh (List.mem_singleton_self h), n, found⟩
    · exact ⟨absent_of_le (adds.new_of_isAbove wf (List.mem_singleton_self x) above),
        stored_of_isAbove above⟩
  · rintro ⟨missing, n, found⟩
    obtain ⟨y, top, place⟩ := adds.exists_top wf (adds.new_of_absent missing found) found
    rwa [List.mem_singleton.mp top] at place

/-! ### Taking a slot -/

section

variable (adds : a.Adds ts xs b) (wf : a.WellFormed) (stored : a.get? c = some n)
  (member : old ∈ n.element.children) (top : x ∈ xs)

include adds wf stored member top

/-- A top may take the place of a child of what was there. -/
theorem rewirable : b.Rewirable c (n.element.replaceChild old x) :=
  Edit.rewirable_replace adds.wf (adds.stored stored) member (adds.attachable wf stored top)

/-- Replacing a child by a top goes through. -/
theorem run_replace : (Edit.replace c old x).run b =
    .ok () (b.rewire c (n.element.replaceChild old x)) := by
  have other : old ≠ x := by
    rintro rfl
    obtain ⟨m, held⟩ := wf.stored_of_mem_children stored member
    rw [adds.fresh top] at held
    cases held
  exact (Edit.run_replace_eq_ok adds.wf).mpr ⟨n, adds.stored stored, member,
    .inr ⟨other, adds.attachable wf stored top, rfl⟩⟩

end

/-! ### Adding more -/

theorem refl (wf : a.WellFormed) : a.Adds [] [] a where
  wf := wf
  root := rfl
  room := Nat.le_refl _
  old _ _ := rfl
  tops h := by
    refine ⟨nofun, fun ⟨outside, n, stored, _⟩ => ?_⟩
    exact absurd (index_lt_of_get? stored) (Nat.not_lt.mpr outside)
  nodup := List.nodup_nil
  denotes := rfl
  size := rfl

theorem perm (adds : a.Adds ts xs b) (same : xs.Perm ys) : a.Adds (ys.map b.denote) ys b where
  wf := adds.wf
  root := adds.root
  room := adds.room
  old := adds.old
  tops h := by rw [← same.mem_iff, adds.tops]
  nodup := same.nodup_iff.mp adds.nodup
  denotes := rfl
  size := by rw [adds.size, ← adds.denotes, sizes_perm (same.map b.denote)]

/-- What is added later leaves what was added before as it is. -/
theorem trans (first : a.Adds ts xs b) (second : b.Adds us ys d) :
    a.Adds (ts ++ us) (xs ++ ys) d where
  wf := second.wf
  root := second.root.trans first.root
  room := Nat.le_trans first.room second.room
  old h inside := by rw [second.old h (Nat.lt_of_lt_of_le inside first.room), first.old h inside]
  tops h := by
    rw [List.mem_append, first.tops, second.tops]
    by_cases before : h.index < b.places.size
    · rw [second.old h before]
      exact ⟨fun either => either.resolve_right fun ⟨after, _⟩ => Nat.not_lt.mpr after before, .inl⟩
    · have after := Nat.le_of_not_lt before
      refine ⟨fun either => ?_, fun ⟨_, stored⟩ => .inr ⟨after, stored⟩⟩
      rcases either with ⟨_, n, stored, _⟩ | ⟨_, stored⟩
      · exact absurd (index_lt_of_get? stored) before
      · exact ⟨Nat.le_trans first.room after, stored⟩
  nodup := by
    refine List.nodup_append.mpr ⟨first.nodup, second.nodup, ?_⟩
    rintro x earlier _ later rfl
    obtain ⟨n, stored, _⟩ := first.top_stored earlier
    rw [second.fresh later] at stored
    cases stored
  denotes := by
    rw [List.map_append, second.denotes, ← first.denotes]
    refine congrArg (· ++ us) (List.map_congr_left fun x top => ?_)
    obtain ⟨n, stored, _⟩ := first.top_stored top
    exact second.denote_eq first.wf stored
  size := by rw [second.size, first.size, sizes_append, Nat.add_assoc]

end Adds

/-! ### New containers -/

theorem size_rewire (a : Arena) (c : Handle) (e : Element) : (a.rewire c e).size = a.size := by
  simp only [size, rewire, ← Array.countP_toList, Array.toList_mapIdx]
  generalize a.places.toList = places
  induction places using List.reverseRecOn with
  | nil => rfl
  | append_singleton places place ih => simp [List.mapIdx_append, List.countP_append, ih]

/-- What a new container does not hold is as it was. -/
theorem get?_created (wf : b.WellFormed) (other : h ≠ b.next) (out : h ∉ e.children) :
    ((b.plant (.integer 0)).rewire b.next e).get? h = b.get? h := by
  rw [plant_integer, get?_rewire, get?_push_of_ne b _ other]
  cases stored : b.get? h with
  | none => rfl
  | some n =>
    have apart : n.parent ≠ some b.next := fun owned => by
      obtain ⟨m, held⟩ := wf.stored_of_owner? ((owner?_of_get? stored).trans owned)
      exact ne_next_of_stored held rfl
    simp [Node.rewired, other, out, apart]

section Create

variable (adds : a.Adds ts xs b) (wf : a.WellFormed) (parts : xs.Perm (e.children ++ ys))

include adds parts

theorem Adds.nodup_parts : e.children.Nodup ∧ ys.Nodup ∧ ∀ x ∈ ys, x ∉ e.children := by
  obtain ⟨nodup, nodup', apart⟩ := List.nodup_append.mp (parts.nodup_iff.mp adds.nodup)
  exact ⟨nodup, nodup', fun x rest part => apart x part x rest rfl⟩

include wf

theorem Adds.free_parts : ∀ x ∈ e.children,
    (∃ n, b.get? x = some n) ∧ b.owner? x = none ∧ x ≠ b.root := by
  intro x member
  have top : x ∈ xs := parts.mem_iff.mpr (List.mem_append_left _ member)
  obtain ⟨n, stored, _⟩ := adds.top_stored top
  exact ⟨⟨n, stored⟩, adds.unowned top, adds.ne_root wf top⟩

/-- The tops that a new container does not take are left, and the container is another. -/
theorem Adds.tops_create (container : ((b.plant (.integer 0)).rewire b.next e).get? b.next =
    some ⟨none, e⟩) (h : Handle) : h ∈ b.next :: ys ↔ a.places.size ≤ h.index ∧
      ∃ n, ((b.plant (.integer 0)).rewire b.next e).get? h = some n ∧ n.parent = none := by
  by_cases new : h = b.next
  · subst new
    exact iff_of_true List.mem_cons_self ⟨adds.room, _, container, rfl⟩
  obtain ⟨_, _, apart⟩ := adds.nodup_parts parts
  have top : h ∈ ys ↔ h ∈ xs ∧ h ∉ e.children := by
    rw [parts.mem_iff, List.mem_append]
    exact ⟨fun rest => ⟨.inr rest, apart h rest⟩, fun ⟨either, out⟩ => either.resolve_left out⟩
  rw [List.mem_cons, or_iff_right new, top, adds.tops, and_assoc]
  refine and_congr_right fun _ => ?_
  by_cases part : h ∈ e.children
  · obtain ⟨⟨n, stored⟩, _⟩ := adds.free_parts wf parts h part
    rw [get?_rewire_of_stored (get?_plant_of_stored stored _)]
    simp [Node.rewired, part]
  · rw [get?_created adds.wf new part, and_iff_left part]

/-- A new container takes some of the tops, which nothing owns, and is a top itself. -/
theorem Adds.create (kind : e.kind ≠ .root) : ∃ x d, (Edit.create e).run b = .ok x d ∧
    a.Adds (e.toTerm b.denote :: ys.map b.denote) (x :: ys) d := by
  obtain ⟨nodup, nodup', apart⟩ := adds.nodup_parts parts
  have free := adds.free_parts wf parts
  have fits := Edit.rewirable_create adds.wf kind nodup free
  have planted := adds.wf.plant (unwrapped_integer 0)
  have wf' := planted.rewire get?_plant_next fits
  have container := fits.get?_container planted get?_plant_next
  have denotes : ∀ {h n}, b.get? h = some n →
      ((b.plant (.integer 0)).rewire b.next e).denote h = b.denote h := fun stored =>
    adds.wf.denote_congr wf' stored fun z m _ held =>
      ⟨_, get?_rewire_of_stored (get?_plant_of_stored held _),
        element_rewired_of_ne (ne_next_of_stored held) e m⟩
  have rest : ∀ x ∈ ys, ∃ n, b.get? x = some n := by
    intro x member
    obtain ⟨n, stored, _⟩ := adds.top_stored (parts.mem_iff.mpr (List.mem_append_right _ member))
    exact ⟨n, stored⟩
  refine ⟨b.next, _, (Edit.run_create_eq_ok adds.wf).mpr ⟨nodup, free, rfl, rfl⟩, wf', adds.root,
    ?_, fun h inside => ?_, adds.tops_create wf parts container, ?_, ?_, ?_⟩
  · rw [size_places_rewire, places_plant]
    exact Nat.le_trans adds.room (Nat.le_add_right _ _)
  · have other : h ≠ b.next := fun same => by
      rw [same] at inside
      exact Nat.not_lt.mpr adds.room inside
    have out : h ∉ e.children := fun part =>
      Nat.not_lt.mpr ((adds.tops h).mp (parts.mem_iff.mpr (List.mem_append_left _ part))).1 inside
    rw [get?_created adds.wf other out, adds.old h inside]
  · refine List.nodup_cons.mpr ⟨fun member => ?_, nodup'⟩
    obtain ⟨n, stored⟩ := rest b.next member
    exact ne_next_of_stored stored rfl
  · have head : e.toTerm ((b.plant (.integer 0)).rewire b.next e).denote = e.toTerm b.denote := by
      refine Element.toTerm_congr fun c part => ?_
      obtain ⟨⟨n, stored⟩, _⟩ := free c part
      exact denotes stored
    rw [List.map_cons, wf'.denote_eq container, head]
    refine congrArg (_ :: ·) (List.map_congr_left fun x member => ?_)
    obtain ⟨n, stored⟩ := rest x member
    exact denotes stored
  · have before : sizes ts = sizes (e.children.map b.denote) + sizes (ys.map b.denote) := by
      rw [← adds.denotes, sizes_perm (parts.map b.denote), List.map_append, sizes_append]
    have one : (Term.integer 0).size = 1 := rfl
    rw [size_rewire, size_plant, adds.size, before, one, sizes, size_eq (e.toTerm b.denote),
      Element.children_toTerm]
    omega

end Create

end Arena

end AlgebraEditor
