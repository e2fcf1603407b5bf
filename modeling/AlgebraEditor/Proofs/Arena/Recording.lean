import AlgebraEditor.Proofs.Arena.Rewiring

/-!
# Recording owners

Elements are taken and let go one by one, and every time the arena checks that no element comes to
hang below itself. Those checks pass as long as the way up from the container stays the same.
-/

namespace AlgebraEditor

namespace Arena

variable {a b : Arena} {c h x : Handle} {n : Node} {p : Option Handle}

/-- The arena in which elements record another owner. -/
def record (a : Arena) (p : Option Handle) (xs : List Handle) : Arena :=
  xs.foldl (fun a x => a.modify x fun n => { n with parent := p }) a

@[simp] theorem root_record (a : Arena) (p : Option Handle) (xs : List Handle) :
    (a.record p xs).root = a.root := by
  induction xs generalizing a with
  | nil => rfl
  | cons x xs ih => exact ih _

@[simp] theorem size_places_record (a : Arena) (p : Option Handle) (xs : List Handle) :
    (a.record p xs).places.size = a.places.size := by
  induction xs generalizing a with
  | nil => rfl
  | cons x xs ih => exact (ih _).trans (by simp [modify])

theorem get?_record (a : Arena) (p : Option Handle) (xs : List Handle) (h : Handle) :
    (a.record p xs).get? h =
      if h ∈ xs then (a.get? h).map fun n => { n with parent := p } else a.get? h := by
  induction xs generalizing a with
  | nil => rfl
  | cons x xs ih =>
    rw [record, List.foldl_cons, ← record, ih, get?_modify]
    by_cases same : h = x
    · cases a.get? h <;> simp [same]
    · simp [same]

theorem owner?_record_of_not_mem {xs : List Handle} (absent : h ∉ xs) :
    (a.record p xs).owner? h = a.owner? h := by
  rw [owner?, get?_record, if_neg absent, owner?]

theorem owner?_record_of_mem {xs : List Handle} (stored : a.get? h = some n) (member : h ∈ xs) :
    (a.record p xs).owner? h = p := by
  rw [owner?, get?_record, if_pos member, stored]
  rfl

theorem stored_record {xs : List Handle} (stored : ∃ n, a.get? h = some n) :
    ∃ n, (a.record p xs).get? h = some n := by
  obtain ⟨n, stored⟩ := stored
  rw [get?_record, stored]
  split
  · exact ⟨_, rfl⟩
  · exact ⟨n, rfl⟩

theorem owner?_modify_element (a : Arena) (c h : Handle) (f : Element → Element) :
    (a.modify c fun n => { n with element := f n.element }).owner? h = a.owner? h := by
  rw [owner?, get?_modify, owner?]
  split
  · cases a.get? h <;> rfl
  · rfl

/-- The way up from an element is the same where the elements on it record the same owners. -/
theorem Ascends.congr {hs : List Handle} (up : a.Ascends h hs)
    (same : ∀ y ∈ h :: hs, b.owner? y = a.owner? y ∧
      ((∃ n, a.get? y = some n) → ∃ n, b.get? y = some n)) : b.Ascends h hs := by
  induction up with
  | @top h n stored parentless =>
    obtain ⟨owner, kept⟩ := same h List.mem_cons_self
    obtain ⟨m, held⟩ := kept ⟨n, stored⟩
    refine .top held ?_
    rw [← owner?_of_get? held, owner, owner?_of_get? stored, parentless]
  | up owned _ ih =>
    refine .up ((same _ List.mem_cons_self).1.trans owned) ?_
    exact ih fun y member => same y (List.mem_cons_of_mem _ member)

/-- What may be attached depends on the way up from the container and on the element itself. -/
theorem Attachable.congr {hs : List Handle} (fits : a.Attachable c x) (up : a.Ascends c hs)
    (up' : b.Ascends c hs) (root : b.root = a.root) (stored : ∃ n, b.get? x = some n)
    (owner : b.owner? x = a.owner? x) : b.Attachable c x where
  stored := stored
  free := owner.trans fits.free
  not_root := root ▸ fits.not_root
  other := fits.other
  not_above := fun above => fits.not_above (up.mem_iff.mp (up'.mem_iff.mpr above))

theorem Attachable.not_mem {hs : List Handle} (fits : a.Attachable c x) (up : a.Ascends c hs) :
    x ∉ c :: hs := by
  intro member
  rcases List.mem_cons.mp member with same | above
  · exact fits.other same
  · exact fits.not_above (up.mem_iff.mp above)

theorem Ascends.record {hs xs : List Handle} (up : a.Ascends h hs) (apart : ∀ x ∈ xs, x ∉ h :: hs) :
    (a.record p xs).Ascends h hs :=
  up.congr fun y member =>
    ⟨owner?_record_of_not_mem fun inside => apart y inside member, stored_record⟩

theorem stored_modify {f : Node → Node} :
    (∃ n, (a.modify c f).get? h = some n) ↔ ∃ n, a.get? h = some n := by
  rw [get?_modify]
  split
  · cases a.get? h <;> simp
  · rfl

theorem Ascends.modify_element {hs : List Handle} (up : a.Ascends h hs) (f : Element → Element) :
    (a.modify c fun n => { n with element := f n.element }).Ascends h hs :=
  up.congr fun y _ => ⟨owner?_modify_element a c y f, stored_modify.mpr⟩

/-- Changing the element of a container, then the owners of what it held and holds, rewires it. -/
theorem record_eq_rewire (wf : a.WellFormed) (stored : a.get? c = some n) (f : Element → Element)
    (left came : List Handle) (gone : ∀ y ∈ left, y ∈ n.element.children)
    (slots : ∀ y, y ∈ (f n.element).children ↔ y ∈ came ∨ (y ∈ n.element.children ∧ y ∉ left)) :
    ((a.modify c fun n => { n with element := f n.element }).record none left).record (some c) came =
      a.rewire c (f n.element) := by
  refine ext_get? (by simp [modify]) (by simp [modify]) fun h => ?_
  rw [get?_record, get?_record, get?_modify, get?_rewire]
  cases held : a.get? h with
  | none => simp
  | some m =>
    have owner := owner?_of_get? held
    have child := wf.mem_children_iff (h := h) stored
    rw [owner] at child
    have parent : (if h ∈ came then some c else if h ∈ left then none else m.parent) =
        (m.rewired c (f n.element) h).parent := by
      simp only [Node.rewired, slots h, child]
      by_cases new : h ∈ came
      · simp [new]
      · by_cases old : h ∈ left
        · simp [new, old, child.mp (gone h old)]
        · by_cases owned : m.parent = some c <;> simp [new, old, owned]
    have element : (if h = c then f m.element else m.element) =
        (m.rewired c (f n.element) h).element := by
      by_cases same : h = c
      · subst same
        cases held.symm.trans stored
        simp [Node.rewired]
      · simp [Node.rewired, same]
    have node : m.rewired c (f n.element) h =
        ⟨if h ∈ came then some c else if h ∈ left then none else m.parent,
          if h = c then f m.element else m.element⟩ := by
      rw [parent, element]
    simp only [Option.map_some, node]
    split <;> split <;> split <;> rfl

end Arena

namespace Edit

open Arena

variable {a b : Arena} {c h x old new : Handle} {hs xs : List Handle} {n m : Node} {r : Unit}

/-! ### Ownership -/

theorem run_checkAttachable_eq_ok (up : a.Ascends c hs) (enough : hs.length < a.reach) :
    (checkAttachable c x).run a = .ok r b ↔ a.Attachable c x ∧ b = a := by
  unfold checkAttachable
  simp only [run_get_bind, run_guard, parentOf, run_inspect_bind]
  have meets : a.isAncestorOf x c = .ok (decide (x ∈ hs)) := Arena.climbMeets_eq_ok up enough x
  constructor
  · rintro ⟨notRoot, parent, recorded, rest⟩
    cases parent with
    | some owner => exact absurd rest run_throw_bind
    | none =>
      simp only [run_guard, run_inspect_bind, run_last_guard] at rest
      obtain ⟨other, _, met, outside, rfl⟩ := rest
      cases meets.symm.trans met
      obtain ⟨n, stored, free⟩ := Arena.parent_eq_ok.mp recorded
      refine ⟨⟨⟨n, stored⟩, ?_, notRoot, other, fun above => ?_⟩, rfl⟩
      · rw [Arena.owner?_of_get? stored, free]
      · simp [up.mem_iff.mpr above] at outside
  · rintro ⟨fits, rfl⟩
    obtain ⟨n, stored⟩ := fits.stored
    refine ⟨fits.not_root, none, ?_, ?_⟩
    · rw [Arena.parent_of_get? stored, fits.free]
    · simp only [run_guard, run_inspect_bind, run_last_guard]
      exact ⟨fits.other, _, meets, by simpa using fun h => fits.not_above (up.mem_iff.mp h), trivial⟩

theorem run_attach_eq_ok (up : a.Ascends c hs) (enough : hs.length < a.reach) :
    (attach c x).run a = .ok r b ↔ a.Attachable c x ∧ b = a.record (some c) [x] := by
  unfold attach
  rw [run_bind_eq_ok]
  simp only [run_checkAttachable_eq_ok up enough]
  constructor
  · rintro ⟨_, _, ⟨fits, rfl⟩, same⟩
    cases same
    exact ⟨fits, rfl⟩
  · rintro ⟨fits, rfl⟩
    exact ⟨(), a, ⟨fits, rfl⟩, rfl⟩

theorem run_detach_eq_ok :
    (detach c x).run a = .ok r b ↔ a.owner? x = some c ∧ b = a.record none [x] := by
  unfold detach
  simp only [parentOf, run_inspect_bind, run_guard]
  constructor
  · rintro ⟨_, recorded, same, run⟩
    rw [not_not] at same
    cases run
    rw [same] at recorded
    exact ⟨Arena.parent_eq_some.mp recorded, rfl⟩
  · rintro ⟨owned, rfl⟩
    exact ⟨_, Arena.parent_eq_some.mpr owned, by simp, rfl⟩

theorem run_detach_all_eq_ok : (xs.forM (detach c)).run a = .ok r b ↔
    xs.Nodup ∧ (∀ x ∈ xs, a.owner? x = some c) ∧ b = a.record none xs := by
  induction xs generalizing a with
  | nil =>
    rw [List.forM, run_pure_eq_ok]
    simp [Arena.record, eq_comm]
  | cons x xs ih =>
    rw [List.forM, run_bind_eq_ok]
    simp only [run_detach_eq_ok, ih, List.nodup_cons, List.forall_mem_cons]
    constructor
    · rintro ⟨_, _, ⟨owned, rfl⟩, nodup, all, same⟩
      obtain ⟨n, stored⟩ := Arena.stored_of_owner? owned
      have apart : ∀ y ∈ xs, y ≠ x := by
        rintro y member rfl
        have gone := all y member
        rw [Arena.owner?_record_of_mem stored List.mem_cons_self] at gone
        cases gone
      refine ⟨⟨fun member => apart x member rfl, nodup⟩, ⟨owned, fun y member => ?_⟩, same⟩
      rw [← all y member, Arena.owner?_record_of_not_mem (by simpa using apart y member)]
    · rintro ⟨⟨fresh, nodup⟩, ⟨owned, all⟩, same⟩
      refine ⟨(), a.record none [x], ⟨owned, rfl⟩, nodup, fun y member => ?_, same⟩
      rw [Arena.owner?_record_of_not_mem, all y member]
      rintro inside
      obtain rfl := List.mem_singleton.mp inside
      exact fresh member

theorem run_attach_all_eq_ok (up : a.Ascends c hs) (enough : hs.length < a.reach) :
    (xs.forM (attach c)).run a = .ok r b ↔
      xs.Nodup ∧ (∀ x ∈ xs, a.Attachable c x) ∧ b = a.record (some c) xs := by
  induction xs generalizing a with
  | nil =>
    rw [List.forM, run_pure_eq_ok]
    simp [Arena.record, eq_comm]
  | cons x xs ih =>
    rw [List.forM, run_bind_eq_ok]
    simp only [run_attach_eq_ok up enough, List.nodup_cons, List.forall_mem_cons]
    have kept : a.Attachable c x → (a.record (some c) [x]).Ascends c hs := fun fits =>
      up.record (by simpa using fits.not_mem up)
    have enough' : hs.length < (a.record (some c) [x]).reach := by
      rw [Arena.reach, Arena.size_places_record]
      exact enough
    constructor
    · rintro ⟨_, _, ⟨fits, rfl⟩, run⟩
      obtain ⟨nodup, all, same⟩ := (ih (kept fits) enough').mp run
      obtain ⟨n, stored⟩ := fits.stored
      have apart : ∀ y ∈ xs, y ≠ x := by
        rintro y member rfl
        have free := (all y member).free
        rw [Arena.owner?_record_of_mem stored List.mem_cons_self] at free
        cases free
      refine ⟨⟨fun member => apart x member rfl, nodup⟩, ⟨fits, fun y member => ?_⟩, same⟩
      have owner := Arena.owner?_record_of_not_mem (a := a) (p := some c)
        (show y ∉ [x] by simpa using apart y member)
      obtain ⟨m, held⟩ := (all y member).stored
      rw [Arena.get?_record, if_neg (by simpa using apart y member)] at held
      exact (all y member).congr (kept fits) up (Arena.root_record _ _ _).symm ⟨m, held⟩ owner.symm
    · rintro ⟨⟨fresh, nodup⟩, ⟨fits, all⟩, same⟩
      refine ⟨(), a.record (some c) [x], ⟨fits, rfl⟩, (ih (kept fits) enough').mpr ⟨nodup, fun y member => ?_, same⟩⟩
      have apart : y ∉ [x] := by
        intro inside
        obtain rfl := List.mem_singleton.mp inside
        exact fresh member
      exact (all y member).congr up (kept fits) (Arena.root_record _ _ _)
        (Arena.stored_record (all y member).stored) (Arena.owner?_record_of_not_mem apart)

end Edit

end AlgebraEditor
