import AlgebraEditor.Proofs.Arena.Planting
import AlgebraEditor.Proofs.Arena.Recording
import AlgebraEditor.Proofs.Arena.Slots

/-!
# What edits do

In a well-formed arena an edit goes through exactly if it is legal, and then leaves a rewired arena.
-/

namespace AlgebraEditor.Edit

open Arena

variable {a b : Arena} {c h x old new : Handle} {hs xs : List Handle} {n m : Node} {r : Unit}

/-! ### Changing slots -/

theorem mem_container_iff (wf : a.WellFormed) :
    a.owner? x = some c ↔ ∃ n, a.get? c = some n ∧ x ∈ n.element.children := by
  constructor
  · exact wf.holds
  · rintro ⟨n, stored, member⟩
    exact wf.records stored x member

theorem rewirable_replace (wf : a.WellFormed) (stored : a.get? c = some n)
    (member : old ∈ n.element.children) (fits : a.Attachable c new) :
    a.Rewirable c (n.element.replaceChild old new) := by
  refine wf.rewirable stored (Element.kind_replaceChild _ _ _) ?_ ?_
  · rw [Element.children_replaceChild]
    exact nodup_replace (wf.distinct stored) member (fits.not_mem_children wf stored)
  · intro y inside
    rw [Element.children_replaceChild, mem_replace_iff (wf.distinct stored) member] at inside
    rcases inside with rfl | ⟨before, _⟩
    · exact .inr fits
    · exact .inl before

/-- What left its slot to another is owned by nothing. -/
theorem owner?_replaced (wf : a.WellFormed) (stored : a.get? c = some n)
    (member : old ∈ n.element.children) (fits : a.Attachable c new) :
    (a.rewire c (n.element.replaceChild old new)).owner? old = none := by
  rw [owner?_rewire_of_not_mem, if_pos (wf.records stored old member)]
  rw [Element.children_replaceChild, mem_replace_iff (wf.distinct stored) member]
  rintro (rfl | ⟨_, other⟩)
  · exact fits.not_mem_children wf stored member
  · exact other rfl

theorem not_mem_ascends (wf : a.WellFormed) (up : a.Ascends c hs) (owned : a.owner? x = some c) :
    x ∉ c :: hs := by
  intro member
  rcases List.mem_cons.mp member with rfl | above
  · exact wf.irrefl owned rfl
  · exact wf.acyclic c ((isAbove_of_owner? owned).trans (up.mem_iff.mp above))

theorem run_exchange (wf : a.WellFormed) (stored : a.get? c = some n)
    (member : old ∈ n.element.children) (fits : a.Attachable c new) :
    (do
      modify (·.modify c fun n => { n with element := n.element.replaceChild old new })
      detach c old
      attach c new : Edit Unit).run a = .ok () (a.rewire c (n.element.replaceChild old new)) := by
  have owned := wf.records stored old member
  have other : new ≠ old := by
    rintro rfl
    exact fits.not_mem_children wf stored member
  obtain ⟨hs, up⟩ := wf.exists_ascends stored
  have outside := not_mem_ascends wf up owned
  have changed := up.modify_element (c := c) (·.replaceChild old new)
  have left := changed.record (p := none) (show ∀ x ∈ [old], x ∉ c :: hs by simpa using outside)
  have enough := up.length_lt_reach
  have detached := run_detach_eq_ok (r := ()) (x := old) (c := c) |>.mpr
    ⟨(owner?_modify_element a c old (·.replaceChild old new)).trans owned, rfl⟩
  have attached := run_attach_eq_ok (r := ()) (x := new) left (by
    rw [Arena.reach, Arena.size_places_record, Arena.modify, Array.size_modify]
    exact enough) |>.mpr ⟨fits.congr up left (Arena.root_record _ _ _) (Arena.stored_record
      (stored_modify.mpr fits.stored)) (by
        rw [Arena.owner?_record_of_not_mem (by simpa using other), owner?_modify_element]), rfl⟩
  rw [← record_eq_rewire wf stored (·.replaceChild old new) [old] [new]
    (by simpa using member) (fun y => by
      rw [Element.children_replaceChild, mem_replace_iff (wf.distinct stored) member]
      simp)]
  rw [run_modify_bind, run_bind_of_ok detached]
  exact attached

/-- One child leaves its slot to another, or nothing changes if the two are the same. -/
theorem run_replace_eq_ok (wf : a.WellFormed) : (replace c old new).run a = .ok r b ↔
    ∃ n, a.get? c = some n ∧ old ∈ n.element.children ∧ ((old = new ∧ b = a) ∨
      (old ≠ new ∧ a.Attachable c new ∧ b = a.rewire c (n.element.replaceChild old new))) := by
  unfold replace
  by_cases same : old = new
  · rw [if_pos same]
    simp only [parentOf, run_inspect_bind, run_guard, run_pure_eq_ok]
    constructor
    · rintro ⟨_, recorded, owned, _, rfl⟩
      rw [not_not] at owned
      subst owned
      obtain ⟨n, stored, member⟩ := (mem_container_iff wf).mp (Arena.parent_eq_some.mp recorded)
      exact ⟨n, stored, member, .inl ⟨same, rfl⟩⟩
    · rintro ⟨n, stored, member, ⟨_, rfl⟩ | ⟨other, _⟩⟩
      · exact ⟨_, Arena.parent_eq_some.mpr (wf.records stored old member), by simp, trivial, rfl⟩
      · exact absurd same other
  · rw [if_neg same]
    simp only [parentOf, childrenOf, run_inspect_bind, run_guard, not_not]
    constructor
    · rintro ⟨_, recorded, rfl, _, listed, member, run⟩
      obtain ⟨n, stored, rfl⟩ := Arena.children_eq_ok.mp listed
      obtain ⟨hs, up⟩ := wf.exists_ascends stored
      obtain ⟨_, _, checked, exchanged⟩ := run_bind_eq_ok.mp run
      obtain ⟨fits, rfl⟩ := (run_checkAttachable_eq_ok up up.length_lt_reach).mp checked
      cases (run_exchange wf stored member fits).symm.trans exchanged
      exact ⟨n, stored, member, .inr ⟨same, fits, rfl⟩⟩
    · rintro ⟨n, stored, member, ⟨same', _⟩ | ⟨_, fits, rfl⟩⟩
      · exact absurd same' same
      · obtain ⟨hs, up⟩ := wf.exists_ascends stored
        have checked := (run_checkAttachable_eq_ok (r := ()) up up.length_lt_reach).mpr
          ⟨fits, rfl⟩
        refine ⟨_, Arena.parent_eq_some.mpr (wf.records stored old member), rfl, _,
          Arena.children_of_get? stored, member, ?_⟩
        rw [run_bind_of_ok checked]
        exact run_exchange wf stored member fits

/-- A child is inserted into a list at any position up to its end. -/
theorem run_insertChild_eq_ok (wf : a.WellFormed) {list : Handle} {i : Nat} :
    (insertChild list i x).run a = .ok r b ↔ ∃ n, a.get? list = some n ∧
      n.element.kind.isList = true ∧ i ≤ n.element.children.length ∧ a.Attachable list x ∧
      b = a.rewire list (n.element.modifyList (·.insertIdx i x)) := by
  have change : ∀ {n}, a.get? list = some n → n.element.kind.isList = true →
      i ≤ n.element.children.length → a.Attachable list x →
      (do
        modify (·.modify list fun n =>
          { n with element := n.element.modifyList (·.insertIdx i x) })
        attach list x : Edit Unit).run a =
        .ok () (a.rewire list (n.element.modifyList (·.insertIdx i x))) := by
    intro n stored isList short fits
    obtain ⟨hs, up⟩ := wf.exists_ascends stored
    have changed := up.modify_element (c := list) (·.modifyList (·.insertIdx i x))
    have enough := up.length_lt_reach
    have attached := run_attach_eq_ok (r := ()) (x := x) changed (by
      rw [Arena.reach, Arena.modify, Array.size_modify]
      exact enough) |>.mpr ⟨fits.congr up changed rfl (stored_modify.mpr fits.stored)
        (owner?_modify_element _ _ _ _), rfl⟩
    rw [← record_eq_rewire wf stored (·.modifyList (·.insertIdx i x)) [] [x]
      (by simp) (fun y => by
        rw [Element.children_modifyList _ isList, List.mem_insertIdx short]
        simp)]
    rw [run_modify_bind]
    exact attached
  unfold insertChild
  simp only [run_inspect_bind, run_guard]
  constructor
  · rintro ⟨_, read, isList, short, run⟩
    obtain ⟨n, stored, rfl⟩ := Arena.element_eq_ok.mp read
    rw [Bool.not_eq_true', Bool.not_eq_false] at isList
    rw [Nat.not_lt] at short
    obtain ⟨hs, up⟩ := wf.exists_ascends stored
    obtain ⟨_, _, checked, changed⟩ := run_bind_eq_ok.mp run
    obtain ⟨fits, rfl⟩ := (run_checkAttachable_eq_ok up up.length_lt_reach).mp checked
    cases (change stored isList short fits).symm.trans changed
    exact ⟨n, stored, isList, short, fits, rfl⟩
  · rintro ⟨n, stored, isList, short, fits, rfl⟩
    obtain ⟨hs, up⟩ := wf.exists_ascends stored
    have checked := (run_checkAttachable_eq_ok (r := ()) up up.length_lt_reach).mpr
      ⟨fits, rfl⟩
    refine ⟨_, Arena.element_of_get? stored, by simp [isList], by omega, ?_⟩
    rw [run_bind_of_ok checked]
    exact change stored isList short fits

theorem rewirable_insert (wf : a.WellFormed) {list : Handle} {i : Nat}
    (stored : a.get? list = some n) (isList : n.element.kind.isList = true)
    (short : i ≤ n.element.children.length) (fits : a.Attachable list x) :
    a.Rewirable list (n.element.modifyList (·.insertIdx i x)) := by
  refine wf.rewirable stored (Element.kind_modifyList _ _) ?_ ?_
  · rw [Element.children_modifyList _ isList, (List.perm_insertIdx _ _ short).nodup_iff,
      List.nodup_cons]
    exact ⟨fits.not_mem_children wf stored, wf.distinct stored⟩
  · intro y inside
    rw [Element.children_modifyList _ isList, List.mem_insertIdx short] at inside
    rcases inside with rfl | before
    · exact .inr fits
    · exact .inl before

/-! ### New containers -/

theorem push_eq_modify (a : Arena) (e : Element) : a.push ⟨none, e⟩ =
    (a.plant (.integer 0)).modify a.next fun n => { n with element := e } := by
  rw [plant_integer]
  refine ext_get? (by simp [Arena.push, Arena.modify]) rfl fun h => ?_
  rw [get?_modify]
  by_cases new : h = a.next
  · subst new
    rw [if_pos rfl, get?_push_self, get?_push_self]
    rfl
  · rw [if_neg new, get?_push_of_ne a _ new, get?_push_of_ne a _ new]

/-- A new container may hold every element that nothing owns, except for the root. -/
theorem attachable_next_iff : (a.plant (.integer 0)).Attachable a.next x ↔
    (∃ n, a.get? x = some n) ∧ a.owner? x = none ∧ x ≠ a.root := by
  constructor
  · intro fits
    obtain ⟨n, stored⟩ := fits.stored
    have old : a.get? x = some n := by
      rw [plant_integer, get?_push_of_ne a _ fits.other] at stored
      exact stored
    exact ⟨⟨n, old⟩, (owner?_plant_of_stored old).symm.trans fits.free, fits.not_root⟩
  · rintro ⟨⟨n, stored⟩, free, notRoot⟩
    refine ⟨⟨n, get?_plant_of_stored stored _⟩, (owner?_plant_of_stored stored).trans free, notRoot,
      ?_, fun above => ?_⟩
    · exact ne_next_of_stored stored
    · obtain ⟨p, owned, _⟩ := isAbove_iff.mp above
      rw [owner?_of_get? get?_plant_next] at owned
      cases owned

theorem run_attach_new (wf : a.WellFormed) {e : Element} :
    (e.children.forM (attach a.next)).run (a.push ⟨none, e⟩) = .ok r b ↔ e.children.Nodup ∧
      (∀ x ∈ e.children, (∃ n, a.get? x = some n) ∧ a.owner? x = none ∧ x ≠ a.root) ∧
      b = (a.plant (.integer 0)).rewire a.next e := by
  have up : (a.plant (.integer 0)).Ascends a.next [] := .top get?_plant_next rfl
  have changed := up.modify_element (c := a.next) fun _ => e
  have fits : ∀ x, ((a.plant (.integer 0)).modify a.next fun n => { n with element := e }).Attachable
      a.next x ↔ (a.plant (.integer 0)).Attachable a.next x := fun x =>
    ⟨fun fits => fits.congr changed up rfl (stored_modify.mp fits.stored)
      (owner?_modify_element _ _ _ fun _ => e).symm,
     fun fits => fits.congr up changed rfl (stored_modify.mpr fits.stored)
      (owner?_modify_element _ _ _ fun _ => e)⟩
  have recorded : ((a.plant (.integer 0)).modify a.next fun n => { n with element := e }).record
      (some a.next) e.children = (a.plant (.integer 0)).rewire a.next e :=
    record_eq_rewire (wf.plant (Term.unwrapped_integer 0)) get?_plant_next (fun _ => e) [] e.children
      (by simp) (by simp [Term.top, Element.children])
  rw [push_eq_modify, run_attach_all_eq_ok changed (Nat.succ_pos _), recorded]
  simp only [fits, attachable_next_iff]

/-- A new container goes through if what it holds is owned by nothing. -/
theorem run_create_eq_ok (wf : a.WellFormed) {e : Element} {r : Handle} :
    (create e).run a = .ok r b ↔ e.children.Nodup ∧
      (∀ x ∈ e.children, (∃ n, a.get? x = some n) ∧ a.owner? x = none ∧ x ≠ a.root) ∧
      r = a.next ∧ b = (a.plant (.integer 0)).rewire a.next e := by
  have created : (create e).run a =
      (do e.children.forM (attach a.next); return a.next : Edit Handle).run (a.push ⟨none, e⟩) := rfl
  rw [created, run_bind_eq_ok]
  simp only [run_attach_new wf, run_pure_eq_ok]
  constructor
  · rintro ⟨_, _, ⟨nodup, free, rfl⟩, rfl, rfl⟩
    exact ⟨nodup, free, rfl, rfl⟩
  · rintro ⟨nodup, free, rfl, rfl⟩
    exact ⟨(), _, ⟨nodup, free, rfl⟩, rfl, rfl⟩

theorem rewirable_create (wf : a.WellFormed) {e : Element} (kind : e.kind ≠ .root)
    (nodup : e.children.Nodup)
    (free : ∀ x ∈ e.children, (∃ n, a.get? x = some n) ∧ a.owner? x = none ∧ x ≠ a.root) :
    (a.plant (.integer 0)).Rewirable a.next e where
  nodup := nodup
  child := fun x member => .inr (attachable_next_iff.mpr (free x member))
  wrapper := by
    obtain ⟨inner, stored⟩ := wf.wrapper
    exact ⟨fun same => absurd same kind, fun same => absurd same (ne_next_of_stored stored).symm⟩

/-! ### Planted elements -/

theorem run_integer (a : Arena) (value : UInt64) :
    (integer value).run a = .ok a.next (a.plant (.integer value)) := by
  rw [plant_integer]
  rfl

theorem attachable_plant (wf : a.WellFormed) {t : Term} (stored : a.get? c = some n) :
    (a.plant t).Attachable c a.next where
  stored := ⟨_, get?_plant_next⟩
  free := owner?_of_get? get?_plant_next
  not_root := by
    obtain ⟨inner, held⟩ := wf.wrapper
    exact (ne_next_of_stored held).symm
  other := (ne_next_of_stored stored).symm
  not_above := isAbove_plant_next wf stored

/-- What is planted may take the place of a child. -/
theorem rewirable_planted (wf : a.WellFormed) {t : Term} (unwrapped : t.Unwrapped)
    (stored : a.get? c = some n) (member : old ∈ n.element.children) :
    (a.plant t).Rewirable c (n.element.replaceChild old a.next) :=
  rewirable_replace (wf.plant unwrapped) (get?_plant_of_stored stored t) member
    (attachable_plant wf stored)

theorem run_replace_planted (wf : a.WellFormed) {t : Term} (unwrapped : t.Unwrapped)
    (stored : a.get? c = some n) (member : old ∈ n.element.children) :
    (replace c old a.next).run (a.plant t) =
      .ok () ((a.plant t).rewire c (n.element.replaceChild old a.next)) := by
  obtain ⟨m, held⟩ := wf.stored_of_mem_children stored member
  exact (run_replace_eq_ok (wf.plant unwrapped)).mpr ⟨n, get?_plant_of_stored stored t, member,
    .inr ⟨ne_next_of_stored held, attachable_plant wf stored, rfl⟩⟩

/-- An arena that holds a planted expression and nothing else is well-formed. -/
theorem wellFormed_expression {t : Term} (unwrapped : t.Unwrapped) :
    ((zero.plant t).rewire ⟨0⟩ (.root ⟨2⟩)).WellFormed := by
  have stored : zero.get? ⟨0⟩ = some ⟨none, .root ⟨1⟩⟩ := rfl
  exact (wellFormed_zero.plant unwrapped).rewire (get?_plant_of_stored stored t)
    (rewirable_planted wellFormed_zero unwrapped stored (List.mem_singleton_self _))

end AlgebraEditor.Edit
