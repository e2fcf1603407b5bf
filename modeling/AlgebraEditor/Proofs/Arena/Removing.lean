import AlgebraEditor.Proofs.Arena.Edits

/-!
# Removing children

A list that loses children is normalized: an empty list leaves its slot to its identity, and a list
of one child to this child. The removal goes through exactly if it is legal.
-/

namespace AlgebraEditor.Edit

open Arena

variable {a b : Arena} {c h x old new : Handle} {hs xs : List Handle} {n m : Node} {r : Unit}

theorem firstNotRemovable_eq_none {current before : List Handle} :
    firstNotRemovable current before xs = none ↔
      xs.Nodup ∧ (∀ x ∈ xs, x ∈ current) ∧ ∀ x ∈ xs, x ∉ before := by
  induction xs generalizing before with
  | nil => simp [firstNotRemovable]
  | cons x xs ih =>
    rw [firstNotRemovable]
    split
    · rename_i refused
      simp only [reduceCtorEq, List.mem_cons, forall_eq_or_imp, false_iff]
      rintro ⟨_, ⟨held, _⟩, fresh, _⟩
      exact refused.elim (absurd held) fresh
    · rename_i allowed
      rw [not_or, not_not] at allowed
      rw [ih]
      simp only [List.nodup_cons, List.mem_cons, forall_eq_or_imp, not_or]
      constructor
      · rintro ⟨nodup, all, fresh⟩
        exact ⟨⟨fun member => (fresh x member).1 rfl, nodup⟩, ⟨allowed.1, all⟩, allowed.2,
          fun y member => (fresh y member).2⟩
      · rintro ⟨⟨other, nodup⟩, ⟨_, all⟩, _, fresh⟩
        exact ⟨nodup, all, fun y member => ⟨fun same => other (same ▸ member), fresh y member⟩⟩

/-- A list fits that holds some of the children it held. -/
theorem rewirable_sublist (wf : a.WellFormed) {list : Handle} (stored : a.get? list = some n)
    (isList : n.element.kind.isList = true) {rest : List Handle}
    (part : rest.Sublist n.element.children) :
    a.Rewirable list (n.element.modifyList fun _ => rest) := by
  refine wf.rewirable stored (Element.kind_modifyList _ _) ?_ ?_
  · rw [Element.children_modifyList _ isList]
    exact part.nodup (wf.distinct stored)
  · intro y inside
    rw [Element.children_modifyList _ isList] at inside
    exact .inl (part.subset inside)

/-- What is left of a list takes the place of the list if it is less than two children. -/
def Normalized (a : Arena) (list : Handle) (e : Element) (owner : Handle) (around : Element) :
    List Handle → Handle → Arena → Prop
  | [], r, b => ∃ value, e.kind.identity? = some value ∧ r = a.next ∧
      b = ((a.rewire list (e.modifyList fun _ => [])).plant (.integer value)).rewire owner
        (around.replaceChild list a.next)
  | [only], r, b => r = only ∧ b = (a.rewire list (e.modifyList fun _ => [])).rewire owner
      (around.replaceChild list only)
  | rest, r, b => r = list ∧ b = a.rewire list (e.modifyList fun _ => rest)

theorem exists_normalized (a : Arena) (list owner : Handle) (e around : Element)
    (isList : e.kind.isList = true) (rest : List Handle) :
    ∃ r b, Normalized a list e owner around rest r b := by
  match rest with
  | [] =>
    obtain ⟨value, identity⟩ : ∃ value, e.kind.identity? = some value := by
      cases kind : e.kind <;> simp_all [Kind.isList, Kind.identity?]
    exact ⟨_, _, value, identity, rfl, rfl⟩
  | [only] => exact ⟨_, _, rfl, rfl⟩
  | _ :: _ :: _ => exact ⟨_, _, rfl, rfl⟩

theorem run_removeChildren_of_legal (wf : a.WellFormed) {list owner : Handle}
    {value : UInt64} (stored : a.get? list = some n)
    (identity : n.element.kind.identity? = some value) (owned : a.owner? list = some owner)
    (nodup : xs.Nodup) (held : ∀ x ∈ xs, x ∈ n.element.children) :
    (removeChildren list xs).run a =
      (match n.element.children.filter (!xs.contains ·) with
        | [] => do
          let value ← integer value
          replace owner list value
          return value
        | [only] => do
          modify (·.modify list fun n => { n with element := n.element.modifyList fun _ => [] })
          detach list only
          replace owner list only
          return only
        | _ => return list : Edit Handle).run
        (a.rewire list (n.element.modifyList (·.filter (!xs.contains ·)))) := by
  have isList : n.element.kind.isList = true := by
    rw [← Kind.isSome_identity?, identity]
    rfl
  have detached : (xs.forM (detach list)).run (a.modify list fun n =>
      { n with element := n.element.modifyList (·.filter (!xs.contains ·)) }) =
      .ok () (a.rewire list (n.element.modifyList (·.filter (!xs.contains ·)))) := by
    rw [run_detach_all_eq_ok]
    refine ⟨nodup, fun x member => ?_, ?_⟩
    · rw [owner?_modify_element]
      exact wf.records stored x (held x member)
    · refine (record_eq_rewire wf stored (·.modifyList (·.filter (!xs.contains ·))) xs []
        held fun y => ?_).symm
      rw [Element.children_modifyList _ isList]
      simp
  have listed : (a.rewire list (n.element.modifyList (·.filter (!xs.contains ·)))).children list =
      .ok (n.element.children.filter (!xs.contains ·)) := by
    rw [children_of_get? (get?_rewire_of_stored stored), element_rewired_self,
      Element.children_modifyList _ isList]
  unfold removeChildren
  simp only [kindOf, parentOf, childrenOf]
  rw [run_bind_of_ok (run_inspect_of_ok (kind_of_get? stored)), identity]
  dsimp only
  rw [run_bind_of_ok (run_inspect_of_ok (parent_eq_some.mpr owned))]
  dsimp only
  rw [run_bind_of_ok (run_inspect_of_ok (children_of_get? stored)),
    firstNotRemovable_eq_none.mpr ⟨nodup, held, by simp⟩]
  dsimp only
  rw [run_modify_bind, run_bind_of_ok detached]
  exact (run_bind_of_ok (run_inspect_of_ok listed)).trans rfl

/-- An empty list leaves its slot to its identity. -/
theorem run_replace_by_identity (wf : a.WellFormed) {list owner r : Handle} {value : UInt64}
    (held : a.get? owner = some m) (member : list ∈ m.element.children) :
    (do
      let value ← integer value
      replace owner list value
      return value : Edit Handle).run a = .ok r b ↔ r = a.next ∧
        b = (a.plant (.integer value)).rewire owner (m.element.replaceChild list a.next) := by
  have replaced := run_replace_planted wf (Term.unwrapped_integer value) held member
  rw [run_bind_of_ok (run_integer a value), run_bind_of_ok replaced, run_pure_eq_ok]
  exact ⟨fun ⟨same, same'⟩ => ⟨same.symm, same'.symm⟩, fun ⟨same, same'⟩ => ⟨same.symm, same'.symm⟩⟩

/-- Once a list is emptied, what it held may take the place of the list. -/
theorem attachable_emptied (wf : a.WellFormed) {list owner : Handle} (stored : a.get? list = some n)
    (isList : n.element.kind.isList = true) (listed : x ∈ n.element.children)
    (held : a.get? owner = some m) (member : list ∈ m.element.children) :
    (a.rewire list (n.element.modifyList fun _ => [])).Attachable owner x := by
  have owned := wf.records stored x listed
  have above := isAbove_of_owner? (wf.records held list member)
  have empty : (n.element.modifyList fun _ => []).children = [] :=
    Element.children_modifyList _ isList
  obtain ⟨k, kept⟩ := stored_of_owner? owned
  refine ⟨⟨_, get?_rewire_of_stored kept⟩, ?_, wf.ne_root_of_owner? owned, ?_, fun circle => ?_⟩
  · rw [owner?_rewire_of_not_mem (by rw [empty]; exact List.not_mem_nil), if_pos owned]
  · rintro rfl
    exact wf.acyclic list ((isAbove_of_owner? owned).trans above)
  · have before := isAbove_of_rewire wf stored (by simp [empty]) circle
    exact wf.acyclic x (before.trans (above.trans (isAbove_of_owner? owned)))

/-- A list with one child leaves its slot to the child. -/
theorem run_replace_by_only (wf : a.WellFormed) {list owner only r : Handle}
    (stored : a.get? list = some n) (isList : n.element.kind.isList = true)
    (single : n.element.children = [only]) (held : a.get? owner = some m)
    (member : list ∈ m.element.children) :
    (do
      modify (·.modify list fun n => { n with element := n.element.modifyList fun _ => [] })
      detach list only
      replace owner list only
      return only : Edit Handle).run a = .ok r b ↔ r = only ∧
        b = (a.rewire list (n.element.modifyList fun _ => [])).rewire owner
          (m.element.replaceChild list only) := by
  have listed : only ∈ n.element.children := by rw [single]; exact List.mem_singleton_self only
  have owned := wf.records stored only listed
  have different : owner ≠ list := Ne.symm (wf.irrefl (wf.records held list member))
  have wf' := wf.rewire stored (rewirable_sublist wf stored isList (List.nil_sublist _))
  have detached : (detach list only).run (a.modify list fun n =>
      { n with element := n.element.modifyList fun _ => [] }) =
      .ok () (a.rewire list (n.element.modifyList fun _ => [])) := by
    rw [run_detach_eq_ok, owner?_modify_element]
    refine ⟨owned, (record_eq_rewire wf stored (·.modifyList fun _ => []) [only] []
      (by simp [single]) fun y => ?_).symm⟩
    simp [Element.children_modifyList _ isList, single]
  have replaced := (run_replace_eq_ok (r := ()) wf').mpr
    ⟨_, get?_rewire_of_stored held, by rwa [element_rewired_of_ne different],
      .inr ⟨Ne.symm (wf.irrefl owned), attachable_emptied wf stored isList listed held member, rfl⟩⟩
  rw [run_modify_bind, run_bind_of_ok detached, run_bind_of_ok replaced, run_pure_eq_ok,
    element_rewired_of_ne different]
  exact ⟨fun ⟨same, same'⟩ => ⟨same.symm, same'.symm⟩, fun ⟨same, same'⟩ => ⟨same.symm, same'.symm⟩⟩

/-- Removing children is refused unless the list has an owner and holds them, each one once. -/
theorem legal_of_run_removeChildren {list r : Handle}
    (run : (removeChildren list xs).run a = .ok r b) : ∃ n value owner, a.get? list = some n ∧
      n.element.kind.identity? = some value ∧ a.owner? list = some owner ∧ xs.Nodup ∧
      ∀ x ∈ xs, x ∈ n.element.children := by
  unfold removeChildren at run
  simp only [kindOf, parentOf, childrenOf, run_inspect_bind] at run
  obtain ⟨_, read, run⟩ := run
  obtain ⟨n, stored, rfl⟩ := kind_eq_ok.mp read
  cases identity : n.element.kind.identity? with
  | none =>
    rw [identity] at run
    cases run
  | some value =>
    rw [identity] at run
    simp only [run_inspect_bind] at run
    obtain ⟨recorded, owned, run⟩ := run
    cases recorded with
    | none => cases run
    | some owner =>
      simp only [run_inspect_bind] at run
      obtain ⟨_, listed, run⟩ := run
      rw [children_of_get? stored] at listed
      cases listed
      cases refused : firstNotRemovable n.element.children [] xs with
      | some bad =>
        rw [refused] at run
        exact absurd run run_throw_bind
      | none =>
        obtain ⟨nodup, held, _⟩ := firstNotRemovable_eq_none.mp refused
        exact ⟨n, value, owner, stored, identity, parent_eq_some.mp owned, nodup, held⟩

/-- Where removing children is legal, it leaves the list normalized. -/
theorem run_removeChildren_iff_normalized (wf : a.WellFormed) {list owner r : Handle}
    {value : UInt64} (stored : a.get? list = some n)
    (identity : n.element.kind.identity? = some value) (owned : a.owner? list = some owner)
    (held : a.get? owner = some m) (nodup : xs.Nodup) (listed : ∀ x ∈ xs, x ∈ n.element.children) :
    (removeChildren list xs).run a = .ok r b ↔ Normalized a list n.element owner m.element
      (n.element.children.filter (!xs.contains ·)) r b := by
  have isList : n.element.kind.isList = true := by
    rw [← Kind.isSome_identity?, identity]
    rfl
  have member := (wf.mem_children_iff held).mpr owned
  have different : owner ≠ list := Ne.symm (wf.irrefl owned)
  have fits := rewirable_sublist wf stored isList
    (List.filter_sublist (p := (!xs.contains ·)) (l := n.element.children))
  rw [run_removeChildren_of_legal wf stored identity owned nodup listed,
    Element.modifyList_eq (·.filter (!xs.contains ·))]
  generalize n.element.children.filter (!xs.contains ·) = rest at fits
  have wf' := wf.rewire stored fits
  have stored' := get?_rewire_of_stored (c := list) (e := n.element.modifyList fun _ => rest) stored
  have held' := get?_rewire_of_stored (c := list) (e := n.element.modifyList fun _ => rest) held
  have member' : list ∈ (m.rewired list (n.element.modifyList fun _ => rest) owner).element.children
      := by rwa [element_rewired_of_ne different]
  match rest with
  | [] =>
    dsimp only
    rw [run_replace_by_identity wf' held' member', element_rewired_of_ne different,
      next_rewire, Normalized, identity]
    simp
  | [only] =>
    dsimp only
    rw [run_replace_by_only wf' stored' (by rw [element_rewired_self]; simpa using isList)
      (by rw [element_rewired_self, Element.children_modifyList _ isList]) held' member',
      element_rewired_of_ne different, element_rewired_self, Element.modifyList_modifyList,
      rewire_rewire fits]
    exact Iff.rfl
  | x :: y :: rest =>
    simp only [run_pure_eq_ok, Normalized]
    exact ⟨fun ⟨same, same'⟩ => ⟨same.symm, same'.symm⟩,
      fun ⟨same, same'⟩ => ⟨same.symm, same'.symm⟩⟩

/-- Removing children goes through if the list has an owner and the children are distinct ones of
the list. -/
theorem run_removeChildren_eq_ok (wf : a.WellFormed) {list r : Handle} :
    (removeChildren list xs).run a = .ok r b ↔ ∃ n owner m, a.get? list = some n ∧
      n.element.kind.isList = true ∧ a.owner? list = some owner ∧ a.get? owner = some m ∧
      xs.Nodup ∧ (∀ x ∈ xs, x ∈ n.element.children) ∧
      Normalized a list n.element owner m.element
        (n.element.children.filter (!xs.contains ·)) r b := by
  constructor
  · intro run
    obtain ⟨n, value, owner, stored, identity, owned, nodup, held⟩ :=
      legal_of_run_removeChildren run
    obtain ⟨m, stored'⟩ := wf.stored_of_owner? owned
    refine ⟨n, owner, m, stored, ?_, owned, stored', nodup, held, ?_⟩
    · rw [← Kind.isSome_identity?, identity]
      rfl
    · exact (run_removeChildren_iff_normalized wf stored identity owned stored' nodup held).mp run
  · rintro ⟨n, owner, m, stored, isList, owned, stored', nodup, held, same⟩
    rw [← Kind.isSome_identity?] at isList
    obtain ⟨value, identity⟩ := Option.isSome_iff_exists.mp isList
    exact (run_removeChildren_iff_normalized wf stored identity owned stored' nodup held).mpr same

/-- Distinct children of an owned list can be removed. -/
theorem exists_run_removeChildren (wf : a.WellFormed) {list owner : Handle}
    (stored : a.get? list = some n) (isList : n.element.kind.isList = true)
    (owned : a.owner? list = some owner) (held : a.get? owner = some m) (nodup : xs.Nodup)
    (inside : ∀ x ∈ xs, x ∈ n.element.children) :
    ∃ r b, (removeChildren list xs).run a = .ok r b ∧ Normalized a list n.element owner m.element
      (n.element.children.filter (!xs.contains ·)) r b := by
  obtain ⟨r, b, normalized⟩ := exists_normalized a list owner n.element m.element isList
    (n.element.children.filter (!xs.contains ·))
  exact ⟨r, b, (run_removeChildren_eq_ok wf).mpr
    ⟨n, owner, m, stored, isList, owned, held, nodup, inside, normalized⟩, normalized⟩

end AlgebraEditor.Edit
