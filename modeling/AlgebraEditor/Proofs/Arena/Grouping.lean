import AlgebraEditor.Proofs.Arena.Wrapping

/-!
# Grouping children of a list

Neighbouring children of a list can be put into a list of its kind that takes their place. Any list
with neighbouring children can be changed in this way, and all that changes is told by `Groups`.
-/

namespace AlgebraEditor.Arena

variable {a b : Arena} {h p g : Handle} {n m : Node} {before hs after : List Handle}

/-- `b` is `a` with the children `hs` of the list `p` in a new list `g` of its kind. -/
structure Groups (a b : Arena) (p g : Handle) (before hs after : List Handle) : Prop where
  wf : b.WellFormed
  root : b.root = a.root
  fresh : a.get? g = none
  lists : ∃ n, a.get? p = some n ∧ n.element.kind.isList = true ∧
    n.element.children = before ++ hs ++ after ∧
    (∃ m, b.get? p = some m ∧ m.element = n.element.modifyList fun _ => before ++ g :: after) ∧
    ∃ m, b.get? g = some m ∧ m.element = n.element.modifyList fun _ => hs
  others : ∀ {h n}, a.get? h = some n → h ≠ p → ∃ m, b.get? h = some m ∧ m.element = n.element

/-- Grouping changes lists only, and so not the wrapper. -/
theorem Groups.content {c : Handle} (groups : a.Groups b p g before hs after)
    (content : a.content = .ok c) : b.content = .ok c := by
  obtain ⟨n, stored, wrapper⟩ := content_eq_ok.mp content
  have other : a.root ≠ p := by
    rintro rfl
    obtain ⟨m, held, isList, _⟩ := groups.lists
    cases stored.symm.trans held
    rw [wrapper] at isList
    cases isList
  obtain ⟨m, held, same⟩ := groups.others stored other
  exact content_eq_ok.mpr ⟨m, by rw [groups.root, held], same.trans wrapper⟩

/-- A new list of what left a list may be attached to the list. -/
theorem attachable_group (wf : a.WellFormed) (stored : a.get? p = some n)
    (isList : n.element.kind.isList = true) (children : n.element.children = before ++ hs ++ after) :
    ∃ b : Arena, b.WellFormed ∧ b.root = a.root ∧ b.Attachable p a.next ∧
      (∃ m, b.get? a.next = some m ∧ m.element = n.element.modifyList fun _ => hs) ∧
      (∃ m, b.get? p = some m ∧ m.element = n.element.modifyList fun _ => before ++ after) ∧
      ∀ {h m}, a.get? h = some m → h ≠ p → ∃ k, b.get? h = some k ∧ k.element = m.element := by
  have slots : ∀ xs, (n.element.modifyList fun _ => xs).children = xs := fun _ =>
    Element.children_modifyList _ isList
  have nodup := wf.distinct stored
  rw [children] at nodup
  have part : (before ++ after).Sublist n.element.children := by
    rw [children]
    exact (List.sublist_append_left before hs).append_right after
  have fits := Edit.rewirable_sublist wf stored isList part
  have wf₁ := wf.rewire stored fits
  have left : ∀ x ∈ hs, (a.rewire p (n.element.modifyList fun _ => before ++ after)).Attachable p x := by
    intro x member
    have owned := wf.records stored x (by rw [children]; simp [member])
    refine attachable_removed wf owned ?_ fits
    rw [slots, ← filter_between nodup]
    simp [member]
  have stored₁ := get?_rewire_of_stored (c := p) (e := n.element.modifyList fun _ => before ++ after)
    stored
  have kind : (n.element.modifyList fun _ => hs).kind ≠ .root := by
    rw [Element.kind_modifyList]
    intro same
    rw [same] at isList
    cases isList
  have fits' := Edit.rewirable_create wf₁ kind
    (by rw [slots]; exact (List.nodup_append.mp (List.nodup_append.mp nodup).1).2.1)
    (by rw [slots]; exact fun x member => ⟨(left x member).stored, (left x member).free,
      (left x member).not_root⟩)
  have new := Edit.attachable_create (e := n.element.modifyList fun _ => hs) wf₁ stored₁
    (by rw [slots]; exact fun x member => (left x member).stored)
    (by rw [slots]; exact fun x member => ⟨(left x member).other, (left x member).not_above⟩)
  have planted := get?_plant_next (a := a.rewire p (n.element.modifyList fun _ => before ++ after))
    (t := .integer 0)
  rw [next_rewire] at fits' new planted
  refine ⟨_, (wf₁.plant (Term.unwrapped_integer 0)).rewire planted fits', rfl, new,
    ⟨_, get?_rewire_of_stored planted, element_rewired_self _ _ _⟩,
    ⟨_, get?_rewire_of_stored (get?_plant_of_stored stored₁ _), ?_⟩, fun held other => ?_⟩
  · rw [element_rewired_of_ne (ne_next_of_stored stored), element_rewired_self]
  · refine ⟨_, get?_rewire_of_stored (get?_plant_of_stored (get?_rewire_of_stored held) _), ?_⟩
    rw [element_rewired_of_ne (ne_next_of_stored held), element_rewired_of_ne other]

/-- Children that are taken out of a list can be put into a new list. -/
theorem WellFormed.exists_groups (wf : a.WellFormed) (stored : a.get? p = some n)
    (isList : n.element.kind.isList = true) (children : n.element.children = before ++ hs ++ after) :
    ∃ b g, Groups a b p g before hs after := by
  have slots : ∀ xs, (n.element.modifyList fun _ => xs).children = xs := fun _ =>
    Element.children_modifyList _ isList
  obtain ⟨b, wf', root, fits, ⟨k, new, inner⟩, ⟨m, held, outer⟩, others⟩ :=
    attachable_group wf stored isList children
  have nodup := wf'.distinct held
  have fresh := fits.not_mem_children wf' held
  rw [outer, slots] at nodup fresh
  have rewirable : b.Rewirable p (n.element.modifyList fun _ => before ++ a.next :: after) := by
    refine wf'.rewirable held (by rw [outer, Element.kind_modifyList, Element.kind_modifyList])
      (by rw [slots]; exact List.nodup_middle.mpr (List.nodup_cons.mpr ⟨fresh, nodup⟩)) fun x member => ?_
    rw [slots] at member
    rw [outer, slots]
    rcases List.mem_cons.mp (List.perm_middle.subset member) with rfl | old
    · exact .inr fits
    · exact .inl old
  refine ⟨_, a.next, wf'.rewire held rewirable, root, get?_next a, ⟨n, stored, isList, children,
    ⟨_, get?_rewire_of_stored held, element_rewired_self _ _ _⟩,
    ⟨_, get?_rewire_of_stored new, ?_⟩⟩, fun held other => ?_⟩
  · rw [element_rewired_of_ne fits.other, inner]
  · obtain ⟨k, found, same⟩ := others held other
    exact ⟨_, get?_rewire_of_stored found, by rw [element_rewired_of_ne other, same]⟩

end AlgebraEditor.Arena
