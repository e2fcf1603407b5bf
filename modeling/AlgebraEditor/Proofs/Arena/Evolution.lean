import AlgebraEditor.Proofs.Arena.Wrapping

/-!
# How arenas evolve

Edits keep an arena well-formed, keep its root, and take no element away.
-/

namespace AlgebraEditor

namespace Arena

/-- A well-formed arena with the same root and with every element stored that was stored. -/
structure Evolves (a b : Arena) : Prop where
  wf : b.WellFormed
  root : b.root = a.root
  stored : ∀ {h n}, a.get? h = some n → ∃ m, b.get? h = some m

variable {a b : Arena} {c h : Handle} {e : Element} {n m : Node} {t : Term} {ts : List Term}

namespace Evolves

theorem refl (wf : a.WellFormed) : a.Evolves a := ⟨wf, rfl, fun stored => ⟨_, stored⟩⟩

theorem trans {c : Arena} (first : a.Evolves b) (second : b.Evolves c) : a.Evolves c where
  wf := second.wf
  root := second.root.trans first.root
  stored := by
    intro h n stored
    obtain ⟨m, held⟩ := first.stored stored
    exact second.stored held

theorem plant (evolves : a.Evolves b) (unwrapped : t.Unwrapped) : a.Evolves (b.plant t) :=
  evolves.trans ⟨evolves.wf.plant unwrapped, rfl, fun stored => ⟨_, get?_plant_of_stored stored t⟩⟩

theorem rewire (evolves : a.Evolves b) (stored : b.get? c = some n) (fits : b.Rewirable c e) :
    a.Evolves (b.rewire c e) :=
  evolves.trans ⟨evolves.wf.rewire stored fits, rfl, fun stored => ⟨_, get?_rewire_of_stored stored⟩⟩

theorem signed (evolves : a.Evolves b) (stored : b.get? c = some n) (member : h ∈ n.element.children) :
    a.Evolves (b.signed c n.element h) := by
  refine evolves.trans ⟨(Edit.run_replaceWith_negation evolves.wf stored member).2, root_signed _ _ _ _, ?_⟩
  intro x k found
  obtain ⟨k', found', _⟩ := get?_signed (p := c) (h := h) (e := n.element) found
  exact ⟨k', found'⟩

end Evolves

end Arena

namespace Edit

open Arena

variable {a b : Arena} {c old new list r : Handle} {n m : Node} {u : Unit} {xs : List Handle}

theorem replace_evolves (wf : a.WellFormed) (run : (replace c old new).run a = .ok u b) :
    a.Evolves b := by
  obtain ⟨n, stored, member, ⟨_, rfl⟩ | ⟨_, fits, rfl⟩⟩ := (run_replace_eq_ok wf).mp run
  · exact .refl wf
  · exact (Evolves.refl wf).rewire stored (rewirable_replace wf stored member fits)

theorem normalized_evolves (wf : a.WellFormed) {list owner r : Handle} {rest : List Handle}
    (stored : a.get? list = some n) (isList : n.element.kind.isList = true)
    (held : a.get? owner = some m) (member : list ∈ m.element.children)
    (part : rest.Sublist n.element.children)
    (normalized : Normalized a list n.element owner m.element rest r b) : a.Evolves b := by
  have different : owner ≠ list := Ne.symm (wf.irrefl (wf.records held list member))
  have emptied := (Evolves.refl wf).rewire stored
    (rewirable_sublist wf stored isList (List.nil_sublist _))
  have held' := get?_rewire_of_stored (c := list) (e := n.element.modifyList fun _ => []) held
  have element := element_rewired_of_ne different (n.element.modifyList fun _ => []) m
  match rest with
  | [] =>
    obtain ⟨value, _, _, rfl⟩ := normalized
    have zero := Term.unwrapped_integer value
    rw [← element] at member
    have rewirable := rewirable_planted emptied.wf zero held' member
    rw [element, next_rewire] at rewirable
    exact (emptied.plant zero).rewire (get?_plant_of_stored held' _) rewirable
  | [only] =>
    obtain ⟨_, rfl⟩ := normalized
    have fits := attachable_emptied wf stored isList (part.subset List.mem_cons_self) held member
    have rewirable := rewirable_replace emptied.wf held' (by rwa [element]) fits
    rw [element] at rewirable
    exact emptied.rewire held' rewirable
  | x :: y :: rest =>
    obtain ⟨_, rfl⟩ := normalized
    exact (Evolves.refl wf).rewire stored (rewirable_sublist wf stored isList part)

theorem removeChildren_evolves (wf : a.WellFormed)
    (run : (removeChildren list xs).run a = .ok r b) : a.Evolves b := by
  obtain ⟨n, owner, m, stored, isList, owned, held, _, _, normalized⟩ :=
    (run_removeChildren_eq_ok wf).mp run
  exact normalized_evolves wf stored isList held ((wf.mem_children_iff held).mpr owned)
    List.filter_sublist normalized

end Edit

end AlgebraEditor
