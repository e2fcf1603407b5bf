import AlgebraEditor.Proofs.Arena.Building
import AlgebraEditor.Proofs.Arena.Reachability
import AlgebraEditor.Proofs.Arena.Wrapping

/-!
# Containers in the expression

A change somewhere leaves a container in the expression unless the container lies in what is
changed. So what the children of a container are can be followed through a sequence of edits.
-/

namespace AlgebraEditor

namespace Arena

variable {a b : Arena} {c h p : Handle} {hs before after : List Handle} {e : Element} {n : Node}
  {t : Term} {ts : List Term}

/-! ### What stays reachable -/

theorem Reachable.retained (reached : a.Reachable h) (retains : a.Retains b) : b.Reachable h :=
  Shows.reachable ⟨retains.root, fun _ stored => retains.kept _ _ stored⟩ reached

/-- Where the way up is the same, an element stays reachable. -/
theorem Reachable.of_owners (reached : a.Reachable p) (wf : a.WellFormed) (wf' : b.WellFormed)
    (root : b.root = a.root) (same : ∀ y, y = p ∨ a.IsAbove y p → b.owner? y = a.owner? y) :
    b.Reachable p := by
  rw [wf'.reachable_iff, root, isAbove_congr same]
  exact wf.reachable_iff.mp reached

/-- Whatever lies above a reachable element is reachable. -/
theorem Reachable.above (reached : a.Reachable p) (wf : a.WellFormed) (above : a.IsAbove h p) :
    a.Reachable h := by
  induction above with
  | single owned => exact reached.owner wf owned
  | tail _ owned ih => exact ih (reached.owner wf owned)

/-- What does not lie in the rewired container stays reachable. -/
theorem Reachable.rewire (reached : a.Reachable p) (wf : a.WellFormed) (stored : a.get? c = some n)
    (fits : a.Rewirable c e) (outside : ¬ a.IsAbove c p) : (a.rewire c e).Reachable p := by
  refine reached.of_owners wf (wf.rewire stored fits) rfl fun y onTheWay => ?_
  have reached' : a.Reachable y := by
    rcases onTheWay with rfl | above
    · exact reached
    · exact reached.above wf above
  have notOwned : a.owner? y ≠ some c := by
    intro owned
    rcases onTheWay with rfl | above
    · exact outside (isAbove_of_owner? owned)
    · exact outside ((isAbove_of_owner? owned).trans above)
  obtain ⟨k, held⟩ := reached'.stored wf
  refine owner?_rewire_of_iff held ⟨fun member => ?_, fun owned => absurd owned notOwned⟩
  rcases fits.child y member with owned | attachable
  · exact owned
  · exact absurd (reached'.eq_root wf attachable.free) attachable.not_root

/-! ### Children of reachable containers -/

/-- The container is reachable and has exactly these children. -/
structure Holds (a : Arena) (p : Handle) (hs : List Handle) : Prop where
  reached : a.Reachable p
  children : ∃ n, a.get? p = some n ∧ n.element.children = hs

theorem Reachable.held (reached : a.Reachable h) (wf : a.WellFormed) (owned : a.owner? h = some p) :
    ∃ before after, a.Holds p (before ++ h :: after) := by
  obtain ⟨n, stored, member⟩ := wf.holds owned
  obtain ⟨before, after, children⟩ := List.append_of_mem member
  exact ⟨before, after, reached.owner wf owned, n, stored, children⟩

theorem Holds.retained (holds : a.Holds p hs) (retains : a.Retains b) : b.Holds p hs := by
  obtain ⟨n, stored, children⟩ := holds.children
  exact ⟨holds.reached.retained retains, n, retains.kept p n stored, children⟩

theorem Holds.owner? (holds : a.Holds p hs) (wf : a.WellFormed) (member : h ∈ hs) :
    a.owner? h = some p := by
  obtain ⟨n, stored, rfl⟩ := holds.children
  exact wf.records stored h member

/-- A child of a reachable container, with the container. -/
theorem Holds.child (holds : a.Holds p (before ++ h :: after)) (wf : a.WellFormed) :
    ∃ m n, a.get? p = some m ∧ m.element.children = before ++ h :: after ∧ a.owner? h = some p ∧
      a.get? h = some n := by
  obtain ⟨m, held, children⟩ := holds.children
  have member : h ∈ m.element.children := by rw [children]; simp
  obtain ⟨n, stored⟩ := wf.stored_of_mem_children held member
  exact ⟨m, n, held, children, wf.records held h member, stored⟩

theorem Holds.nodup (holds : a.Holds p hs) (wf : a.WellFormed) : hs.Nodup := by
  obtain ⟨n, stored, rfl⟩ := holds.children
  exact wf.distinct stored

theorem Holds.reachable (holds : a.Holds p hs) (member : h ∈ hs) : a.Reachable h := by
  obtain ⟨n, stored, rfl⟩ := holds.children
  exact holds.reached.child stored member

/-- A container is as reachable with new children as with old ones. -/
theorem Holds.rewire_self (holds : a.Holds p hs) (wf : a.WellFormed) (fits : a.Rewirable p e) :
    (a.rewire p e).Holds p e.children := by
  obtain ⟨n, stored, _⟩ := holds.children
  exact ⟨holds.reached.rewire wf stored fits (wf.acyclic p), _, get?_rewire_of_stored stored,
    by rw [element_rewired_self]⟩

theorem Holds.replaced (holds : a.Holds p (before ++ h :: after)) (wf : a.WellFormed)
    (stored : a.get? p = some n) (fits : a.Attachable p c) :
    (a.rewire p (n.element.replaceChild h c)).Holds p (before ++ c :: after) := by
  obtain ⟨m, held, children⟩ := holds.children
  cases held.symm.trans stored
  have member : h ∈ n.element.children := by rw [children]; simp
  have later := holds.rewire_self wf (Edit.rewirable_replace wf stored member fits)
  rwa [Element.children_replaceChild, children, replace_between (not_mem_before (holds.nodup wf))]
    at later

/-- What is added takes the place of a child. -/
theorem Holds.adds_replaced {xs : List Handle} (holds : a.Holds p (before ++ h :: after))
    (wf : a.WellFormed) (adds : a.Adds ts xs b) (stored : a.get? p = some n) (top : c ∈ xs) :
    (b.rewire p (n.element.replaceChild h c)).Holds p (before ++ c :: after) :=
  (holds.retained adds.retains).replaced adds.wf (adds.stored stored)
    (adds.attachable wf stored top)

end Arena

end AlgebraEditor
