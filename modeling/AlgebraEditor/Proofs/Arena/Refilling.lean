import AlgebraEditor.Proofs.Arena.Exchanging
import AlgebraEditor.Proofs.Arena.Normalizing
import AlgebraEditor.Proofs.Arena.Operation

/-!
# Building in a slot

While something is built in place of a child, a placeholder holds the slot, and the child is owned by
nothing. Whatever was done meanwhile to the rest of the arena stays done: afterwards only the slot and
the placeholder differ.
-/

namespace AlgebraEditor

namespace Arena

variable {a b c : Arena} {h p q r x old new : Handle} {k : Nat} {n m o : Node}

/-- The child `old` of the container `c` has left its slot, the one at position `k`, to `new`, and
nothing else differs. -/
structure Refilled (a : Arena) (c : Handle) (k : Nat) (old new : Handle) (b : Arena) : Prop
    extends a.Exchanged c old new b where
  size : b.places.size = a.places.size
  slots : ∀ {n m}, a.get? c = some n → b.get? c = some m →
    m.element.children = n.element.children.set k new
  empty : ∀ {x}, a.get? x = none → b.get? x = none

/-- The arena in which a new placeholder holds the slot of the child `h` of the container `p`, which
holds `e` otherwise. -/
def reserved (a : Arena) (p : Handle) (e : Element) (h : Handle) : Arena :=
  (a.plant (.integer 0)).rewire p (e.replaceChild h a.next)

theorem refilled_rewire (wf : a.WellFormed) (stored : a.get? p = some n)
    (slot : n.element.children[k]? = some old) (fits : a.Attachable p new) :
    a.Refilled p k old new (a.rewire p (n.element.replaceChild old new)) where
  toExchanged := exchanged_rewire wf stored (List.mem_of_getElem? slot) fits
  size := size_places_rewire _ _ _
  slots := by
    intro n' m held held'
    cases stored.symm.trans held
    have exchanged := exchanged_rewire wf stored (List.mem_of_getElem? slot) fits
    cases (exchanged.container stored).symm.trans held'
    exact Element.children_replaceChild_eq_set new (wf.distinct stored) slot
  empty := fun absent => by rw [get?_rewire, absent, Option.map_none]

theorem refilled_reserved (wf : a.WellFormed) (stored : a.get? p = some n)
    (slot : n.element.children[k]? = some h) :
    (a.plant (.integer 0)).Refilled p k h a.next (a.reserved p n.element h) :=
  refilled_rewire (wf.plant (Term.unwrapped_integer 0)) (get?_plant_of_stored stored _) slot
    (Edit.attachable_plant wf stored)

/-- What cannot be attached to a container, if it is there at all. -/
theorem not_attachable_iff (stored : a.get? r = some n) : ¬ a.Attachable p r ↔
    (∃ q, a.owner? r = some q) ∨ r = a.root ∨ r = p ∨ a.IsAbove r p := by
  constructor
  · intro unfit
    by_contra fits
    simp only [not_or, not_exists] at fits
    obtain ⟨free, notRoot, other, notAbove⟩ := fits
    exact unfit ⟨⟨n, stored⟩, Option.eq_none_iff_forall_ne_some.mpr free, notRoot, other, notAbove⟩
  · rintro (⟨q, owned⟩ | root | same | above) fits
    · cases fits.free.symm.trans owned
    · exact fits.not_root root
    · exact fits.other same
    · exact fits.not_above above

section Slot

variable (wf : a.WellFormed) (stored : a.get? p = some n)

include wf stored

theorem next_not_mem_children : a.next ∉ n.element.children :=
  (Edit.attachable_plant wf (t := .integer 0) stored).not_mem_children
    (wf.plant (Term.unwrapped_integer 0)) (get?_plant_of_stored stored _)

theorem rewirable_reserved (member : h ∈ n.element.children) :
    (a.plant (.integer 0)).Rewirable p (n.element.replaceChild h a.next) :=
  Edit.rewirable_replace (wf.plant (Term.unwrapped_integer 0)) (get?_plant_of_stored stored _) member
    (Edit.attachable_plant wf stored)

/-- The child may come back into its slot. -/
theorem attachable_reserved (member : h ∈ n.element.children) :
    (a.reserved p n.element h).Attachable p h := by
  have wf' := wf.plant (Term.unwrapped_integer 0)
  have owned := wf'.records (get?_plant_of_stored stored (.integer 0)) h member
  refine attachable_removed wf' owned (fun inside => ?_) (rewirable_reserved wf stored member)
  rcases (Element.mem_replaceChild _ (wf.distinct stored) member).mp inside with same | ⟨-, other⟩
  · exact next_not_mem_children wf stored (same ▸ member)
  · exact other rfl

/-- The child back in its slot leaves nothing changed but for the placeholder. -/
theorem reserved_rewire (member : h ∈ n.element.children) :
    (a.reserved p n.element h).rewire p ((n.element.replaceChild h a.next).replaceChild a.next h) =
      a.plant (.integer 0) := by
  rw [reserved, Element.replaceChild_replaceChild (next_not_mem_children wf stored),
    Element.replaceChild_self, rewire_rewire (rewirable_reserved wf stored member),
    rewire_self (wf.plant (Term.unwrapped_integer 0)) (get?_plant_of_stored stored _)]

/-- Once the child is back, what was left alone in the meantime is what it was at first. -/
theorem Refilled.returned (refilled : b.Refilled p k a.next h c)
    (slot : n.element.children[k]? = some h) (old : a.get? x = some o)
    (alone : b.get? x = (a.reserved p n.element h).get? x) : c.get? x = some o := by
  have given := refilled_reserved wf stored slot
  have old' := get?_plant_of_stored old (.integer 0)
  by_cases container : x = p
  · subst container
    cases stored.symm.trans old
    rw [refilled.container (alone.trans (given.container old')),
      Element.replaceChild_replaceChild (next_not_mem_children wf stored), Element.replaceChild_self]
  by_cases child : x = h
  · subst child
    have owned := wf.records stored x (List.mem_of_getElem? slot)
    rw [owner?_of_get? old] at owned
    rw [refilled.came (alone.trans (given.left old')), ← owned]
  · have other := ne_next_of_stored old
    exact refilled.kept (alone.trans (given.kept old' container child other)) container other child

end Slot

end Arena

namespace Edit

open Arena

variable {a b c : Arena} {h p q r r' : Handle} {k : Nat} {n m o : Node} {build : Handle → Edit Handle}

/-- What is left to do after building is to let go of the placeholder. -/
theorem run_replaceWith_of_built (wf : a.WellFormed) (stored : a.get? p = some n)
    (member : h ∈ n.element.children)
    (built : (build h).run (a.reserved p n.element h) = .ok r b) : (replaceWith h build).run a =
      (do replace p a.next r; return r : Edit Handle).run b := by
  have owned := wf.records stored h member
  have placed := run_replace_planted wf (Term.unwrapped_integer 0) stored member
  unfold replaceWith
  rw [parentOf, run_bind_of_ok (run_inspect_of_ok (parent_eq_some.mpr owned))]
  dsimp only
  rw [run_bind_of_ok (run_integer a 0), run_bind_of_ok placed, ← reserved, run_bind_of_ok built]

theorem run_release_eq_ok (wf : b.WellFormed) (stored : b.get? p = some m)
    (member : q ∈ m.element.children) (other : r ≠ q) :
    (do replace p q r; return r : Edit Handle).run b = .ok r' c ↔
      r' = r ∧ b.Attachable p r ∧ c = b.rewire p (m.element.replaceChild q r) := by
  rw [run_bind_eq_ok]
  constructor
  · rintro ⟨_, c', run, done⟩
    obtain ⟨rfl, rfl⟩ := run_pure_eq_ok.mp done
    obtain ⟨m', held, -, ⟨same, -⟩ | ⟨-, fits, rfl⟩⟩ := (run_replace_eq_ok wf).mp run
    · exact absurd same.symm other
    · cases stored.symm.trans held
      exact ⟨rfl, fits, rfl⟩
  · rintro ⟨rfl, fits, rfl⟩
    exact ⟨(), _, (run_replace_eq_ok wf).mpr ⟨m, stored, member, .inr ⟨other.symm, fits, rfl⟩⟩, rfl⟩

theorem fails_iff {α : Type} {x : Edit α} :
    (∃ fault c, x.run a = .error fault c) ↔ ¬ ∃ y c, x.run a = .ok y c := by
  cases run : x.run a with
  | ok y b => simp
  | error fault b => simp

/-- The element is lent out while a placeholder holds its slot. What is built from it may be put into
the slot unless it is owned, the root, the container or around the container, and then nothing but the
slot and the placeholder differs from what building has left. An element that comes back leaves no
trace, except for the placeholder. -/
theorem replaceWith_refills (wf : a.WellFormed) (stored : a.get? p = some n)
    (slot : n.element.children[k]? = some h) :
    (a.plant (.integer 0)).Refilled p k h a.next (a.reserved p n.element h) ∧
    (∀ (build : Handle → Edit Handle) r b m,
      (build h).run (a.reserved p n.element h) = .ok r b → b.WellFormed → b.get? p = some m →
      m.element.children = n.element.children.set k a.next → (∃ o, b.get? r = some o) → r ≠ a.next →
      ((∃ fault c, (replaceWith h build).run a = .error fault c) ↔
        (∃ q, b.owner? r = some q) ∨ r = b.root ∨ r = p ∨ b.IsAbove r p) ∧
      ∀ r' c, (replaceWith h build).run a = .ok r' c → r' = r ∧ b.Refilled p k a.next r c ∧
        (r = h → ∀ x o, a.get? x = some o → b.get? x = (a.reserved p n.element h).get? x →
          c.get? x = some o)) ∧
    (replaceWith h pure).run a = .ok h (a.plant (.integer 0)) ∧
      ∀ x o, a.get? x = some o → (a.plant (.integer 0)).get? x = some o := by
  have member := List.mem_of_getElem? slot
  have given := refilled_reserved wf stored slot
  refine ⟨given, fun build r b m built sound held children ⟨o, there⟩ other => ?_, ?_,
    fun x o old => get?_plant_of_stored old _⟩
  · -- building has left the placeholder in the slot
    obtain ⟨inside, -⟩ := List.getElem?_eq_some_iff.mp slot
    have slot' : m.element.children[k]? = some a.next := by
      rw [children]
      exact List.getElem?_set_self inside
    have release := fun r' c => @run_release_eq_ok b c p a.next r r' m sound held
      (List.mem_of_getElem? slot') other
    rw [run_replaceWith_of_built wf stored member built]
    refine ⟨?_, fun r' c done => ?_⟩
    · rw [fails_iff, ← not_attachable_iff there, not_iff_not]
      exact ⟨fun ⟨r', c, done⟩ => ((release r' c).mp done).2.1,
        fun fits => ⟨r, _, (release r _).mpr ⟨rfl, fits, rfl⟩⟩⟩
    · obtain ⟨rfl, fits, rfl⟩ := (release r' c).mp done
      have refilled := refilled_rewire sound held slot' fits
      refine ⟨rfl, refilled, ?_⟩
      rintro rfl x o old alone
      exact refilled.returned wf stored slot old alone
  · -- nothing is built, so the child only leaves its slot and comes back
    have held := given.container (get?_plant_of_stored stored _)
    have placed : a.next ∈ (n.element.replaceChild h a.next).children :=
      (Element.mem_replaceChild _ (wf.distinct stored) member).mpr (.inl rfl)
    obtain ⟨o, old⟩ := wf.stored_of_mem_children stored member
    rw [run_replaceWith_of_built wf stored member (EStateM.run_pure h _),
      run_release_eq_ok given.wf held placed (ne_next_of_stored old)]
    exact ⟨rfl, attachable_reserved wf stored member, (reserved_rewire wf stored member).symm⟩

/-- The arena of `a*b`, with the product at the second place. -/
def factors : Arena :=
  (zero.plant (.product [.symbol "a", .symbol "b"])).rewire ⟨0⟩ (.root ⟨2⟩)

/-- The factor `b` leaves its slot to `-b` or comes back itself, but the factor `a` is refused. -/
theorem replaceWith_refills_of_factors : ∃ b c,
    factors.WellFormed ∧ factors.get? ⟨2⟩ = some ⟨some ⟨0⟩, .product [⟨3⟩, ⟨4⟩]⟩ ∧
    (negation ⟨4⟩).run (factors.reserved ⟨2⟩ (.product [⟨3⟩, ⟨4⟩]) ⟨4⟩) = .ok ⟨6⟩ b ∧
    b.WellFormed ∧ b.get? ⟨2⟩ = some ⟨some ⟨0⟩, .product [⟨3⟩, ⟨5⟩]⟩ ∧
    (replaceWith ⟨4⟩ negation).run factors = .ok ⟨6⟩ c ∧ b.Refilled ⟨2⟩ 1 ⟨5⟩ ⟨6⟩ c ∧
    (∃ fault c, (replaceWith ⟨4⟩ fun _ => pure ⟨3⟩).run factors = .error fault c) ∧
    (replaceWith ⟨4⟩ pure).run factors = .ok ⟨4⟩ (factors.plant (.integer 0)) := by
  have wf : factors.WellFormed := wellFormed_expression (by decide)
  have stored : factors.get? ⟨2⟩ = some ⟨some ⟨0⟩, .product [⟨3⟩, ⟨4⟩]⟩ := rfl
  obtain ⟨given, refills, back, -⟩ :=
    replaceWith_refills wf stored (k := 1) (h := ⟨4⟩) rfl
  have built : (negation ⟨4⟩).run (factors.reserved ⟨2⟩ (.product [⟨3⟩, ⟨4⟩]) ⟨4⟩) = .ok ⟨6⟩
      ⟨#[some ⟨none, .root ⟨2⟩⟩, some ⟨none, .integer 0⟩, some ⟨some ⟨0⟩, .product [⟨3⟩, ⟨5⟩]⟩,
        some ⟨some ⟨2⟩, .symbol "a"⟩, some ⟨some ⟨6⟩, .symbol "b"⟩, some ⟨some ⟨2⟩, .integer 0⟩,
        some ⟨none, .negation ⟨4⟩⟩], ⟨0⟩⟩ := rfl
  have wf' := create_wellFormed given.wf (by simp [Element.kind]) built
  obtain ⟨-, goesOn⟩ := refills negation _ _ _ built wf' rfl rfl ⟨_, rfl⟩ (by decide)
  obtain ⟨refused, -⟩ := refills (fun _ => pure ⟨3⟩) ⟨3⟩ _ _ rfl given.wf rfl rfl ⟨_, rfl⟩ (by decide)
  have done : (replaceWith ⟨4⟩ negation).run factors = .ok ⟨6⟩
      ⟨#[some ⟨none, .root ⟨2⟩⟩, some ⟨none, .integer 0⟩, some ⟨some ⟨0⟩, .product [⟨3⟩, ⟨6⟩]⟩,
        some ⟨some ⟨2⟩, .symbol "a"⟩, some ⟨some ⟨6⟩, .symbol "b"⟩, some ⟨none, .integer 0⟩,
        some ⟨some ⟨2⟩, .negation ⟨4⟩⟩], ⟨0⟩⟩ := rfl
  exact ⟨_, _, wf, stored, built, wf', rfl, done, (goesOn _ _ done).2.1,
    refused.mpr (.inl ⟨⟨2⟩, rfl⟩), back⟩

end Edit

end AlgebraEditor
