import AlgebraEditor.Proofs.Arena.Removing

/-!
# Putting a sign in front

An element leaves its slot to a placeholder, which then leaves it to a negation of the element. The
placeholder stays behind, owned by nothing.
-/

namespace AlgebraEditor

namespace Arena

variable {a : Arena} {h p : Handle} {m : Node}

/-- The arena in which a child `h` of the container `p`, which holds `e`, is negated. -/
def signed (a : Arena) (p : Handle) (e : Element) (h : Handle) : Arena :=
  ((((a.plant (.integer 0)).rewire p (e.replaceChild h a.next)).plant (.integer 0)).rewire
    (a.plant (.integer 0)).next (.negation h)).rewire p
      (e.replaceChild h (a.plant (.integer 0)).next)

@[simp] theorem root_signed (a : Arena) (p : Handle) (e : Element) (h : Handle) :
    (a.signed p e h).root = a.root := by
  rw [signed, root_rewire, root_rewire, root_plant, root_rewire, root_plant]

theorem get?_signed {x : Handle} {n : Node} {e : Element} (stored : a.get? x = some n) :
    ∃ n', (a.signed p e h).get? x = some n' ∧ n'.element =
      if x = p then e.replaceChild h (a.plant (.integer 0)).next else n.element := by
  have planted := get?_plant_of_stored stored (.integer 0)
  refine ⟨_, get?_rewire_of_stored (get?_rewire_of_stored (get?_plant_of_stored
    (get?_rewire_of_stored planted) _)), ?_⟩
  have other : x ≠ (a.plant (.integer 0)).next := ne_next_of_stored planted
  by_cases same : x = p
  · subst same
    rw [if_pos rfl, element_rewired_self]
  · rw [if_neg same, element_rewired_of_ne same, element_rewired_of_ne other,
      element_rewired_of_ne same]

/-- Only the negated element and what is new change their owners. -/
theorem owner?_signed (wf : a.WellFormed) {x : Handle} {n : Node} (held : a.get? p = some m)
    (stored : a.get? x = some n) (member : h ∈ m.element.children) (other : x ≠ h) :
    (a.signed p m.element h).owner? x = a.owner? x := by
  have planted := get?_plant_of_stored stored (.integer 0)
  have old := ne_next_of_stored stored
  have new := ne_next_of_stored planted
  have slots : ∀ y, x ≠ y → (x ∈ (m.element.replaceChild h y).children ↔ a.owner? x = some p) := by
    intro y fresh
    rw [Element.mem_replaceChild _ (wf.distinct held) member, ← wf.mem_children_iff held]
    exact ⟨fun inside => (inside.resolve_left fresh).1, fun inside => .inr ⟨inside, other⟩⟩
  have first : (a.plant (.integer 0)).owner? x = a.owner? x := owner?_plant_of_stored stored
  have second := owner?_rewire_of_iff planted ((slots a.next old).trans (by rw [first]))
  have second' := get?_rewire_of_stored (c := p) (e := m.element.replaceChild h a.next) planted
  have third := owner?_plant_of_stored (t := .integer 0) second'
  have third' := get?_plant_of_stored second' (.integer 0)
  have fourth := owner?_rewire_of_iff (c := (a.plant (.integer 0)).next) (e := .negation h) third' (by
    rw [third, second, first]
    refine ⟨fun inside => absurd (List.mem_singleton.mp inside) other, fun owned => ?_⟩
    obtain ⟨k, found⟩ := wf.stored_of_owner? owned
    cases get?_next_plant.symm.trans found)
  have fifth := owner?_rewire_of_iff (get?_rewire_of_stored third')
    ((slots _ new).trans (by rw [fourth, third, second, first]))
  rw [signed, fifth, fourth, third, second, first]

/-- What holds the container of a negated element stays as it is, two levels up. -/
theorem around_signed (wf : a.WellFormed) {q x : Handle} {k : Node} (owned : a.owner? h = some p)
    (held : a.get? p = some m) (owned' : a.owner? q = some h) (held' : a.get? q = some k)
    (member : x ∈ k.element.children) : (a.signed q k.element x).owner? q = some h ∧
      ∃ m', (a.signed q k.element x).get? p = some m' ∧ m'.element = m.element ∧
        h ∈ m'.element.children := by
  have apart : p ≠ q := by
    rintro rfl
    exact wf.acyclic p (IsAbove.trans (isAbove_of_owner? owned) (isAbove_of_owner? owned'))
  have other := wf.irrefl (wf.records held' x member)
  obtain ⟨m', found, element⟩ := get?_signed (p := q) (h := x) (e := k.element) held
  rw [if_neg apart] at element
  refine ⟨(owner?_signed wf held' held' member (Ne.symm other)).trans owned', m', found, element, ?_⟩
  rw [element]
  exact (wf.mem_children_iff held).mpr owned

end Arena

namespace Edit

open Arena

variable {a : Arena} {h p : Handle} {m : Node}

/-- A new container may be attached to what does not lie in its children. -/
theorem attachable_create (wf : a.WellFormed) {e : Element} (stored : a.get? p = some m)
    (held : ∀ x ∈ e.children, ∃ n, a.get? x = some n)
    (apart : ∀ x ∈ e.children, x ≠ p ∧ ¬ a.IsAbove x p) :
    ((a.plant (.integer 0)).rewire a.next e).Attachable p a.next where
  stored := ⟨_, get?_rewire_of_stored get?_plant_next⟩
  free := by
    have absent : a.next ∉ e.children := by
      intro inside
      obtain ⟨k, found⟩ := held _ inside
      exact ne_next_of_stored found rfl
    rw [owner?_rewire_of_not_mem absent, owner?_of_get? get?_plant_next]
    rfl
  not_root := (attachable_plant wf (t := .integer 0) stored).not_root
  other := (attachable_plant wf (t := .integer 0) stored).other
  not_above := by
    obtain ⟨hs, up⟩ := wf.exists_ascends stored
    have up' : ((a.plant (.integer 0)).rewire a.next e).Ascends p hs := by
      refine up.congr fun y member => ⟨?_, fun ⟨k, held⟩ => ⟨_, get?_rewire_of_stored (get?_plant_of_stored held _)⟩⟩
      obtain ⟨k, held⟩ := up.all_stored y member
      have absent : y ∉ e.children := by
        intro inside
        rcases List.mem_cons.mp member with rfl | above
        · exact (apart y inside).1 rfl
        · exact (apart y inside).2 (up.mem_iff.mp above)
      rw [owner?_rewire_of_not_mem absent, owner?_plant_of_stored held, if_neg]
      intro owned
      obtain ⟨k', held'⟩ := wf.stored_of_owner? owned
      exact ne_next_of_stored held' rfl
    intro above
    obtain ⟨k, held⟩ := up.all_stored a.next (List.mem_cons_of_mem _ (up'.mem_iff.mpr above))
    exact ne_next_of_stored held rfl

/-- A new negation of a free element takes the place of a child of another container. -/
theorem run_fill_negation (wf : a.WellFormed) {slot : Handle} {n : Node}
    (stored : a.get? p = some m) (member : slot ∈ m.element.children) (held : a.get? h = some n)
    (free : a.owner? h = none) (notRoot : h ≠ a.root) (apart : h ≠ p ∧ ¬ a.IsAbove h p) :
    (do let new ← negation h; replace p slot new; return new : Edit Handle).run a =
        .ok a.next (((a.plant (.integer 0)).rewire a.next (.negation h)).rewire p
          (m.element.replaceChild slot a.next)) ∧
      (((a.plant (.integer 0)).rewire a.next (.negation h)).rewire p
        (m.element.replaceChild slot a.next)).WellFormed := by
  have children : ∀ x ∈ (Element.negation h).children,
      (∃ n, a.get? x = some n) ∧ a.owner? x = none ∧ x ≠ a.root := by
    intro x inside
    rw [List.mem_singleton.mp inside]
    exact ⟨⟨n, held⟩, free, notRoot⟩
  have nodup : (Element.negation h).children.Nodup := List.nodup_singleton h
  have kind : (Element.negation h).kind ≠ .root := by simp [Element.kind]
  have created := (run_create_eq_ok wf).mpr ⟨nodup, children, rfl, rfl⟩
  have wf' := (wf.plant (Term.unwrapped_integer 0)).rewire get?_plant_next
    (rewirable_create wf kind nodup children)
  have stored' := get?_rewire_of_stored (c := a.next) (e := .negation h)
    (get?_plant_of_stored stored (.integer 0))
  have new := ne_next_of_stored stored
  have element := element_rewired_of_ne new (.negation h) m
  have fits := attachable_create wf stored (fun x inside => (children x inside).1) fun x inside => by
    rw [List.mem_singleton.mp inside]
    exact apart
  obtain ⟨k, found⟩ := wf.stored_of_mem_children stored member
  have other := ne_next_of_stored found
  have rewirable := rewirable_replace wf' stored' (by rwa [element]) fits
  have replaced := (run_replace_eq_ok (r := ()) wf').mpr
    ⟨_, stored', by rwa [element], .inr ⟨other, fits, rfl⟩⟩
  rw [element] at rewirable replaced
  refine ⟨?_, wf'.rewire stored' rewirable⟩
  rw [negation, run_bind_of_ok created, run_bind_of_ok replaced]
  rfl

/-- Putting a sign in front of a child goes through. -/
theorem run_replaceWith_negation (wf : a.WellFormed) (stored : a.get? p = some m)
    (member : h ∈ m.element.children) :
    (replaceWith h negation).run a = .ok (a.plant (.integer 0)).next (a.signed p m.element h) ∧
      (a.signed p m.element h).WellFormed := by
  have owned := wf.records stored h member
  obtain ⟨n, held⟩ := wf.stored_of_mem_children stored member
  have wf₁ := wf.plant (Term.unwrapped_integer 0)
  have stored₁ := get?_plant_of_stored stored (.integer 0)
  have held₁ := get?_plant_of_stored held (.integer 0)
  have owned₁ := (owner?_plant_of_stored (t := .integer 0) held).trans owned
  have fits := attachable_plant wf (t := .integer 0) stored
  have fresh : a.next ∉ m.element.children := fits.not_mem_children wf₁ stored₁
  have other : h ≠ a.next := fun same => fresh (same ▸ member)
  have rewirable := rewirable_replace wf₁ stored₁ member fits
  have replaced := (run_replace_eq_ok (r := ()) wf₁).mpr ⟨m, stored₁, member, .inr ⟨other, fits, rfl⟩⟩
  have below : ¬ ((a.plant (.integer 0)).rewire p (m.element.replaceChild h a.next)).IsAbove h p := by
    intro above
    exact wf₁.acyclic p (IsAbove.trans (isAbove_of_owner? owned₁)
      ((rewirable.isAbove_container wf₁).mp above))
  have element := element_rewired_self p (m.element.replaceChild h a.next) m
  obtain ⟨filled, wf'⟩ := run_fill_negation (wf₁.rewire stored₁ rewirable)
    (get?_rewire_of_stored stored₁)
    (by rw [element, Element.mem_replaceChild _ (wf.distinct stored) member]; exact .inl rfl)
    (get?_rewire_of_stored held₁) (owner?_replaced wf₁ stored₁ member fits)
    (wf.ne_root_of_owner? owned) ⟨wf.irrefl owned, below⟩
  rw [element, Element.replaceChild_replaceChild fresh, next_rewire] at filled wf'
  refine ⟨?_, wf'⟩
  unfold replaceWith
  rw [parentOf, run_bind_of_ok (run_inspect_of_ok (parent_eq_some.mpr owned))]
  dsimp only
  rw [run_bind_of_ok (run_integer a 0), run_bind_of_ok replaced, filled]
  rfl

end Edit

end AlgebraEditor
