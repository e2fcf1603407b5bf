import AlgebraEditor.Proofs.Arena.Exchanging
import AlgebraEditor.Proofs.Arena.Holding

/-!
# Changes at one slot

A child of a container leaves its slot to other elements, or stays there while something in it
changes. `Spliced` says that nothing is touched outside of the child and its slot. A change in a
child is one in its container (`Spliced.enclosing`), and changes at one slot can follow each other
(`Spliced.trans`), so that a sequence of edits is followed without looking at any node twice.
-/

namespace AlgebraEditor.Arena

variable {a b d : Arena} {c h p q r x y : Handle} {rs : List Handle} {m n : Node} {t : Term}

/-- The second element is the first one or lies in it. -/
def Encloses (a : Arena) (h x : Handle) : Prop := x = h ∨ a.IsAbove h x

theorem Encloses.above (encloses : a.Encloses h y) (above : a.IsAbove y x) : a.IsAbove h x := by
  rcases encloses with rfl | before
  · exact above
  · exact before.trans above

theorem WellFormed.not_encloses_owner (wf : a.WellFormed) (owned : a.owner? h = some p) :
    ¬ a.Encloses h p := by
  rintro (rfl | above)
  · exact wf.irrefl owned rfl
  · exact wf.acyclic h (above.tail owned)

/-- No child of a container lies in another one. -/
theorem WellFormed.not_encloses_sibling (wf : a.WellFormed) (owned : a.owner? h = some p)
    (owned' : a.owner? x = some p) (other : x ≠ h) : ¬ a.Encloses h x := by
  rintro (rfl | above)
  · exact other rfl
  · exact not_isAbove_sibling (wf.acyclic p) owned owned' above

theorem WellFormed.stored_of_isAbove (wf : a.WellFormed) (above : a.IsAbove x y) :
    ∃ n, a.get? x = some n := by
  obtain ⟨z, owned⟩ := owns_of_isAbove above
  exact wf.stored_of_owner? owned

/-- If only the container has changed, what the container does not lie in denotes what it did. -/
theorem WellFormed.denote_of_ne (wf : a.WellFormed) (wf' : b.WellFormed)
    (same : ∀ {y m}, a.get? y = some m → y ≠ p →
      ∃ m', b.get? y = some m' ∧ m'.element = m.element)
    (stored : a.get? x = some n) (outside : ¬ a.Encloses x p) : b.denote x = a.denote x := by
  refine wf.denote_congr wf' stored fun y m place held => same held ?_
  rintro rfl
  exact outside place

theorem Evolves.fresh (evolves : a.Evolves b) (fresh : b.get? x = none) : a.get? x = none := by
  cases held : a.get? x with
  | none => rfl
  | some n =>
    obtain ⟨m, found⟩ := evolves.stored held
    cases fresh.symm.trans found

/-- The elements `rs` stand in the slot that `h` had in the container `p`, and outside of `h` nothing
else has changed. What stands there is new unless it is `h` itself. -/
structure Spliced (a : Arena) (p h : Handle) (rs : List Handle) (b : Arena) : Prop
    extends Evolves a b where
  owned : a.owner? h = some p
  fresh : ∀ r ∈ rs, r ≠ h → a.get? r = none
  slot : ∀ {n before after}, a.get? p = some n → n.element.children = before ++ h :: after →
    ∃ e, b.get? p = some ⟨n.parent, e⟩ ∧ e.kind = n.element.kind ∧
      e.children = before ++ rs ++ after
  kept : ∀ {x n}, a.get? x = some n → x ≠ p → ¬ a.Encloses h x → b.get? x = some n

namespace Spliced

theorem owner?_eq (spliced : a.Spliced p h rs b) (wf : a.WellFormed) (stored : a.get? x = some n)
    (outside : ¬ a.Encloses h x) : b.owner? x = a.owner? x := by
  rw [owner?_of_get? stored]
  by_cases container : x = p
  · subst container
    have member := (wf.mem_children_iff stored).mpr spliced.owned
    obtain ⟨before, after, children⟩ := List.append_of_mem member
    obtain ⟨e, held, _⟩ := spliced.slot stored children
    rw [owner?_of_get? held]
  · exact owner?_of_get? (spliced.kept stored container outside)

theorem isAbove_iff (spliced : a.Spliced p h rs b) (wf : a.WellFormed) (stored : a.get? x = some n)
    (outside : ¬ a.Encloses h x) : b.IsAbove y x ↔ a.IsAbove y x := by
  refine isAbove_congr fun z onTheWay => ?_
  rcases onTheWay with rfl | above
  · exact spliced.owner?_eq wf stored outside
  · obtain ⟨m, held⟩ := wf.stored_of_isAbove above
    exact spliced.owner?_eq wf held fun encloses => outside (.inr (encloses.above above))

/-- What now stands in the slot encloses nothing that was outside. -/
theorem not_encloses (spliced : a.Spliced p h rs b) (wf : a.WellFormed) (stands : r ∈ rs)
    (stored : a.get? x = some n) (outside : ¬ a.Encloses h x) : ¬ b.Encloses r x := by
  by_cases same : r = h
  · subst same
    rintro (here | above)
    · exact outside (.inl here)
    · exact outside (.inr ((spliced.isAbove_iff wf stored outside).mp above))
  have fresh := spliced.fresh r stands same
  rintro (rfl | above)
  · cases fresh.symm.trans stored
  · obtain ⟨m, held⟩ := wf.stored_of_isAbove ((spliced.isAbove_iff wf stored outside).mp above)
    cases fresh.symm.trans held

/-- What has taken the slot may leave it again. -/
theorem trans (first : a.Spliced p h [r] b) (second : b.Spliced p r rs d) (wf : a.WellFormed) :
    a.Spliced p h rs d where
  toEvolves := first.toEvolves.trans second.toEvolves
  owned := first.owned
  fresh := by
    intro s stands other
    by_cases same : s = r
    · subst same
      exact first.fresh s (List.mem_singleton_self s) other
    · exact first.toEvolves.fresh (second.fresh s stands same)
  slot := by
    intro n before after stored children
    obtain ⟨e, held, kind, children'⟩ := first.slot stored children
    rw [List.append_assoc, List.singleton_append] at children'
    obtain ⟨e', held', kind', slots⟩ := second.slot held children'
    exact ⟨e', held', kind'.trans kind, slots⟩
  kept := by
    intro x n stored container outside
    exact second.kept (first.kept stored container outside) container
      (first.not_encloses wf (List.mem_singleton_self r) stored outside)

theorem owner?_slot (spliced : a.Spliced p h rs b) (wf : a.WellFormed) (stands : r ∈ rs) :
    b.owner? r = some p := by
  obtain ⟨n, stored, member⟩ := wf.holds spliced.owned
  obtain ⟨before, after, children⟩ := List.append_of_mem member
  obtain ⟨e, held, _, slots⟩ := spliced.slot stored children
  exact spliced.wf.records held r (by simp [slots, stands])

theorem content (spliced : a.Spliced a.root c [r] b) (wf : a.WellFormed) : b.content = .ok r := by
  obtain ⟨d, held⟩ := spliced.wf.wrapper
  have owned := spliced.owner?_slot wf (List.mem_singleton_self r)
  rw [← spliced.root] at owned
  have member := (spliced.wf.mem_children_iff held).mpr owned
  cases List.mem_singleton.mp member
  exact content_eq_ok.mpr ⟨_, held, rfl⟩

/-- What holds the change nowhere, and does not lie in it, denotes what it did. -/
theorem denote_eq (spliced : a.Spliced p h rs b) (wf : a.WellFormed) (stored : a.get? x = some n)
    (below : ¬ a.Encloses x h) (outside : ¬ a.Encloses h x) : b.denote x = a.denote x := by
  refine wf.denote_congr spliced.wf stored fun y m place held => ⟨m, spliced.kept held ?_ ?_, rfl⟩
  · rintro rfl
    have encloses : a.Encloses x y := place
    exact below (.inr (encloses.above (isAbove_of_owner? spliced.owned)))
  · rintro (rfl | above)
    · exact below place
    rcases place with rfl | above'
    · exact outside (.inr above)
    rcases above.comparable above' with rfl | deeper | higher
    · exact below (.inl rfl)
    · exact outside (.inr deeper)
    · exact below (.inr higher)

/-- The container denotes what it did, but for the slot. -/
theorem denote_container (spliced : a.Spliced p h rs b) (wf : a.WellFormed)
    (stored : a.get? p = some n) {before after : List Handle}
    (children : n.element.children = before ++ h :: after) :
    (b.denote p).kind = n.element.kind ∧ (b.denote p).children =
      before.map a.denote ++ rs.map b.denote ++ after.map a.denote := by
  obtain ⟨e, held, kind, slots⟩ := spliced.slot stored children
  have sibling : ∀ x ∈ before ++ after, b.denote x = a.denote x := by
    intro x beside
    have nodup := wf.distinct stored
    rw [children, List.nodup_middle, List.nodup_cons] at nodup
    have other : x ≠ h := by
      rintro rfl
      exact nodup.1 beside
    have member : x ∈ n.element.children := by
      rw [children, List.perm_middle.mem_iff]
      exact List.mem_cons_of_mem h beside
    have owned := wf.records stored x member
    obtain ⟨k, found⟩ := wf.stored_of_mem_children stored member
    exact spliced.denote_eq wf found (wf.not_encloses_sibling owned spliced.owned (Ne.symm other))
      (wf.not_encloses_sibling spliced.owned owned other)
  rw [spliced.wf.denote_eq held, Element.kind_toTerm, Element.children_toTerm, slots]
  refine ⟨kind, ?_⟩
  rw [List.map_append, List.map_append,
    List.map_congr_left fun x front => sibling x (List.mem_append_left after front),
    List.map_congr_left fun x back => sibling x (List.mem_append_right before back)]

/-- What is in the expression and does not lie in the change stays there. -/
theorem reachable (spliced : a.Spliced p h rs b) (wf : a.WellFormed) (reached : a.Reachable x)
    (outside : ¬ a.Encloses h x) : b.Reachable x := by
  refine reached.of_owners wf spliced.wf spliced.root fun y onTheWay => ?_
  have reached' : a.Reachable y := by
    rcases onTheWay with rfl | above
    · exact reached
    · exact reached.above wf above
  obtain ⟨n, stored⟩ := reached'.stored wf
  refine spliced.owner?_eq wf stored fun encloses => outside ?_
  rcases onTheWay with rfl | above
  · exact encloses
  · exact .inr (encloses.above above)

/-- What is in the expression stays there, up to the slot. -/
theorem holds (spliced : a.Spliced p h rs b) (wf : a.WellFormed) {before after : List Handle}
    (holds : a.Holds p (before ++ h :: after)) : b.Holds p (before ++ rs ++ after) where
  reached := spliced.reachable wf holds.reached (wf.not_encloses_owner spliced.owned)
  children := by
    obtain ⟨n, stored, children⟩ := holds.children
    obtain ⟨e, held, _, slots⟩ := spliced.slot stored children
    exact ⟨_, held, slots⟩

theorem equalAcross_eq_ok (spliced : a.Spliced p h rs b) (wf : a.WellFormed) (stands : r ∈ rs) :
    ∃ same, a.equalAcross b h r = .ok same ∧ (same = true ↔ a.denote h = b.denote r) := by
  obtain ⟨n, stored⟩ := Arena.stored_of_owner? spliced.owned
  obtain ⟨m, found⟩ := Arena.stored_of_owner? (spliced.owner?_slot wf stands)
  exact wf.equalAcross_eq_ok spliced.wf stored found

/-- A change in a child is a change in what holds the child. -/
theorem enclosing (inner : a.Spliced c h rs b) (wf : a.WellFormed) (owned : a.owner? c = some p) :
    a.Spliced p c [c] b where
  toEvolves := inner.toEvolves
  owned := owned
  fresh := by
    intro r stands other
    exact absurd (List.mem_singleton.mp stands) other
  slot := by
    intro n before after stored children
    have outside : ¬ a.Encloses h p := by
      intro encloses
      have around := encloses.above (isAbove_of_owner? owned)
      exact wf.not_encloses_owner inner.owned (.inr around)
    refine ⟨n.element, inner.kept stored (Ne.symm (wf.irrefl owned)) outside, rfl, ?_⟩
    rw [children, List.append_assoc]
    rfl
  kept := by
    intro x n stored _ outside
    refine inner.kept stored (fun same => outside (.inl same)) fun encloses => outside ?_
    rcases encloses with rfl | above
    · exact .inr (isAbove_of_owner? inner.owned)
    · exact .inr (IsAbove.trans (isAbove_of_owner? inner.owned) above)

end Spliced

/-! ### One element for another -/

theorem children_replaceChild_between (wf : a.WellFormed) {before after : List Handle}
    (stored : a.get? p = some n) (children : n.element.children = before ++ h :: after) :
    (n.element.replaceChild h r).children = before ++ [r] ++ after := by
  have nodup := wf.distinct stored
  rw [children] at nodup
  rw [Element.children_replaceChild, children, replace_between (not_mem_before nodup),
    List.append_assoc]
  rfl

/-- A new element takes the slot of a child, and nothing has changed outside of the child. -/
theorem Evolves.spliced (evolves : a.Evolves b) (wf : a.WellFormed) (owned : a.owner? h = some p)
    (fresh : a.get? r = none)
    (slot : ∀ {n}, a.get? p = some n → b.get? p = some ⟨n.parent, n.element.replaceChild h r⟩)
    (kept : ∀ {x n}, a.get? x = some n → x ≠ p → ¬ a.Encloses h x → b.get? x = some n) :
    a.Spliced p h [r] b where
  toEvolves := evolves
  owned := owned
  fresh := by
    intro s stands _
    rwa [List.mem_singleton.mp stands]
  slot stored children := ⟨_, slot stored, Element.kind_replaceChild ..,
    children_replaceChild_between wf stored children⟩
  kept := kept

theorem Superseded.spliced (superseded : a.Superseded p h t r b) (wf : a.WellFormed)
    (owned : a.owner? h = some p) : a.Spliced p h [r] b := by
  refine Evolves.spliced ⟨superseded.wf, superseded.root, fun {x n} stored => ?_⟩ wf owned
    superseded.fresh superseded.slot fun stored container outside =>
      superseded.kept stored container fun same => outside (.inl same)
  by_cases container : x = p
  · subst container
    exact ⟨_, superseded.slot stored⟩
  by_cases old : x = h
  · subst old
    exact ⟨_, superseded.left stored⟩
  exact ⟨n, superseded.kept stored container old⟩

/-! ### A sign in front -/

/-- The new negation `r` stands between the container `p` and its child `h`, and nothing else has
changed. -/
structure Wrapped (a : Arena) (p h r : Handle) (b : Arena) : Prop extends Evolves a b where
  fresh : a.get? r = none
  slot : ∀ {n}, a.get? p = some n → b.get? p = some ⟨n.parent, n.element.replaceChild h r⟩
  sign : b.get? r = some ⟨some p, .negation h⟩
  inner : ∀ {n}, a.get? h = some n → b.get? h = some ⟨some r, n.element⟩
  kept : ∀ {x n}, a.get? x = some n → x ≠ p → x ≠ h → b.get? x = some n

/-- The new negation is stored at the place behind a placeholder. -/
theorem get?_signed_next (wf : a.WellFormed) (stored : a.get? p = some m)
    (member : h ∈ m.element.children) : (a.signed p m.element h).get? (a.plant (.integer 0)).next =
      some ⟨some p, .negation h⟩ := by
  have planted := get?_plant_of_stored stored (.integer 0)
  have new := get?_plant_next (a := (a.plant (.integer 0)).rewire p
    (m.element.replaceChild h a.next)) (t := .integer 0)
  rw [next_rewire] at new
  have other : (a.plant (.integer 0)).next ≠ p := Ne.symm (ne_next_of_stored planted)
  have stands : (a.plant (.integer 0)).next ∈
      (m.element.replaceChild h (a.plant (.integer 0)).next).children :=
    (Element.mem_replaceChild _ (wf.distinct stored) member).mpr (.inl rfl)
  rw [signed, get?_rewire_of_stored (get?_rewire_of_stored new), Node.rewired, if_pos stands,
    if_neg other, element_rewired_self]

theorem wrapped_signed (wf : a.WellFormed) (stored : a.get? p = some m)
    (member : h ∈ m.element.children) :
    a.Wrapped p h (a.plant (.integer 0)).next (a.signed p m.element h) := by
  have evolves := (Evolves.refl wf).signed stored member
  have owned := wf.records stored h member
  have sign := get?_signed_next wf stored member
  -- apart from the child every old element keeps its owner, and only the container its element
  have node : ∀ {x n}, a.get? x = some n → x ≠ h → (a.signed p m.element h).get? x =
      some ⟨n.parent, if x = p then m.element.replaceChild h (a.plant (.integer 0)).next
        else n.element⟩ := by
    intro x n held other
    obtain ⟨n', held', element⟩ := get?_signed (p := p) (h := h) (e := m.element) held
    have parent := owner?_signed wf stored held member other
    rw [owner?_of_get? held', owner?_of_get? held] at parent
    rw [held', ← parent, ← element]
  refine ⟨evolves, get?_next_plant, fun held => ?_, sign, fun held => ?_,
    fun held notContainer other => ?_⟩
  · cases stored.symm.trans held
    rw [node stored (Ne.symm (wf.irrefl owned)), if_pos rfl]
  · obtain ⟨n', held', element⟩ := get?_signed (p := p) (h := h) (e := m.element) held
    have parent := evolves.wf.records sign h (List.mem_singleton_self h)
    rw [owner?_of_get? held'] at parent
    rw [if_neg (wf.irrefl owned)] at element
    rw [held', ← parent, ← element]
  · rw [node held other, if_neg notContainer]

namespace Wrapped

theorem spliced (wrapped : a.Wrapped p h r b) (wf : a.WellFormed) (owned : a.owner? h = some p) :
    a.Spliced p h [r] b :=
  wrapped.toEvolves.spliced wf owned wrapped.fresh wrapped.slot fun stored container outside =>
    wrapped.kept stored container fun same => outside (.inl same)

theorem denote_sign (wrapped : a.Wrapped p h r b) (wf : a.WellFormed) (owned : a.owner? h = some p) :
    b.denote r = .negation (a.denote h) := by
  obtain ⟨n, stored⟩ := Arena.stored_of_owner? owned
  have inner : b.denote h = a.denote h := by
    refine wf.denote_of_ne wrapped.wf (fun {y m} held notContainer => ?_) stored
      (wf.not_encloses_owner owned)
    by_cases same : y = h
    · subst same
      exact ⟨_, wrapped.inner held, rfl⟩
    · exact ⟨m, wrapped.kept held notContainer same, rfl⟩
  rw [wrapped.wf.denote_eq wrapped.sign, Element.toTerm, inner]

end Wrapped

end AlgebraEditor.Arena
