import AlgebraEditor.Proofs.Arena.Denotation
import AlgebraEditor.Proofs.Term

/-!
# Planted terms

A term is laid out in pre-order over consecutive new places, so that planting it is one extension
of an arena: everything stored before keeps its place (`get?_plant_of_stored`), and exactly the
elements of the term are added (`places_plant`). No edit does this at once, but an arena with a given
expression in it is told in one term this way. Planting keeps an arena well-formed, and the new element
denotes the term. `Laid` says which nodes a term lays out where: a child stands behind its container,
and both know each other.
-/

namespace AlgebraEditor

/-! ### Planting -/

namespace Term

/-- The handles of the given terms when they are laid out one after the other. -/
def heads (start : Nat) : List Term → List Handle
  | [] => []
  | t :: ts => ⟨start⟩ :: heads (start + t.size) ts

mutual

/-- The nodes of a term laid out from the place `start`, owned by `parent`. -/
def layout (start : Nat) (parent : Option Handle) : Term → List Node
  | symbol name => [⟨parent, .symbol name⟩]
  | integer value => [⟨parent, .integer value⟩]
  | negation inner =>
    ⟨parent, .negation ⟨start + 1⟩⟩ :: layout (start + 1) (some ⟨start⟩) inner
  | fraction numerator denominator =>
    ⟨parent, .fraction ⟨start + 1⟩ ⟨start + 1 + numerator.size⟩⟩ ::
      (layout (start + 1) (some ⟨start⟩) numerator ++
        layout (start + 1 + numerator.size) (some ⟨start⟩) denominator)
  | power base exponent =>
    ⟨parent, .power ⟨start + 1⟩ ⟨start + 1 + base.size⟩⟩ ::
      (layout (start + 1) (some ⟨start⟩) base ++
        layout (start + 1 + base.size) (some ⟨start⟩) exponent)
  | product factors =>
    ⟨parent, .product (heads (start + 1) factors)⟩ :: layouts (start + 1) ⟨start⟩ factors
  | sum terms => ⟨parent, .sum (heads (start + 1) terms)⟩ :: layouts (start + 1) ⟨start⟩ terms
  | root inner => ⟨parent, .root ⟨start + 1⟩⟩ :: layout (start + 1) (some ⟨start⟩) inner

/-- The nodes of several terms laid out one after the other, all owned by `parent`. -/
def layouts (start : Nat) (parent : Handle) : List Term → List Node
  | [] => []
  | t :: ts => layout start (some parent) t ++ layouts (start + t.size) parent ts

end

mutual

theorem length_layout (t : Term) (start : Nat) (parent : Option Handle) :
    (t.layout start parent).length = t.size := by
  cases t with
  | symbol | integer => rfl
  | negation inner | root inner => simp [layout, size, length_layout inner]
  | fraction n d => simp [layout, size, length_layout n, length_layout d]
  | power b e => simp [layout, size, length_layout b, length_layout e]
  | product ts | sum ts => simp [layout, size, length_layouts ts]

theorem length_layouts (ts : List Term) (start : Nat) (parent : Handle) :
    (layouts start parent ts).length = sizes ts := by
  cases ts with
  | nil => rfl
  | cons t ts => simp [layouts, sizes, length_layout t, length_layouts ts]

end

end Term

namespace Arena

/-- The arena with the elements of a term added, owned by nothing. The term's own handle is `next`
of the arena before. -/
def plant (a : Arena) (t : Term) : Arena :=
  { a with places := a.places ++ ((t.layout a.places.size none).map some).toArray }

@[simp] theorem root_plant (a : Arena) (t : Term) : (a.plant t).root = a.root := rfl

theorem places_plant (a : Arena) (t : Term) :
    (a.plant t).places.size = a.places.size + t.size := by
  simp [plant, Term.length_layout]

theorem size_plant (a : Arena) (t : Term) : (a.plant t).size = a.size + t.size := by
  simp only [size, plant, Array.countP_append, List.countP_toArray, List.countP_map]
  congr 1
  rw [← Term.length_layout t a.places.size none, List.countP_eq_length]
  simp

theorem get?_plant_of_stored {a : Arena} {h : Handle} {n : Node} (stored : a.get? h = some n)
    (t : Term) : (a.plant t).get? h = some n := by
  have inside : h.index < a.places.size := Nat.lt_of_not_le fun outside => by
    simp [get?, Array.getElem?_eq_none outside] at stored
  rw [← stored]
  simp [get?, plant, Array.getElem?_append_left inside]

end Arena

/-! ### Elements of a term -/

namespace Term

/-- The element of a term that is laid out from the place `start`. -/
def top (start : Nat) : Term → Element
  | symbol name => .symbol name
  | integer value => .integer value
  | negation _ => .negation ⟨start + 1⟩
  | fraction numerator _ => .fraction ⟨start + 1⟩ ⟨start + 1 + numerator.size⟩
  | power base _ => .power ⟨start + 1⟩ ⟨start + 1 + base.size⟩
  | product factors => .product (heads (start + 1) factors)
  | sum terms => .sum (heads (start + 1) terms)
  | root _ => .root ⟨start + 1⟩

theorem children_top (start : Nat) (t : Term) :
    (t.top start).children = heads (start + 1) t.children := by
  cases t <;> rfl

theorem kind_top (start : Nat) (t : Term) : (t.top start).kind = t.kind := by cases t <;> rfl

theorem layout_eq (start : Nat) (parent : Option Handle) (t : Term) :
    t.layout start parent = ⟨parent, t.top start⟩ :: layouts (start + 1) ⟨start⟩ t.children := by
  cases t <;> simp [layout, top, children, layouts]

theorem toTerm_top {f : Handle → Term} {start : Nat} {t : Term}
    (parts : (heads (start + 1) t.children).map f = t.children) :
    (t.top start).toTerm f = t := by
  cases t <;> simp_all [children, heads, top, Element.toTerm]

theorem mem_heads {c : Handle} {start : Nat} {ts : List Term} : c ∈ heads start ts ↔
    ∃ before t after, ts = before ++ t :: after ∧ c = ⟨start + sizes before⟩ := by
  induction ts generalizing start with
  | nil => simp [heads]
  | cons t ts ih =>
    rw [heads, List.mem_cons, ih]
    constructor
    · rintro (rfl | ⟨before, u, after, rfl, rfl⟩)
      · exact ⟨[], t, ts, rfl, rfl⟩
      · exact ⟨t :: before, u, after, rfl, by simp [sizes, Nat.add_assoc]⟩
    · rintro ⟨before, u, after, same, rfl⟩
      cases before with
      | nil => exact .inl rfl
      | cons t' before =>
        cases same
        exact .inr ⟨before, u, after, rfl, by simp [sizes, Nat.add_assoc]⟩

theorem nodup_heads (start : Nat) (ts : List Term) : (heads start ts).Nodup := by
  induction ts generalizing start with
  | nil => exact List.nodup_nil
  | cons t ts ih =>
    refine List.nodup_cons.mpr ⟨fun member => ?_, ih _⟩
    obtain ⟨before, u, after, _, same⟩ := mem_heads.mp member
    have pos := t.size_pos
    have indices := congrArg Handle.index same
    dsimp only at indices
    omega

theorem map_heads {f : Handle → Term} {start : Nat} {ts : List Term}
    (reads : ∀ before t after, ts = before ++ t :: after → f ⟨start + sizes before⟩ = t) :
    (heads start ts).map f = ts := by
  induction ts generalizing start with
  | nil => rfl
  | cons t ts ih =>
    rw [heads, List.map_cons, ih, show f ⟨start⟩ = t from reads [] t ts rfl]
    intro before u after same
    have read := reads (t :: before) u after (by rw [same]; rfl)
    rwa [sizes, ← Nat.add_assoc] at read

/-- A term that is laid out from the place `start` has the node at the handle. -/
inductive Laid : Nat → Option Handle → Term → Handle → Node → Prop where
  | top (start : Nat) (parent : Option Handle) (t : Term) :
      Laid start parent t ⟨start⟩ ⟨parent, t.top start⟩
  | inside {start : Nat} (parent : Option Handle) {t u : Term} {before after : List Term}
      {h : Handle} {n : Node} : t.children = before ++ u :: after →
      Laid (start + 1 + sizes before) (some ⟨start⟩) u h n → Laid start parent t h n

theorem getElem?_layouts {start i : Nat} {parent : Handle} {ts : List Term} {n : Node} :
    (layouts start parent ts)[i]? = some n ↔ ∃ before t after j, ts = before ++ t :: after ∧
      i = sizes before + j ∧ (t.layout (start + sizes before) (some parent))[j]? = some n := by
  induction ts generalizing start i with
  | nil => simp [layouts]
  | cons t ts ih =>
    rw [layouts, List.getElem?_append, length_layout]
    constructor
    · intro found
      split at found
      · exact ⟨[], t, ts, i, rfl, by simp [sizes], found⟩
      · obtain ⟨before, u, after, j, rfl, same, held⟩ := ih.mp found
        exact ⟨t :: before, u, after, j, rfl, by rw [sizes]; omega, by
          rwa [sizes, ← Nat.add_assoc]⟩
    · rintro ⟨before, u, after, j, same, rfl, held⟩
      cases before with
      | nil =>
        cases same
        have short := (List.getElem?_eq_some_iff.mp held).1
        rw [length_layout] at short
        rw [sizes, Nat.zero_add, if_pos short]
        exact held
      | cons t' before =>
        cases same
        rw [sizes] at held ⊢
        rw [if_neg (by omega)]
        exact ih.mpr ⟨before, u, after, j, rfl, by omega, by rwa [Nat.add_assoc]⟩

theorem laid_iff {start : Nat} {parent : Option Handle} {t : Term} {h : Handle} {n : Node} :
    Laid start parent t h n ↔
      ∃ i, h = ⟨start + i⟩ ∧ (t.layout start parent)[i]? = some n := by
  constructor
  · intro laid
    induction laid with
    | top start parent t => exact ⟨0, rfl, by rw [layout_eq]; rfl⟩
    | @inside start parent t u before after h n same _ ih =>
      obtain ⟨i, rfl, found⟩ := ih
      refine ⟨sizes before + i + 1, congrArg Handle.mk (by omega), ?_⟩
      rw [layout_eq, List.getElem?_cons_succ]
      exact getElem?_layouts.mpr ⟨before, u, after, i, same, rfl, found⟩
  · rintro ⟨i, rfl, found⟩
    induction t using Term.induction generalizing start parent i with
    | step t ih =>
      rw [layout_eq] at found
      cases i with
      | zero =>
        cases found
        exact .top start parent t
      | succ i =>
        rw [List.getElem?_cons_succ] at found
        obtain ⟨before, u, after, j, same, rfl, held⟩ := getElem?_layouts.mp found
        have laid := ih u (by rw [same]; simp) j held
        rw [show start + 1 + sizes before + j = start + (sizes before + j + 1) by omega] at laid
        exact .inside parent same laid

namespace Laid

variable {start : Nat} {parent : Option Handle} {t : Term} {h c : Handle} {n m : Node}

theorem start_le (laid : Laid start parent t h n) : start ≤ h.index := by
  obtain ⟨i, rfl, _⟩ := laid_iff.mp laid
  exact Nat.le_add_right start i

/-- A child is laid out behind its container, which it records. -/
theorem child (laid : Laid start parent t h n) (member : c ∈ n.element.children) :
    h.index < c.index ∧ ∃ m, Laid start parent t c m ∧ m.parent = some h := by
  induction laid with
  | top start parent t =>
    rw [children_top] at member
    obtain ⟨before, u, after, same, rfl⟩ := mem_heads.mp member
    exact ⟨by dsimp only; omega, _, .inside parent same (.top _ _ u), rfl⟩
  | inside parent same _ ih =>
    obtain ⟨behind, m, held, recorded⟩ := ih member
    exact ⟨behind, m, .inside parent same held, recorded⟩

/-- What is not on top records a container in front of it, which holds it. -/
theorem owner (laid : Laid start parent t h n) : (h = ⟨start⟩ ∧ n.parent = parent) ∨
    ∃ p m, n.parent = some p ∧ p.index < h.index ∧ Laid start parent t p m ∧
      h ∈ m.element.children := by
  induction laid with
  | top start parent t => exact .inl ⟨rfl, rfl⟩
  | @inside start parent t u before after h n same laid ih =>
    right
    rcases ih with ⟨rfl, recorded⟩ | ⟨p, m, recorded, front, held, member⟩
    · refine ⟨⟨start⟩, _, recorded, by dsimp only; omega, .top start parent t, ?_⟩
      rw [children_top]
      exact mem_heads.mpr ⟨before, u, after, same, rfl⟩
    · exact ⟨p, m, recorded, front, .inside parent same held, member⟩

theorem nodup (laid : Laid start parent t h n) : n.element.children.Nodup := by
  induction laid with
  | top start parent t => rw [children_top]; exact nodup_heads _ _
  | inside _ _ _ ih => exact ih

theorem kind_ne_root (laid : Laid start parent t h n) (unwrapped : t.Unwrapped) :
    n.element.kind ≠ .root := by
  induction laid with
  | top start parent t => rw [kind_top]; exact unwrapped.self
  | inside _ same _ ih => exact ih (unwrapped.child (by rw [same]; simp))

end Laid

end Term

namespace Arena

open Term

variable {a b : Arena} {h x y : Handle} {n : Node} {t : Term}

theorem get?_plant_of_le (outside : a.places.size ≤ h.index) : (a.plant t).get? h =
    (t.layout a.places.size none)[h.index - a.places.size]? := by
  simp only [get?, plant, Array.getElem?_append_right outside, List.getElem?_toArray,
    List.getElem?_map]
  cases (t.layout a.places.size none)[h.index - a.places.size]? <;> rfl

theorem get?_plant : (a.plant t).get? h = some n ↔
    a.get? h = some n ∨ Laid a.places.size none t h n := by
  rw [laid_iff]
  constructor
  · intro stored
    by_cases old : h.index < a.places.size
    · left
      rw [← stored]
      simp [get?, plant, Array.getElem?_append_left old]
    · right
      rw [get?_plant_of_le (Nat.le_of_not_lt old)] at stored
      exact ⟨_, by cases h; dsimp only at old ⊢; congr 1; omega, stored⟩
  · rintro (stored | ⟨i, rfl, found⟩)
    · exact get?_plant_of_stored stored t
    · rw [get?_plant_of_le (Nat.le_add_right _ _)]
      simpa using found

theorem plant_integer (a : Arena) (value : UInt64) :
    a.plant (.integer value) = a.push ⟨none, .integer value⟩ := by
  simp [plant, push, layout]

theorem stored_laid_disjoint (stored : a.get? h = some n) {m : Node}
    (laid : Laid a.places.size none t h m) : False := by
  have old := index_lt_of_get? stored
  have new := laid.start_le
  omega

theorem owner?_plant_of_stored (stored : a.get? h = some n) :
    (a.plant t).owner? h = a.owner? h := by
  rw [owner?_of_get? stored, owner?_of_get? (get?_plant_of_stored stored t)]

theorem owner?_plant_of_laid (laid : Laid a.places.size none t h n) :
    (a.plant t).owner? h = n.parent :=
  owner?_of_get? (get?_plant.mpr (.inr laid))

/-- Planting adds nothing above what was there, and new elements lie only below those in front of
them. -/
theorem isAbove_plant (wf : a.WellFormed) (above : (a.plant t).IsAbove x y) :
    ((∃ n, a.get? y = some n) ∧ a.IsAbove x y) ∨ (a.places.size ≤ x.index ∧ x.index < y.index) := by
  induction above with
  | single owned =>
    obtain ⟨n, stored, recorded⟩ := owner?_eq_some.mp owned
    rcases get?_plant.mp stored with old | laid
    · exact .inl ⟨⟨n, old⟩, isAbove_of_owner? (owner?_eq_some.mpr ⟨n, old, recorded⟩)⟩
    · rcases laid.owner with ⟨_, top⟩ | ⟨p, m, recorded', front, held, _⟩
      · rw [top] at recorded
        cases recorded
      · cases recorded.symm.trans recorded'
        exact .inr ⟨held.start_le, front⟩
  | @tail z y _ owned ih =>
    obtain ⟨n, stored, recorded⟩ := owner?_eq_some.mp owned
    rcases get?_plant.mp stored with old | laid
    · have owned' : a.owner? y = some z := owner?_eq_some.mpr ⟨n, old, recorded⟩
      obtain ⟨m, held⟩ := wf.stored_of_owner? owned'
      rcases ih with ⟨_, above⟩ | ⟨new, behind⟩
      · exact .inl ⟨⟨n, old⟩, above.trans (isAbove_of_owner? owned')⟩
      · have old' := index_lt_of_get? held
        omega
    · rcases laid.owner with ⟨_, top⟩ | ⟨p, m, recorded', front, held, _⟩
      · rw [top] at recorded
        cases recorded
      · cases recorded.symm.trans recorded'
        rcases ih with ⟨⟨k, stored'⟩, _⟩ | ⟨new, behind⟩
        · exact (stored_laid_disjoint stored' held).elim
        · exact .inr ⟨new, by omega⟩

namespace WellFormed

theorem plant (wf : a.WellFormed) (unwrapped : t.Unwrapped) : (a.plant t).WellFormed where
  records := by
    intro h n stored c member
    rcases get?_plant.mp stored with old | laid
    · obtain ⟨m, held⟩ := wf.stored_of_mem_children old member
      rw [owner?_plant_of_stored held]
      exact wf.records old c member
    · obtain ⟨_, m, held, recorded⟩ := laid.child member
      rw [owner?_plant_of_laid held, recorded]
  distinct := by
    intro h n stored
    rcases get?_plant.mp stored with old | laid
    · exact wf.distinct old
    · exact laid.nodup
  holds := by
    intro h p owned
    obtain ⟨n, stored, recorded⟩ := owner?_eq_some.mp owned
    rcases get?_plant.mp stored with old | laid
    · obtain ⟨m, held, member⟩ := wf.holds (owner?_eq_some.mpr ⟨n, old, recorded⟩)
      exact ⟨m, get?_plant_of_stored held t, member⟩
    · rcases laid.owner with ⟨_, top⟩ | ⟨p, m, recorded', _, held, member⟩
      · rw [top] at recorded
        cases recorded
      · cases recorded.symm.trans recorded'
        exact ⟨m, get?_plant.mpr (.inr held), member⟩
  acyclic := by
    intro h above
    rcases isAbove_plant wf above with ⟨_, circle⟩ | ⟨_, behind⟩
    · exact wf.acyclic h circle
    · exact Nat.lt_irrefl _ behind
  wrapper := by
    obtain ⟨inner, stored⟩ := wf.wrapper
    exact ⟨inner, get?_plant_of_stored stored t⟩
  only_wrapper := by
    intro h n stored kind
    rcases get?_plant.mp stored with old | laid
    · exact wf.only_wrapper old kind
    · exact absurd kind (laid.kind_ne_root unwrapped)

end WellFormed

/-- An element below which a term is laid out denotes the term. -/
theorem denote_of_laid (wf : b.WellFormed) {start : Nat} {parent : Option Handle}
    (laid : ∀ h n, Laid start parent t h n → b.get? h = some n) : b.denote ⟨start⟩ = t := by
  induction t using Term.induction generalizing start parent with
  | step t ih =>
    rw [wf.denote_eq (laid _ _ (.top start parent t))]
    refine toTerm_top (map_heads fun before u after same => ?_)
    exact ih u (by rw [same]; simp) fun h n inside => laid h n (.inside parent same inside)

theorem denote_plant (wf : a.WellFormed) (unwrapped : t.Unwrapped) :
    (a.plant t).denote a.next = t :=
  denote_of_laid (wf.plant unwrapped) fun _ _ laid => get?_plant.mpr (.inr laid)

theorem get?_plant_next : (a.plant t).get? a.next = some ⟨none, t.top a.places.size⟩ :=
  get?_plant.mpr (.inr (.top _ _ t))

theorem get?_next_plant : a.get? (a.plant t).next = none := by
  cases held : a.get? (a.plant t).next with
  | none => rfl
  | some n => exact absurd rfl (ne_next_of_stored (get?_plant_of_stored held t))

/-- What is planted may be attached to everything that was stored before. -/
theorem isAbove_plant_next (wf : a.WellFormed) (stored : a.get? h = some n) :
    ¬ (a.plant t).IsAbove a.next h := by
  intro above
  rcases isAbove_plant wf above with ⟨_, before⟩ | ⟨_, behind⟩
  · obtain ⟨y, owned⟩ := owns_of_isAbove before
    obtain ⟨m, held⟩ := wf.stored_of_owner? owned
    rw [get?_next] at held
    cases held
  · have old := index_lt_of_get? stored
    exact Nat.lt_asymm behind old

end Arena

end AlgebraEditor
