import AlgebraEditor.Proofs.Law.Basic

/-!
# Filled lists

A list that is owned has two children or more. Edits leave a list short only while they take it
apart, so an arena is filled but for the lists of a set.
-/

namespace AlgebraEditor

/-- A list has two children or more. -/
def Element.Filled (e : Element) : Prop := e.kind.isList = true → 2 ≤ e.children.length

theorem Element.Filled.replaceChild {e : Element} (filled : e.Filled) (old new : Handle) :
    (e.replaceChild old new).Filled := by
  intro isList
  rw [Element.kind_replaceChild] at isList
  rw [Element.children_replaceChild, List.length_replace]
  exact filled isList

namespace Term

/-- A list has two terms or more. -/
def Filled (t : Term) : Prop := t.kind.isList = true → 2 ≤ t.children.length

instance : DecidablePred Filled := fun t =>
  inferInstanceAs (Decidable (t.kind.isList = true → 2 ≤ t.children.length))

theorem permits_filled : Permits Filled where
  integer _ := nofun
  negation _ := nofun
  product _ long := fun _ => long
  sum _ long := fun _ => long

variable {start : Nat} {parent : Option Handle} {t : Term} {h : Handle} {n : Node}

theorem length_heads (start : Nat) (ts : List Term) : (heads start ts).length = ts.length := by
  induction ts generalizing start with
  | nil => rfl
  | cons t ts ih => rw [heads, List.length_cons, List.length_cons, ih]

theorem filled_top (filled : t.Filled) (start : Nat) : (t.top start).Filled := by
  intro isList
  rw [kind_top] at isList
  rw [children_top, length_heads]
  exact filled isList

theorem Laid.filled (laid : Laid start parent t h n) (all : t.All Filled) : n.element.Filled := by
  induction laid with
  | top start parent t => exact filled_top all.self start
  | inside _ same _ ih => exact ih (all.child (by rw [same]; simp))

end Term

namespace Arena

open Term

variable {a b : Arena} {c h p x old new : Handle} {e : Element} {n m : Node} {t : Term}
  {ts : List Term} {xs : List Handle} {broken others : Set Handle}

/-- Owned lists outside `broken` are filled. -/
def Filled (a : Arena) (broken : Set Handle) : Prop :=
  ∀ ⦃h p n⦄, a.owner? h = some p → a.get? h = some n → h ∉ broken → n.element.Filled

theorem WellFormed.throughout_filled (wf : a.WellFormed) (filled : a.Filled ∅) :
    a.Throughout Term.Filled := by
  intro x p owned
  obtain ⟨n, stored⟩ := Arena.stored_of_owner? owned
  refine wf.all_denote stored fun y m below held => ?_
  have owned' : ∃ q, a.owner? y = some q := by
    rcases below with rfl | above
    · exact ⟨p, owned⟩
    · obtain ⟨q, owned, _⟩ := isAbove_iff.mp above
      exact ⟨q, owned⟩
  obtain ⟨q, owned'⟩ := owned'
  intro isList
  rw [Element.kind_toTerm] at isList
  rw [Element.children_toTerm, List.length_map]
  exact filled owned' held (Set.notMem_empty y) isList

theorem WellFormed.filled_of_denote (wf : a.WellFormed) (stored : a.get? h = some n)
    (full : (a.denote h).Filled) : n.element.Filled := by
  intro isList
  rw [wf.denote_eq stored] at full
  have long := full (by rwa [Element.kind_toTerm])
  rwa [Element.children_toTerm, List.length_map] at long

theorem Adds.filled_top (adds : a.Adds ts xs b) (all : ∀ t ∈ ts, t.All Term.Filled) (top : x ∈ xs)
    (stored : b.get? x = some n) : n.element.Filled := by
  refine adds.wf.filled_of_denote stored (all _ ?_).self
  rw [← adds.denotes]
  exact List.mem_map_of_mem top

namespace Filled

/-- A list that nothing owns may be short. -/
theorem unowned (filled : a.Filled (insert h broken)) (free : a.owner? h = none) :
    a.Filled broken := by
  intro x p n owned stored outside
  refine filled owned stored fun inside => ?_
  rcases Set.mem_insert_iff.mp inside with rfl | inside
  · rw [free] at owned
    cases owned
  · exact outside inside

theorem plant (filled : a.Filled broken) (all : t.All Term.Filled) : (a.plant t).Filled broken := by
  intro h p n owned found outside
  rcases get?_plant.mp found with stored | laid
  · rw [owner?_plant_of_stored stored] at owned
    exact filled owned stored outside
  · exact laid.filled all

/-- What is added is filled if the terms are. -/
theorem adds (filled : a.Filled broken) (wf : a.WellFormed) (adds : a.Adds ts xs b)
    (all : ∀ t ∈ ts, t.All Term.Filled) : b.Filled broken := by
  intro h p n owned found outside
  by_cases before : h.index < a.places.size
  · rw [adds.old h before] at found
    rw [adds.owner?_eq found] at owned
    exact filled owned found outside
  · obtain ⟨x, top, rfl | above⟩ := adds.exists_top wf (Nat.le_of_not_lt before) found
    · exact adds.filled_top all top found
    · have full : (b.denote x).All Term.Filled := all _ (by
        rw [← adds.denotes]
        exact List.mem_map_of_mem top)
      exact adds.wf.filled_of_denote found (adds.wf.all_below full above).self

/-- Rewiring fills or breaks the container alone, as long as what it takes up is filled. -/
theorem rewire (filled : a.Filled broken) (wf : a.WellFormed) (fits : a.Rewirable c e)
    (new : ∀ x ∈ e.children, a.owner? x = none → ∀ n, a.get? x = some n → n.element.Filled)
    (apart : ∀ x, x ∉ others → x ≠ c → x ∉ broken)
    (self : ∀ p, a.owner? c = some p → c ∉ others → e.Filled) : (a.rewire c e).Filled others := by
  intro h p n owned found outside
  obtain ⟨m, stored, rfl⟩ := get?_rewire_eq_some.mp found
  by_cases same : h = c
  · subst same
    rw [element_rewired_self]
    rcases owner?_rewire_eq_some owned with ⟨inside, _⟩ | ⟨_, _, owned⟩
    · exact absurd inside (fits.self_not_mem wf)
    · exact self p owned outside
  · rw [element_rewired_of_ne same]
    rcases owner?_rewire_eq_some owned with ⟨inside, _⟩ | ⟨_, _, owned⟩
    · rcases fits.owner?_of_mem inside with owned | free
      · exact filled owned stored (apart h outside same)
      · exact new h inside free m stored
    · exact filled owned stored (apart h outside same)

theorem replaced (filled : a.Filled broken) (wf : a.WellFormed) (stored : a.get? c = some n)
    (member : old ∈ n.element.children) (fits : a.Attachable c new) (held : a.get? new = some m)
    (full : m.element.Filled) : (a.rewire c (n.element.replaceChild old new)).Filled broken := by
  refine filled.rewire wf (Edit.rewirable_replace wf stored member fits) (fun x inside free => ?_)
    (fun _ outside _ => outside) fun p owned outside =>
      (filled owned stored outside).replaceChild old new
  intro k found
  rcases (Element.mem_replaceChild new (wf.distinct stored) member).mp inside with rfl | ⟨inside, _⟩
  · cases held.symm.trans found
    exact full
  · rw [wf.records stored x inside] at free
    cases free

theorem adds_replaced (filled : a.Filled broken) (wf : a.WellFormed) (adds : a.Adds ts xs b)
    (all : ∀ t ∈ ts, t.All Term.Filled) (stored : a.get? c = some n)
    (member : old ∈ n.element.children) (top : x ∈ xs) :
    (b.rewire c (n.element.replaceChild old x)).Filled broken := by
  obtain ⟨m, held, _⟩ := adds.top_stored top
  exact (filled.adds wf adds all).replaced adds.wf (adds.stored stored) member
    (adds.attachable wf stored top) held (adds.filled_top all top held)

theorem plant_replaced (filled : a.Filled broken) (wf : a.WellFormed) (stored : a.get? c = some n)
    (member : old ∈ n.element.children) (unwrapped : t.Unwrapped) (all : t.All Term.Filled) :
    ((a.plant t).rewire c (n.element.replaceChild old a.next)).Filled broken :=
  (filled.plant all).replaced (wf.plant unwrapped) (get?_plant_of_stored stored t) member
    (Edit.attachable_plant wf stored) get?_plant_next (filled_top all.self _)

/-- What a sign adds are a leaf and a negation. -/
theorem signed (filled : a.Filled ∅) (wf : a.WellFormed) (stored : a.get? p = some n)
    (member : h ∈ n.element.children) : (a.signed p n.element h).Filled ∅ := by
  intro x q k owned found _
  cases old : a.get? x with
  | some m =>
    have owned' : ∃ q, a.owner? x = some q := by
      by_cases same : x = h
      · subst same
        exact ⟨p, wf.records stored x member⟩
      · rw [owner?_signed wf stored old member same] at owned
        exact ⟨q, owned⟩
    obtain ⟨q, owned'⟩ := owned'
    obtain ⟨k', held, element⟩ := get?_signed (p := p) (h := h) (e := n.element) old
    cases held.symm.trans found
    rw [element]
    by_cases same : x = p
    · subst same
      cases old.symm.trans stored
      rw [if_pos rfl]
      exact (filled owned' stored (Set.notMem_empty x)).replaceChild h _
    · rw [if_neg same]
      exact filled owned' old (Set.notMem_empty x)
  | none =>
    have other : x ≠ p := by
      rintro rfl
      rw [stored] at old
      cases old
    obtain ⟨k₁, found₁, rfl⟩ := get?_rewire_eq_some.mp found
    obtain ⟨k₂, found₂, rfl⟩ := get?_rewire_eq_some.mp found₁
    rw [element_rewired_of_ne other]
    by_cases new : x = (a.plant (.integer 0)).next
    · subst new
      rw [element_rewired_self]
      nofun
    rw [element_rewired_of_ne new]
    rcases get?_plant.mp found₂ with found₂ | laid
    · obtain ⟨k₃, found₃, rfl⟩ := get?_rewire_eq_some.mp found₂
      rw [element_rewired_of_ne other]
      rcases get?_plant.mp found₃ with found₃ | laid
      · rw [old] at found₃
        cases found₃
      · exact laid.filled (permits_filled.all_integer 0)
    · exact laid.filled (permits_filled.all_integer 0)

end Filled

theorem filled_zero : zero.Filled ∅ := by
  intro h p n owned stored _
  rcases get?_zero.mp stored with ⟨_, rfl⟩ | ⟨_, rfl⟩ <;> nofun

end Arena

namespace Edit

open Arena

variable {a b : Arena} {c list owner old new r : Handle} {n m : Node} {u : Unit} {xs rest : List Handle}

/-- The list is short only until nothing owns it any more. -/
theorem normalized_filled (wf : a.WellFormed) (filled : a.Filled ∅) (stored : a.get? list = some n)
    (isList : n.element.kind.isList = true) (held : a.get? owner = some m)
    (member : list ∈ m.element.children) (part : rest.Sublist n.element.children)
    (normalized : Normalized a list n.element owner m.element rest r b) : b.Filled ∅ := by
  have different : owner ≠ list := Ne.symm (wf.irrefl (wf.records held list member))
  have rewirable := rewirable_sublist wf stored isList (List.nil_sublist _)
  have emptied : (a.rewire list (n.element.modifyList fun _ => [])).Filled {list} := by
    refine filled.rewire wf rewirable (fun x inside => ?_) (fun _ _ _ => Set.notMem_empty _)
      fun _ _ outside => absurd rfl outside
    rw [Element.children_modifyList _ isList] at inside
    cases inside
  have wf' := wf.rewire stored rewirable
  have held' := get?_rewire_of_stored (c := list) (e := n.element.modifyList fun _ => []) held
  have element := element_rewired_of_ne different (n.element.modifyList fun _ => []) m
  match rest with
  | [] =>
    obtain ⟨value, _, _, rfl⟩ := normalized
    rw [← element] at member
    have zero := Term.unwrapped_integer value
    have replaced := emptied.plant_replaced wf' held' member zero
      (Term.permits_filled.all_integer value)
    have free := owner?_replaced (wf'.plant zero) (get?_plant_of_stored held' _) member
      (attachable_plant wf' held')
    rw [element, next_rewire] at replaced free
    exact Filled.unowned (by rwa [insert_empty_eq]) free
  | [only] =>
    obtain ⟨_, rfl⟩ := normalized
    have listed : only ∈ n.element.children := part.subset List.mem_cons_self
    have fits := attachable_emptied wf stored isList listed held member
    obtain ⟨k, found⟩ := wf.stored_of_mem_children stored listed
    have full := filled (wf.records stored only listed) found (Set.notMem_empty only)
    rw [← element] at member
    have other : only ≠ list := wf.irrefl (wf.records stored only listed)
    rw [← element_rewired_of_ne other (n.element.modifyList fun _ => []) k] at full
    have replaced := emptied.replaced wf' held' member fits (get?_rewire_of_stored found) full
    have free := owner?_replaced wf' held' member fits
    rw [element] at replaced free
    exact Filled.unowned (by rwa [insert_empty_eq]) free
  | x :: y :: rest =>
    obtain ⟨_, rfl⟩ := normalized
    refine filled.rewire wf (rewirable_sublist wf stored isList part) (fun z inside free => ?_)
      (fun _ _ _ => Set.notMem_empty _) fun _ _ _ _ => ?_
    · rw [Element.children_modifyList _ isList] at inside
      rw [wf.records stored z (part.subset inside)] at free
      cases free
    · rw [Element.children_modifyList _ isList]
      simp

end Edit

end AlgebraEditor
