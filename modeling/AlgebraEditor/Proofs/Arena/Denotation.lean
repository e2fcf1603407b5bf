import AlgebraEditor.Arena.Reading
import AlgebraEditor.Proofs.Arena.Ownership
import AlgebraEditor.Proofs.Term
import Mathlib.Data.Finset.Card

/-!
# Denotations

In a well-formed arena every stored element denotes a term, which `denote` gives without depth or
fault. Walks downwards end because there are fewer elements below a child than below its owner.
-/

namespace AlgebraEditor

/-- The term with the label of an element and with the given terms in its slots. -/
def Element.toTerm (f : Handle → Term) : Element → Term
  | symbol name => .symbol name
  | integer value => .integer value
  | negation inner => .negation (f inner)
  | fraction numerator denominator => .fraction (f numerator) (f denominator)
  | power base exponent => .power (f base) (f exponent)
  | product factors => .product (factors.map f)
  | sum terms => .sum (terms.map f)
  | root inner => .root (f inner)

namespace Element

variable {f g : Handle → Term}

@[simp] theorem kind_toTerm (e : Element) : (e.toTerm f).kind = e.kind := by cases e <;> rfl

@[simp] theorem children_toTerm (e : Element) : (e.toTerm f).children = e.children.map f := by
  cases e <;> rfl

theorem toTerm_congr {e : Element} (same : ∀ c ∈ e.children, f c = g c) :
    e.toTerm f = e.toTerm g := by
  cases e <;> simp_all [toTerm, children]

theorem toTerm_eq_negation {e : Element} {t : Term} :
    e.toTerm f = .negation t ↔ ∃ inner, e = .negation inner ∧ f inner = t := by
  cases e <;> simp [toTerm]

theorem toTerm_eq_product {e : Element} {ts : List Term} :
    e.toTerm f = .product ts ↔ ∃ factors, e = .product factors ∧ factors.map f = ts := by
  cases e <;> simp [toTerm]

theorem toTerm_eq_sum {e : Element} {ts : List Term} :
    e.toTerm f = .sum ts ↔ ∃ terms, e = .sum terms ∧ terms.map f = ts := by
  cases e <;> simp [toTerm]

/-- Elements with children make the same term if they are of one kind and have the same parts. -/
theorem toTerm_eq_iff {e e' : Element} (inner : e.kind.isLeaf = false) :
    e.toTerm f = e'.toTerm g ↔ e.kind = e'.kind ∧ e.children.map f = e'.children.map g := by
  constructor
  · intro same
    have kinds := congrArg Term.kind same
    have parts := congrArg Term.children same
    rw [kind_toTerm, kind_toTerm] at kinds
    rw [children_toTerm, children_toTerm] at parts
    exact ⟨kinds, parts⟩
  · rintro ⟨kinds, parts⟩
    cases e <;> cases e' <;> simp_all [kind, Kind.isLeaf, children, toTerm]

end Element

namespace Arena

/-- The term of an element, down to the given depth. -/
def denoteWithin (a : Arena) : Nat → Handle → Term
  | 0, _ => default
  | depth + 1, h =>
    match a.get? h with
    | some n => n.element.toTerm (denoteWithin a depth)
    | none => default

/-- The term that an element denotes. -/
def denote (a : Arena) (h : Handle) : Term := a.denoteWithin a.reach h

open Classical in
/-- The places of the elements below an element. -/
noncomputable def below (a : Arena) (h : Handle) : Finset Nat :=
  (Finset.range a.places.size).filter fun i => a.IsAbove h ⟨i⟩

variable {a b : Arena} {h p x : Handle} {n : Node}

theorem mem_below : x.index ∈ a.below h ↔ a.IsAbove h x := by
  simp only [below, Finset.mem_filter, Finset.mem_range, and_iff_right_iff_imp]
  intro above
  obtain ⟨n, stored⟩ := stored_of_isAbove above
  exact index_lt_of_get? stored

open Classical in
theorem card_below_lt_reach (a : Arena) (h : Handle) : (a.below h).card < a.reach := by
  have inside : a.below h ⊆ Finset.range a.places.size := Finset.filter_subset _ _
  have bound := Finset.card_le_card inside
  rw [Finset.card_range] at bound
  exact Nat.lt_succ_of_le bound

theorem content_eq_ok {c : Handle} :
    a.content = .ok c ↔ ∃ n, a.get? a.root = some n ∧ n.element = .root c := by
  simp only [content, bind_eq_ok, element_eq_ok]
  constructor
  · rintro ⟨e, ⟨n, stored, rfl⟩, read⟩
    cases shape : n.element <;> rw [shape] at read <;> cases read
    exact ⟨n, stored, shape⟩
  · rintro ⟨n, stored, shape⟩
    exact ⟨_, ⟨n, stored, shape⟩, rfl⟩

theorem mem_children_of_content {c : Handle} (content : a.content = .ok c)
    (stored : a.get? a.root = some n) : c ∈ n.element.children := by
  obtain ⟨m, found, wrapper⟩ := content_eq_ok.mp content
  cases stored.symm.trans found
  rw [wrapper]
  exact List.mem_singleton_self c

namespace WellFormed

/-! ### Going down -/

theorem card_below_lt (wf : a.WellFormed) (above : a.IsAbove h x) :
    (a.below x).card < (a.below h).card := by
  apply Finset.card_lt_card
  rw [Finset.ssubset_iff_of_subset]
  · exact ⟨x.index, mem_below.mpr above, fun member => wf.acyclic x (mem_below.mp member)⟩
  · intro i member
    exact mem_below.mpr (above.trans (mem_below (x := ⟨i⟩).mp member))

/-- What holds of an element whenever it holds of everything below it holds of all elements. -/
theorem induction (wf : a.WellFormed) {motive : Handle → Prop}
    (step : ∀ h n, a.get? h = some n → (∀ x, a.IsAbove h x → motive x) → motive h)
    (stored : a.get? h = some n) : motive h := by
  induction count : (a.below h).card using Nat.strong_induction_on generalizing h n with
  | _ count ih =>
    refine step h n stored fun x above => ?_
    obtain ⟨m, stored'⟩ := stored_of_isAbove above
    exact ih _ (count ▸ wf.card_below_lt above) stored' rfl

/-- What holds of an element and a depth whenever it holds of everything below and one depth less
holds of all elements, if the depth is enough for what is below. -/
theorem depth_induction (wf : a.WellFormed) {motive : Nat → Handle → Prop}
    (step : ∀ d h n, a.get? h = some n → (∀ x, a.IsAbove h x → motive d x) → motive (d + 1) h)
    (stored : a.get? h = some n) {d : Nat} (enough : (a.below h).card < d) : motive d h := by
  induction d generalizing h n with
  | zero => exact absurd enough (Nat.not_lt_zero _)
  | succ d ih =>
    refine step d h n stored fun x above => ?_
    obtain ⟨m, stored'⟩ := stored_of_isAbove above
    exact ih stored' ((wf.card_below_lt above).trans_le (Nat.le_of_lt_succ enough))

theorem isAbove_child (wf : a.WellFormed) (stored : a.get? h = some n)
    (member : x ∈ n.element.children) : a.IsAbove h x :=
  isAbove_of_owner? (wf.records stored x member)

theorem denoteWithin_eq (wf : a.WellFormed) (stored : a.get? h = some n) {d : Nat}
    (enough : (a.below h).card < d) : a.denoteWithin d h = a.denote h := by
  -- the depths on both sides are enough, and both go down by one
  refine wf.depth_induction (motive := fun d h => ∀ d', (a.below h).card < d' →
    a.denoteWithin d h = a.denoteWithin d' h) (fun d h n stored ih d' enough' => ?_) stored enough
    a.reach (a.card_below_lt_reach h)
  obtain ⟨d', rfl⟩ : ∃ k, d' = k + 1 := ⟨d' - 1, by omega⟩
  simp only [denoteWithin, stored]
  refine Element.toTerm_congr fun c member => ?_
  have above := wf.isAbove_child stored member
  have less := wf.card_below_lt above
  exact ih c above d' (by omega)

/-- The term of an element is made of the terms of its children. -/
theorem denote_eq (wf : a.WellFormed) (stored : a.get? h = some n) :
    a.denote h = n.element.toTerm a.denote := by
  rw [denote, reach, denoteWithin, stored]
  refine Element.toTerm_congr fun c member => ?_
  obtain ⟨m, stored'⟩ := wf.stored_of_mem_children stored member
  have less := wf.card_below_lt (wf.isAbove_child stored member)
  have bound := a.card_below_lt_reach h
  exact wf.denoteWithin_eq stored' (by rw [reach] at bound; omega)

/-- What holds all through the parts of an element holds all through the elements below it. -/
theorem all_inside (wf : a.WellFormed) {P : Term → Prop}
    (all : ∀ t ∈ (a.denote h).children, t.All P) (above : a.IsAbove h x) : (a.denote x).All P := by
  have part : ∀ {p y}, a.owner? y = some p → a.denote y ∈ (a.denote p).children := by
    intro p y owned
    obtain ⟨n, stored, member⟩ := wf.holds owned
    rw [wf.denote_eq stored, Element.children_toTerm]
    exact List.mem_map_of_mem member
  induction above with
  | single owned => exact all _ (part owned)
  | tail _ owned ih => exact ih.child (part owned)

/-- What holds all through an element holds all through the elements below it. -/
theorem all_below (wf : a.WellFormed) {P : Term → Prop} (all : (a.denote h).All P)
    (above : a.IsAbove h x) : (a.denote x).All P :=
  wf.all_inside (fun _ part => all.child part) above

/-! ### Reading -/

theorem not_isAbove_root (wf : a.WellFormed) : ¬ a.IsAbove h a.root := by
  intro above
  obtain ⟨p, owned, _⟩ := isAbove_iff.mp above
  rw [wf.owner?_root] at owned
  cases owned

theorem ne_root_of_mem_children (wf : a.WellFormed) (stored : a.get? h = some n)
    (member : x ∈ n.element.children) : x ≠ a.root :=
  wf.ne_root_of_owner? (wf.records stored x member)

theorem exists_content (wf : a.WellFormed) :
    ∃ c n, a.content = .ok c ∧ a.get? a.root = some n := by
  obtain ⟨c, stored⟩ := wf.wrapper
  exact ⟨c, _, content_eq_ok.mpr ⟨_, stored, rfl⟩, stored⟩

theorem stored_content (wf : a.WellFormed) {c : Handle} (content : a.content = .ok c) :
    ∃ n, a.get? c = some n := by
  obtain ⟨n, stored, _⟩ := content_eq_ok.mp content
  exact wf.stored_of_mem_children stored (mem_children_of_content content stored)

/-- Every stored element is read as what it denotes. -/
theorem readTerm_eq_ok (wf : a.WellFormed) (stored : a.get? h = some n) {d : Nat}
    (enough : (a.below h).card < d) : a.readTerm d h = .ok (a.denote h) := by
  refine wf.depth_induction (motive := fun d h => a.readTerm d h = .ok (a.denote h))
    (fun d h n stored ih => ?_) stored enough
  have read : ∀ c ∈ n.element.children, a.readTerm d c = .ok (a.denote c) :=
    fun c member => ih c (wf.isAbove_child stored member)
  rw [wf.denote_eq stored, readTerm, element_of_get? stored, ok_bind]
  cases shape : n.element with
  | symbol | integer => rfl
  | negation inner | root inner =>
    simp only [shape, Element.children, List.forall_mem_singleton] at read
    dsimp only
    rw [read]
    rfl
  | fraction first second | power first second =>
    simp only [shape, Element.children, List.forall_mem_cons] at read
    dsimp only
    rw [read.1, read.2.1]
    rfl
  | product children | sum children =>
    simp only [shape, Element.children] at read
    dsimp only
    rw [mapM_eq_map read]
    rfl

theorem term_eq_ok (wf : a.WellFormed) (stored : a.get? h = some n) :
    a.term h = .ok (a.denote h) :=
  wf.readTerm_eq_ok stored (a.card_below_lt_reach h)

/-! ### Comparing -/

theorem all_zip_eq {xs ys : List Handle} (f g : Handle → Term) (lengths : xs.length = ys.length) :
    ((xs.zip ys).all fun (x, y) => decide (f x = g y)) = decide (xs.map f = ys.map g) := by
  induction xs generalizing ys with
  | nil =>
    cases ys with
    | nil => rfl
    | cons y ys => cases lengths
  | cons x xs ih =>
    cases ys with
    | nil => cases lengths
    | cons y ys => simp [ih (Nat.succ.inj lengths)]

theorem equalWithin_eq_ok (wf : a.WellFormed) (wf' : b.WellFormed) {m : Node}
    (stored : a.get? x = some n) (stored' : b.get? p = some m) {d : Nat}
    (enough : (a.below x).card < d) :
    a.equalWithin b d x p = .ok (decide (a.denote x = b.denote p)) := by
  refine wf.depth_induction (motive := fun d x => ∀ {p m}, b.get? p = some m →
    a.equalWithin b d x p = .ok (decide (a.denote x = b.denote p)))
    (fun d x n stored ih p m stored' => ?_) stored enough stored'
  rw [wf.denote_eq stored, wf'.denote_eq stored', equalWithin, element_of_get? stored, ok_bind,
    element_of_get? stored', ok_bind]
  have parts : n.element.children.length = m.element.children.length →
      (n.element.children.zip m.element.children).allM
          (fun (c, d') => a.equalWithin b d c d') =
        .ok (decide (n.element.children.map a.denote = m.element.children.map b.denote)) := by
    intro lengths
    rw [← all_zip_eq _ _ lengths]
    refine allM_eq_all fun pair member => ?_
    obtain ⟨left, right⟩ := List.of_mem_zip (a := pair.1) (b := pair.2) member
    obtain ⟨k, held⟩ := wf'.stored_of_mem_children stored' right
    exact ih _ (wf.isAbove_child stored left) held
  split
  · rename_i shape shape'
    refine congrArg Except.ok (Bool.eq_iff_iff.mpr ?_)
    simp [shape, shape', Element.toTerm]
  · rename_i shape shape'
    refine congrArg Except.ok (Bool.eq_iff_iff.mpr ?_)
    simp [shape, shape', Element.toTerm]
  · rename_i notSymbols notIntegers
    split
    · rename_i same
      have inner : n.element.kind.isLeaf = false := by
        cases shape : n.element with
        | symbol | integer => cases shape' : m.element <;> simp_all [Element.kind]
        | _ => rfl
      rw [parts same.2]
      simp [Element.toTerm_eq_iff inner, same.1]
    · rename_i other
      have different : n.element.toTerm a.denote ≠ m.element.toTerm b.denote := by
        intro same
        refine other ⟨by simpa using congrArg Term.kind same, ?_⟩
        simpa using congrArg (fun t => t.children.length) same
      simp [different, pure, Except.pure]

theorem equalAcross_eq_ok (wf : a.WellFormed) (wf' : b.WellFormed) {m : Node}
    (stored : a.get? x = some n) (stored' : b.get? p = some m) :
    ∃ same, a.equalAcross b x p = .ok same ∧ (same = true ↔ a.denote x = b.denote p) := by
  have bound := a.card_below_lt_reach x
  exact ⟨_, wf.equalWithin_eq_ok wf' stored stored' (by omega), decide_eq_true_iff⟩

theorem equal_eq_ok (wf : a.WellFormed) {m : Node} (stored : a.get? x = some n)
    (stored' : a.get? p = some m) :
    ∃ same, a.equal x p = .ok same ∧ (same = true ↔ a.denote x = a.denote p) :=
  wf.equalAcross_eq_ok wf stored stored'

/-! ### Frames -/

/-- What an element denotes depends on the elements at and below it, and on nothing else. -/
theorem denote_congr (wf : a.WellFormed) (wf' : b.WellFormed) (stored : a.get? h = some n)
    (same : ∀ x m, x = h ∨ a.IsAbove h x → a.get? x = some m →
      ∃ m', b.get? x = some m' ∧ m'.element = m.element) :
    b.denote h = a.denote h := by
  revert same
  refine wf.induction (motive := fun h => (∀ x m, x = h ∨ a.IsAbove h x → a.get? x = some m →
      ∃ m', b.get? x = some m' ∧ m'.element = m.element) → b.denote h = a.denote h)
    (fun h n stored ih same => ?_) stored
  obtain ⟨m, stored', element⟩ := same h n (.inl rfl) stored
  rw [wf.denote_eq stored, wf'.denote_eq stored', element]
  refine Element.toTerm_congr fun c member => ?_
  have above := wf.isAbove_child stored member
  refine ih c above fun x m inside held => same x m (.inr ?_) held
  rcases inside with rfl | deeper
  · exact above
  · exact above.trans deeper

end WellFormed

theorem kind_denote (wf : a.WellFormed) (stored : a.get? h = some n) :
    (a.denote h).kind = n.element.kind := by
  rw [wf.denote_eq stored, Element.kind_toTerm]

end Arena

end AlgebraEditor
