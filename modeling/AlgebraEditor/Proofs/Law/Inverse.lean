import AlgebraEditor.Law.Inverse
import AlgebraEditor.Proofs.Law.Basic
import Mathlib.Tactic.Ring

/-!
# Signs and inverses

A sign that moves changes the sign of what it moves across, and of nothing else. Terms that cancel
out are worth nothing together.
-/

namespace AlgebraEditor

namespace Law

open Arena

variable {a b : Arena} {h p x y : Handle} {hs : List Handle} {n m : Node} {r : Option (List Handle)}

/-! ### Cancelling -/

/-- An element is the negation of an equal of another one. -/
def Negates (a : Arena) (x y : Handle) : Prop :=
  ∃ n inner, a.get? x = some n ∧ n.element = .negation inner ∧ a.denote inner = a.denote y

/-- One of two elements is the negation of an equal of the other. -/
def Opposite (a : Arena) (x y : Handle) : Prop := Negates a x y ∨ Negates a y x

theorem Opposite.symm (opposite : Opposite a x y) : Opposite a y x := Or.symm opposite

theorem negates_total (wf : a.WellFormed) (stored : a.get? x = some n) (stored' : a.get? y = some m) :
    ∃ found, negates a x y = .ok found ∧ (found = true ↔ Negates a x y) := by
  unfold negates
  rw [negated?_of_get? stored, ok_bind]
  cases shape : n.element with
  | negation inner =>
    obtain ⟨k, held⟩ := wf.stored_children stored inner (by rw [shape]; exact List.mem_singleton_self _)
    obtain ⟨same, compared, equal⟩ := wf.equal_eq_ok held stored'
    refine ⟨same, compared, equal.trans ⟨fun found => ⟨n, inner, stored, shape, found⟩, ?_⟩⟩
    rintro ⟨n', inner', held', shape', found⟩
    cases stored.symm.trans held'
    cases shape.symm.trans shape'
    exact found
  | _ =>
    refine ⟨false, rfl, nofun, ?_⟩
    rintro ⟨n', inner, held, shape', _⟩
    cases stored.symm.trans held
    cases shape.symm.trans shape'

theorem areOpposite_total (wf : a.WellFormed) (stored : a.get? x = some n)
    (stored' : a.get? y = some m) :
    ∃ found, areOpposite a x y = .ok found ∧ (found = true ↔ Opposite a x y) := by
  obtain ⟨one, read, holds⟩ := negates_total wf stored stored'
  obtain ⟨other, read', holds'⟩ := negates_total wf stored' stored
  unfold areOpposite
  rw [read, ok_bind]
  cases one with
  | true => exact ⟨true, rfl, fun _ => .inl (holds.mp rfl), fun _ => rfl⟩
  | false =>
    refine ⟨other, read', fun found => .inr (holds'.mp found), fun opposite => ?_⟩
    exact opposite.elim (fun negates => nomatch holds.mpr negates) holds'.mpr

/-- Cancelling does nothing, or removes two opposite terms of a sum. -/
theorem run_cancel_eq_ok (run : (cancel p hs).run a = .ok r b) : (r = none ∧ b = a) ∨
    ∃ n x y s, a.get? p = some n ∧ n.element.kind = .sum ∧ hs = [x, y] ∧
      areOpposite a x y = .ok true ∧ (Edit.removeChildren p [x, y]).run a = .ok s b ∧
      r = some (lowestNeighbor? n.element.children [x, y]).toList := by
  unfold cancel at run
  match hs with
  | [] | [_] | _ :: _ :: _ :: _ => exact .inl ⟨by cases run; rfl, by cases run; rfl⟩
  | [x, y] =>
    dsimp only at run
    rw [Edit.kindOf, Edit.run_inspect_bind] at run
    obtain ⟨_, read, run⟩ := run
    obtain ⟨n, stored, rfl⟩ := kind_eq_ok.mp read
    split at run
    · exact .inl ⟨by cases run; rfl, by cases run; rfl⟩
    rename_i kind
    rw [Edit.parentOf, Edit.run_inspect_bind] at run
    obtain ⟨owner, _, run⟩ := run
    split at run
    · exact .inl ⟨by cases run; rfl, by cases run; rfl⟩
    rw [Edit.run_inspect_bind] at run
    obtain ⟨opposite, compared, run⟩ := run
    cases opposite with
    | false => exact .inl ⟨by cases run; rfl, by cases run; rfl⟩
    | true =>
      simp only [Bool.not_true, Bool.false_eq_true, if_false] at run
      rw [Edit.childrenOf, Edit.run_inspect_bind] at run
      obtain ⟨_, listed, run⟩ := run
      rw [children_of_get? stored] at listed
      cases listed
      obtain ⟨s, _, removed, run⟩ := Edit.run_bind_eq_ok.mp run
      cases run
      exact .inr ⟨n, x, y, s, stored, not_not.mp kind, rfl, compared, removed, rfl⟩

/-! ### Moving signs -/

/-- Moving a sign to the front does nothing, or leaves the negated factor to a copy of what it
negates and negates the product. -/
theorem run_minusToFront (wf : a.WellFormed) (stored : a.get? h = some n) :
    ((minusToFront h).run a = .ok none a ∧ (a.owner? h = none ∨ n.element.kind ≠ .product ∨
      firstOfKind? a .negation n.element.children = .ok none)) ∨
    ∃ p m factor k inner x d, a.owner? h = some p ∧ a.get? p = some m ∧ n.element.kind = .product ∧
      firstOfKind? a .negation n.element.children = .ok (some factor) ∧
      factor ∈ n.element.children ∧ a.get? factor = some k ∧ k.element = .negation inner ∧
      a.Adds [a.denote inner] [x] d ∧ (minusToFront h).run a =
        .ok (some [((d.rewire h (n.element.replaceChild factor x)).plant (.integer 0)).next])
          ((d.rewire h (n.element.replaceChild factor x)).signed p m.element h) := by
  unfold minusToFront
  rw [Edit.parentOf, Edit.run_bind_of_ok (Edit.run_inspect_of_ok (parent_of_get? stored))]
  cases owned : a.owner? h with
  | none => exact .inl ⟨rfl, .inl rfl⟩
  | some p =>
    obtain ⟨m, held⟩ := wf.stored_of_owner? owned
    have inside := (wf.mem_children_iff held).mpr owned
    dsimp only
    rw [Edit.kindOf, Edit.run_bind_of_ok (Edit.run_inspect_of_ok (kind_of_get? stored))]
    by_cases kind : n.element.kind = .product
    · rw [if_neg (not_not.mpr kind), Edit.childrenOf,
        Edit.run_bind_of_ok (Edit.run_inspect_of_ok (children_of_get? stored))]
      obtain ⟨found, read, holds⟩ := firstOfKind?_total wf .negation (wf.stored_children stored)
      rw [Edit.run_bind_of_ok (Edit.run_inspect_of_ok read)]
      cases found with
      | none => exact .inl ⟨rfl, .inr (.inr read)⟩
      | some factor =>
        obtain ⟨member, k, held', negation⟩ := holds factor rfl
        obtain ⟨inner, shape⟩ := Element.kind_eq_negation.mp negation
        have owned' := wf.records held' inner (by rw [shape]; exact List.mem_singleton_self inner)
        obtain ⟨x, d, copied, adds⟩ := wf.builds_copy_of_owner? owned' a (.refl a) wf
        have top := List.mem_singleton_self x
        have replaced := adds.run_replace wf stored member top
        have rewirable := adds.rewirable wf stored member top
        have different : p ≠ h := Ne.symm (wf.irrefl owned)
        have element := element_rewired_of_ne different (n.element.replaceChild factor x) m
        obtain ⟨signed, _⟩ := Edit.run_replaceWith_negation (p := p) (h := h)
          (adds.wf.rewire (adds.stored stored) rewirable)
          (get?_rewire_of_stored (adds.stored held)) (by rwa [element])
        rw [element] at signed
        refine .inr ⟨p, m, factor, k, inner, x, d, rfl, held, kind, read, member, held', shape, adds, ?_⟩
        dsimp only
        rw [Edit.negatedOf, Edit.run_bind_of_ok (Edit.run_inspect_of_ok (negated?_of_get? held')), shape]
        dsimp only [Element.negated?]
        rw [Edit.run_bind_of_ok copied, Edit.run_bind_of_ok replaced, Edit.run_bind_of_ok signed]
        rfl
    · rw [if_pos kind]
      exact .inl ⟨rfl, .inr (.inl kind)⟩

/-- Moving a sign inside does nothing, or negates the first factor and leaves the place of the
negation to a copy of the product. It fails on a product without factors. -/
theorem run_minusInside (wf : a.WellFormed) (stored : a.get? h = some n) :
    ((minusInside h).run a = .ok none a ∧ (a.owner? h = none ∨
      ∀ product k, n.element = .negation product → a.get? product = some k →
        k.element.kind ≠ .product)) ∨
    ∃ p m product k, a.owner? h = some p ∧ a.get? p = some m ∧ n.element = .negation product ∧
      a.get? product = some k ∧ k.element.kind = .product ∧
      ((k.element.children = [] ∧ ∀ r b, (minusInside h).run a ≠ .ok r b) ∨
        ∃ first rest x d, k.element.children = first :: rest ∧
          (a.signed product k.element first).Adds
            [(a.signed product k.element first).denote product] [x] d ∧
          (minusInside h).run a =
            .ok (some [x]) (d.rewire p (m.element.replaceChild h x))) := by
  unfold minusInside
  rw [Edit.parentOf, Edit.run_bind_of_ok (Edit.run_inspect_of_ok (parent_of_get? stored))]
  cases owned : a.owner? h with
  | none => exact .inl ⟨rfl, .inl rfl⟩
  | some p =>
    obtain ⟨m, held⟩ := wf.stored_of_owner? owned
    dsimp only
    rw [Edit.negatedOf, Edit.run_bind_of_ok (Edit.run_inspect_of_ok (negated?_of_get? stored))]
    cases shape : n.element with
    | negation product =>
      have owned' := wf.records stored product (by rw [shape]; exact List.mem_singleton_self product)
      obtain ⟨k, held'⟩ := wf.stored_children stored product (by rw [shape]; exact List.mem_singleton_self _)
      dsimp only [Element.negated?]
      rw [Edit.kindOf, Edit.run_bind_of_ok (Edit.run_inspect_of_ok (kind_of_get? held'))]
      by_cases kind : k.element.kind = .product
      · rw [if_neg (not_not.mpr kind), Edit.childrenOf,
          Edit.run_bind_of_ok (Edit.run_inspect_of_ok (children_of_get? held'))]
        refine .inr ⟨p, m, product, k, rfl, held, rfl, held', kind, ?_⟩
        cases children : k.element.children with
        | nil => exact .inl ⟨rfl, fun _ _ same => by cases same⟩
        | cons first rest =>
          have member : first ∈ k.element.children := by rw [children]; exact List.mem_cons_self
          obtain ⟨signed, wf'⟩ := Edit.run_replaceWith_negation wf held' member
          obtain ⟨kept, m', held'', element, inside'⟩ := around_signed wf owned held owned' held' member
          obtain ⟨x, d, copied, adds⟩ := wf'.builds_copy_of_owner? kept _ (.refl _) wf'
          have replaced := adds.run_replace wf' held'' inside' (List.mem_singleton_self x)
          rw [element] at replaced
          refine .inr ⟨first, rest, x, d, rfl, adds, ?_⟩
          dsimp only [List.head?]
          rw [Edit.run_bind_of_ok signed, Edit.run_bind_of_ok copied, Edit.run_bind_of_ok replaced]
          rfl
      · rw [if_pos kind]
        refine .inl ⟨rfl, .inr fun product' k' same found => ?_⟩
        cases same
        cases held'.symm.trans found
        exact kind
    | _ => exact .inl ⟨rfl, .inr fun _ _ same => by cases same⟩

/-! ### Values -/

section Value

variable {R : Type*} [CommRing R] (I : Interpretation R)

theorem Negates.value_eq (negates : Negates a x y) (wf : a.WellFormed) :
    a.value I x = -a.value I y := by
  obtain ⟨n, inner, stored, shape, same⟩ := negates
  rw [wf.value_eq I stored, shape, Element.value, value, same]
  rfl

/-- A product with a factor negated is worth the product negated. -/
theorem value_negated_factor (v : Handle → R) {e : Element} (product : e.kind = .product)
    (nodup : e.children.Nodup) (member : x ∈ e.children) :
    e.value I (Function.update v x (-v x)) = -e.value I v := by
  cases e with
  | product factors =>
    have member : x ∈ factors := member
    have nodup : factors.Nodup := nodup
    have whole := List.perm_cons_erase member
    have others : (factors.erase x).map (Function.update v x (-v x)) = (factors.erase x).map v := by
      apply List.map_congr_left
      intro y inside
      exact Function.update_of_ne (nodup.mem_erase_iff.mp inside).1 _ _
    rw [Element.value, Element.value, (whole.map _).prod_eq, (whole.map v).prod_eq, List.map_cons,
      List.map_cons, List.prod_cons, List.prod_cons, others, Function.update_self]
    ring
  | _ => cases product

theorem cancel_sameValue (wf : a.WellFormed) (stored : ∀ h ∈ hs, ∃ n, a.get? h = some n)
    (run : (cancel p hs).run a = .ok r b) : SameValue I a b := by
  rcases run_cancel_eq_ok run with ⟨_, rfl⟩ | ⟨n, x, y, s, held, sum, rfl, compared, removed, _⟩
  · exact .refl wf
  obtain ⟨k, first⟩ := stored x List.mem_cons_self
  obtain ⟨k', second⟩ := stored y (List.mem_cons_of_mem _ List.mem_cons_self)
  obtain ⟨_, read, opposite⟩ := areOpposite_total wf first second
  cases compared.symm.trans read
  have nothing : ([x, y].map (a.value I)).sum = 0 := by
    rcases opposite.mp rfl with negates | negates
    · simp [negates.value_eq I wf]
    · simp [negates.value_eq I wf]
  obtain ⟨_, _, _, held', _, _, _, distinct, inside, _⟩ := (Edit.run_removeChildren_eq_ok wf).mp removed
  cases held.symm.trans held'
  refine Edit.removeChildren_sameValue (.refl wf) rfl held
    (fun h n stored _ => wf.value_eq I stored) ?_ removed
  obtain ⟨terms, shape⟩ := Element.kind_eq_sum.mp sum
  have nodup := wf.distinct held
  rw [shape, Element.children] at nodup inside
  have parts := (perm_append_filter nodup distinct inside).map (a.value I)
  rw [wf.value_eq I held, shape, Element.value, parts.sum_eq, List.map_append, List.sum_append,
    nothing, zero_add]
  rfl

theorem minusToFront_sameValue (wf : a.WellFormed) (stored : a.get? h = some n)
    (run : (minusToFront h).run a = .ok r b) : SameValue I a b := by
  rcases run_minusToFront wf stored with
    ⟨same, _⟩ | ⟨p, m, factor, k, inner, x, d, owned, held, kind, _, member, held', shape, adds, same⟩
  · cases same.symm.trans run
    exact .refl wf
  cases same.symm.trans run
  have different : p ≠ h := Ne.symm (wf.irrefl owned)
  obtain ⟨v, added, old, new⟩ := (wf.solves I).adds wf adds
  have stored₁ := adds.stored stored
  have rewirable := adds.rewirable wf stored member (List.mem_singleton_self x)
  have wf₂ := adds.wf.rewire stored₁ rewirable
  have stored₂ := get?_rewire_of_stored (c := h) (e := n.element.replaceChild factor x) stored₁
  have held₂ := get?_rewire_of_stored (c := h) (e := n.element.replaceChild factor x)
    (adds.stored held)
  have element := element_rewired_of_ne different (n.element.replaceChild factor x) m
  have inside : h ∈ (m.rewired h (n.element.replaceChild factor x) p).element.children := by
    rw [element]
    exact (wf.mem_children_iff held).mpr owned
  have copied : v x = -v factor := by
    rw [List.singleton_inj.mp new, old factor k held', wf.value_eq I held', shape, Element.value,
      neg_neg]
    rfl
  have lost : (n.element.replaceChild factor x).value I v = -v h := by
    rw [added h n stored₁ (Set.notMem_empty h), ← value_negated_factor I v kind (wf.distinct stored) member]
    refine Element.value_replaceChild I (wf.distinct stored) (fun x _ other => ?_) ?_
    · exact (Function.update_of_ne other _ _).symm
    · rw [copied, Function.update_self]
  have product : (d.rewire h (n.element.replaceChild factor x)).Solves I v {h} :=
    added.rewire (fun _ _ _ => id) fun outside => absurd rfl outside
  obtain ⟨w, solved, kept⟩ := product.restored wf₂ stored₂ (by rwa [element_rewired_self]) held₂ inside
  have evolves := (adds.evolves.rewire stored₁ rewirable).signed held₂ inside
  rw [element] at solved evolves
  obtain ⟨top, stored₀⟩ := wf.wrapper
  have notRoot : a.root ≠ h := Ne.symm (wf.ne_root_of_owner? owned)
  have held₀ := get?_rewire_of_stored (c := h) (e := n.element.replaceChild factor x)
    (adds.stored stored₀)
  refine .of_solves evolves solved (fun x none => absurd none (Set.notMem_empty x)) ?_
  rw [evolves.root, kept a.root _ held₀ notRoot, old _ _ stored₀]

/-- When a factor is negated, its product takes on the other sign, and only the container of the
product does not evaluate to what its children make any more. -/
theorem exists_solves_negated_factor (wf : a.WellFormed) (owned : a.owner? y = some h)
    (held : a.get? y = some m) (kind : m.element.kind = .product) (member : x ∈ m.element.children) :
    ∃ w, (a.signed y m.element x).Solves I w {h} ∧ w y = -a.value I y ∧
      ∀ z k, a.get? z = some k → z ≠ y → w z = a.value I z := by
  obtain ⟨v, assigned, kept, changed⟩ := (wf.solves I).assign {h, y} (r := -a.value I y) wf held
    (fun _ _ _ => id) (fun q found => by
      cases owned.symm.trans found
      exact Set.mem_insert h _) fun outside => absurd (Set.mem_insert_of_mem h rfl) outside
  have value : m.element.value I v = a.value I y := by
    rw [wf.value_eq I held]
    refine Element.value_congr I fun c inside => kept c ?_
    exact wf.irrefl (wf.records held c inside)
  obtain ⟨w, solved, agrees⟩ := assigned.signed {h} wf held member
    (fun x outside other inside => inside.elim outside other) fun _ => by
      rw [value_negated_factor I v kind (wf.distinct held) member, value, changed]
  exact ⟨w, solved, (agrees y m held).trans changed,
    fun z k found other => (agrees z k found).trans (kept z other)⟩

theorem minusInside_sameValue (wf : a.WellFormed) (stored : a.get? h = some n)
    (run : (minusInside h).run a = .ok r b) : SameValue I a b := by
  rcases run_minusInside wf stored with
    ⟨same, _⟩ | ⟨p, m, product, k, owned, held, shape, held', kind, ⟨_, failed⟩ |
      ⟨first, rest, x, d, children, adds, same⟩⟩
  · cases same.symm.trans run
    exact .refl wf
  · exact absurd run (failed r b)
  cases same.symm.trans run
  have member : first ∈ k.element.children := by rw [children]; exact List.mem_cons_self
  have owned' := wf.records stored product (by rw [shape]; exact List.mem_singleton_self product)
  have other := wf.irrefl owned'
  obtain ⟨w, signed, changed, kept⟩ := exists_solves_negated_factor I wf owned' held' kind member
  obtain ⟨_, wf'⟩ := Edit.run_replaceWith_negation wf held' member
  obtain ⟨owned₁, m', held₁, element, inside⟩ := around_signed wf owned held owned' held' member
  -- the copy takes the value of the product, which is what the negation had
  obtain ⟨k', stored₁, _⟩ := get?_signed (p := product) (h := first) (e := k.element) held'
  have copied : w product = (a.signed product k.element first).value I product := by
    refine signed.eq_value I wf' stored₁ fun x broken => ?_
    obtain rfl := broken
    exact ⟨Ne.symm other, fun above =>
      wf'.acyclic product (above.trans (isAbove_of_owner? owned₁))⟩
  obtain ⟨u, added, old, new⟩ := signed.adds wf' adds
  obtain ⟨n', stored'', _⟩ := get?_signed (p := product) (h := first) (e := k.element) stored
  have same : u x = u h := by
    have negated : a.value I h = -a.value I product := by
      rw [wf.value_eq I stored, shape]
      rfl
    rw [old h n' stored'', kept h n stored (Ne.symm other), negated, ← changed, copied]
    exact List.singleton_inj.mp new
  have top := List.mem_singleton_self x
  have replaced := adds.run_replace wf' held₁ inside top
  have evolves := (((Evolves.refl wf).signed held' member).trans adds.evolves).trans
    (Edit.replace_evolves adds.wf replaced)
  have solved := Edit.replace_solves adds.wf added same replaced
  have gone := Edit.owner?_replaced adds.wf (adds.stored held₁) inside
    (adds.attachable wf' held₁ top)
  rw [element] at evolves solved gone
  obtain ⟨top, stored₀⟩ := wf.wrapper
  obtain ⟨top', stored₀', _⟩ := get?_signed (p := product) (h := first) (e := k.element) stored₀
  have outer : a.root ≠ product := Ne.symm (wf.ne_root_of_owner? owned')
  refine .of_solves evolves solved (fun x broken => ?_) ?_
  · rw [Set.mem_singleton_iff.mp broken, evolves.root]
    exact ⟨wf.ne_root_of_owner? owned, gone⟩
  · rw [evolves.root, old _ _ stored₀', kept _ _ stored₀ outer]

end Value

end Law

end AlgebraEditor
