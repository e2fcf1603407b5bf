import AlgebraEditor.Proofs.Arena.Filling
import AlgebraEditor.Proofs.Arena.Splicing
import AlgebraEditor.Proofs.Law.Inverse

/-!
# Moving a sign there and back

Moving a sign is a relation between terms: the sign of the first negated factor goes to the front of
the product, and the sign in front goes to the first factor. One way undoes the other exactly where
the first negated factor is the first factor.
-/

namespace AlgebraEditor

namespace Term

variable {s t u : Term} {ts : List Term}

/-- The sign of the first negated factor of `s` stands in front of `t`. -/
inductive SignToFront : Term → Term → Prop where
  | mk {before after : List Term} {u : Term} : (∀ t ∈ before, t.kind ≠ .negation) →
      SignToFront (.product (before ++ .negation u :: after))
        (.negation (.product (before ++ u :: after)))

/-- The sign in front of `s` stands at the first factor of `t`. -/
inductive SignInside : Term → Term → Prop where
  | mk (t : Term) (ts : List Term) :
      SignInside (.negation (.product (t :: ts))) (.product (.negation t :: ts))

theorem eq_product (product : t.kind = .product) : t = .product t.children := by
  cases t with
  | product ts => rfl
  | _ => cases product

theorem exists_signToFront (negated : ∃ t ∈ ts, t.kind = .negation) :
    ∃ t, SignToFront (.product ts) t := by
  obtain ⟨before, t, after, rfl, first, others⟩ := exists_first_of_kind negated
  cases t with
  | negation t => exact ⟨_, .mk others⟩
  | _ => cases first

/-- A sign that went inside is found by the way back. -/
theorem SignInside.toFront (inside : SignInside s t) : SignToFront t s := by
  obtain ⟨t, ts⟩ := inside
  exact @SignToFront.mk [] ts t nofun

/-- A sign that went to the front goes to the first factor, which is where it came from if the first
factor was negated. -/
theorem SignToFront.inside (front : SignToFront s t) :
    ∃ u, SignInside t u ∧ (s = u ↔ ∃ v, s.children.head? = some v ∧ v.kind = .negation) := by
  obtain @⟨before, after, u, others⟩ := front
  cases before with
  | nil =>
    refine ⟨_, .mk u after, ?_⟩
    simp [children, kind]
  | cons v before =>
    -- the first factor is no negation, and comes back as one
    have other := others v List.mem_cons_self
    refine ⟨_, .mk v (before ++ u :: after), ?_⟩
    have different : v ≠ .negation v := by
      intro same
      rw [same] at other
      exact other rfl
    simp [children, other, different]

end Term

namespace Law

open Arena

variable {a b : Arena} {h p first : Handle} {e : Element} {n m : Node} {rest : List Handle}
  {s t : Term}

/-! ### To the front -/

section ToFront

variable {factor r : Handle} (wf : a.WellFormed) (superseded : a.Superseded h factor t r b)
  (owned : a.owner? h = some p) (owned' : a.owner? factor = some h) (around : a.get? p = some m)

include wf superseded owned owned' around

/-- A product one of whose factors has left its slot to a new tree is negated. -/
theorem wrapped_superseded :
    b.Wrapped p h (b.plant (.integer 0)).next (b.signed p m.element h) := by
  have apart : p ≠ factor := by
    rintro rfl
    exact wf.not_encloses_owner owned' (.inr (isAbove_of_owner? owned))
  have around' := superseded.kept around (Ne.symm (wf.irrefl owned)) apart
  have kept := (superseded.spliced wf owned').enclosing wf owned
  have owned'' := kept.owner?_slot wf (List.mem_singleton_self h)
  exact wrapped_signed superseded.wf around' ((superseded.wf.mem_children_iff around').mpr owned'')

theorem spliced_superseded :
    a.Spliced p h [(b.plant (.integer 0)).next] (b.signed p m.element h) := by
  have kept := (superseded.spliced wf owned').enclosing wf owned
  have wrapped := wrapped_superseded wf superseded owned owned' around
  exact kept.trans
    (wrapped.spliced superseded.wf (kept.owner?_slot wf (List.mem_singleton_self h))) wf

/-- What stands in the slot is the negated product, with the new tree among its factors. -/
theorem denote_superseded (stored : a.get? h = some n) (kind : n.element.kind = .product)
    {before after : List Handle} (children : n.element.children = before ++ factor :: after) :
    (b.signed p m.element h).denote (b.plant (.integer 0)).next =
      .negation (.product (before.map a.denote ++ t :: after.map a.denote)) := by
  have changed := superseded.spliced wf owned'
  have kept := (changed.enclosing wf owned).owner?_slot wf (List.mem_singleton_self h)
  have wrapped := wrapped_superseded wf superseded owned owned' around
  obtain ⟨same, factors⟩ := changed.denote_container wf stored children
  rw [wrapped.denote_sign superseded.wf kept, Term.eq_product (same.trans kind), factors,
    List.map_singleton, superseded.denotes, List.append_assoc]
  rfl

end ToFront

/-- Moving a sign to the front leaves in the slot of a product what the term goes to. -/
theorem run_minusToFront_of_signToFront (wf : a.WellFormed) (owned : a.owner? h = some p)
    (front : (a.denote h).SignToFront t) : ∃ r b, (minusToFront h).run a = .ok (some [r]) b ∧
      a.Spliced p h [r] b ∧ b.denote r = t := by
  obtain ⟨n, stored⟩ := Arena.stored_of_owner? owned
  have held := wf.stored_children stored
  have denotes := wf.denote_eq stored
  generalize a.denote h = s at front denotes
  obtain @⟨us, vs, u, others⟩ := front
  -- the factors stand for those of the term, one for one
  obtain ⟨factors, shape, read⟩ := Element.toTerm_eq_product.mp denotes.symm
  obtain ⟨before, rest, rfl, rfl, split⟩ := List.map_eq_append_iff.mp read
  obtain ⟨factor, after, rfl, negated, rfl⟩ := List.map_eq_cons_iff.mp split
  have children : n.element.children = before ++ factor :: after := by rw [shape]; rfl
  have first : firstOfKind? a .negation n.element.children = .ok (some factor) := by
    rw [children] at held ⊢
    exact firstOfKind?_of_first wf held (by rw [negated]; rfl) others
  obtain ⟨_, free | kind | none⟩ | ⟨q, m, factor', k, inner, x, d, owned', around, kind, first',
    member, found, shape', adds, run⟩ := run_minusToFront wf stored
  · cases owned.symm.trans free
  · exact absurd (by rw [shape]; rfl) kind
  · cases first.symm.trans none
  cases owned.symm.trans owned'
  cases first.symm.trans first'
  have negates := wf.denote_eq found
  rw [negated, shape', Element.toTerm] at negates
  obtain rfl := Term.negation.inj negates
  have superseded := superseded_rewire wf adds stored member
  have owned' := wf.records stored factor member
  exact ⟨_, _, run, spliced_superseded wf superseded owned owned' around,
    denote_superseded wf superseded owned owned' around stored kind children⟩

/-! ### Inside -/

section Inside

variable {product r x : Handle} {d : Arena} (wf : a.WellFormed) (wrapped : a.Wrapped product first r b)
  (adds : b.Adds [b.denote product] [x] d)
  (owned : a.owner? h = some p) (owned' : a.owner? product = some h)
  (owned'' : a.owner? first = some product) (around : a.get? p = some m)

include wf wrapped adds owned owned' owned'' around

/-- A copy of a product one of whose factors was negated takes the slot of what held the product. -/
theorem superseded_wrapped : b.Superseded p h (b.denote product) x
    (d.rewire p (m.element.replaceChild h x)) := by
  have kept := (wrapped.spliced wf owned'').enclosing wf owned'
  have outside : ¬ a.Encloses product p := fun encloses =>
    wf.not_encloses_owner owned' (.inr (encloses.above (isAbove_of_owner? owned)))
  have around' := kept.kept around (Ne.symm (wf.irrefl owned)) outside
  have outer := (kept.enclosing wf owned).owner?_slot wf (List.mem_singleton_self h)
  exact superseded_rewire wrapped.wf adds around' ((wrapped.wf.mem_children_iff around').mpr outer)

theorem spliced_wrapped : a.Spliced p h [x] (d.rewire p (m.element.replaceChild h x)) := by
  have kept := ((wrapped.spliced wf owned'').enclosing wf owned').enclosing wf owned
  have superseded := superseded_wrapped wf wrapped adds owned owned' owned'' around
  exact kept.trans
    (superseded.spliced wrapped.wf (kept.owner?_slot wf (List.mem_singleton_self h))) wf

theorem denote_wrapped (stored : a.get? product = some n) (kind : n.element.kind = .product)
    (children : n.element.children = first :: rest) :
    (d.rewire p (m.element.replaceChild h x)).denote x =
      .product (.negation (a.denote first) :: rest.map a.denote) := by
  obtain ⟨same, factors⟩ := (wrapped.spliced wf owned'').denote_container wf stored
    (children.trans (List.nil_append _).symm)
  rw [(superseded_wrapped wf wrapped adds owned owned' owned'' around).denotes,
    Term.eq_product (same.trans kind), factors, List.map_singleton, wrapped.denote_sign wf owned'']
  rfl

end Inside

/-- Moving a sign inside leaves in the slot of a negation what the term goes to. -/
theorem run_minusInside_of_signInside (wf : a.WellFormed) (owned : a.owner? h = some p)
    (inside : (a.denote h).SignInside t) : ∃ r b, (minusInside h).run a = .ok (some [r]) b ∧
      a.Spliced p h [r] b ∧ b.denote r = t := by
  obtain ⟨n, stored⟩ := Arena.stored_of_owner? owned
  have denotes := wf.denote_eq stored
  generalize a.denote h = s at inside denotes
  obtain ⟨u, us⟩ := inside
  obtain ⟨product, shape, read⟩ := Element.toTerm_eq_negation.mp denotes.symm
  have owned' := wf.records stored product (by rw [shape]; exact List.mem_singleton_self product)
  obtain ⟨k, held⟩ := Arena.stored_of_owner? owned'
  obtain ⟨factors, shape', factored⟩ :=
    Element.toTerm_eq_product.mp ((wf.denote_eq held).symm.trans read)
  obtain ⟨first, rest, rfl, rfl, rfl⟩ := List.map_eq_cons_iff.mp factored
  have children : k.element.children = first :: rest := by rw [shape']; rfl
  have kind : k.element.kind = .product := by rw [shape']; rfl
  obtain ⟨_, free | other⟩ | ⟨q, m, product', k', owned'', around, same, held', _, ⟨none, _⟩ |
    ⟨first', rest', x, d, children', adds, run⟩⟩ := run_minusInside wf stored
  · cases owned.symm.trans free
  · exact absurd kind (other product k shape held)
  · cases shape.symm.trans same
    cases held.symm.trans held'
    cases children.symm.trans none
  cases owned.symm.trans owned''
  cases shape.symm.trans same
  cases held.symm.trans held'
  cases children.symm.trans children'
  have member : first ∈ k.element.children := by rw [children]; exact List.mem_cons_self
  have wrapped := wrapped_signed wf held member
  have owned'' := wf.records held first member
  exact ⟨_, _, run, spliced_wrapped wf wrapped adds owned owned' owned'' around,
    denote_wrapped wf wrapped adds owned owned' owned'' around held kind children⟩

/-! ### There and back -/

/-- The negation of a product gets its sign back in front, and a product that has a negated factor
gets the sign back among its factors: an element equal to the old one stands in the slot again, in
the second case if and only if the first factor is negated. Nothing outside of the slot is touched
on the way. -/
theorem signs_move_back (wf : a.WellFormed) (filled : a.Filled ∅)
    (stored : a.get? h = some ⟨some p, e⟩) :
    (∀ product, e = .negation product → a.kind product = .ok .product →
      ∃ q b r c, (minusInside h).run a = .ok (some [q]) b ∧
        (minusToFront q).run b = .ok (some [r]) c ∧ a.Spliced p h [r] c ∧
        a.equalAcross c h r = .ok true) ∧
    (∀ factors, e = .product factors → (∃ x ∈ factors, a.kind x = .ok .negation) →
      ∃ q b r c same, (minusToFront h).run a = .ok (some [q]) b ∧
        (minusInside q).run b = .ok (some [r]) c ∧ a.Spliced p h [r] c ∧
        a.equalAcross c h r = .ok same ∧
        (same = true ↔ ∃ x, factors.head? = some x ∧ a.kind x = .ok .negation)) := by
  have owned : a.owner? h = some p := owner?_of_get? stored
  have denotes := wf.denote_eq stored
  have kinds : ∀ x ∈ e.children, a.kind x = .ok (a.denote x).kind := by
    intro x member
    obtain ⟨k, found⟩ := wf.stored_of_mem_children stored member
    rw [kind_of_get? found, kind_denote wf found]
  refine ⟨fun product shape isProduct => ?_, fun factors shape negated => ?_⟩
  · subst shape
    have member : product ∈ (Element.negation product).children := List.mem_singleton_self product
    have kind : (a.denote product).kind = .product :=
      Except.ok.inj ((kinds product member).symm.trans isProduct)
    have full := (wf.throughout_filled filled (wf.records stored product member)).self
    have long : 2 ≤ (a.denote product).children.length := full (by rw [kind]; rfl)
    obtain ⟨t, ts, factors⟩ := List.exists_cons_of_length_pos (Nat.zero_lt_of_lt long)
    rw [Element.toTerm, Term.eq_product kind, factors] at denotes
    have inside : (a.denote h).SignInside (.product (.negation t :: ts)) := denotes ▸ .mk t ts
    obtain ⟨q, b, run, first, moved⟩ := run_minusInside_of_signInside wf owned inside
    obtain ⟨r, c, run', second, back⟩ := run_minusToFront_of_signToFront first.wf
      (first.owner?_slot wf (List.mem_singleton_self q)) (moved ▸ inside.toFront)
    have whole := first.trans second wf
    obtain ⟨same, compared, equal⟩ := whole.equalAcross_eq_ok wf (List.mem_singleton_self r)
    obtain rfl := equal.mpr back.symm
    exact ⟨q, b, r, c, run, run', whole, compared⟩
  · subst shape
    have kind : ∀ x ∈ factors, a.kind x = .ok .negation ↔ (a.denote x).kind = .negation := by
      intro x member
      rw [kinds x member, Except.ok.injEq]
    obtain ⟨x, member, negation⟩ := negated
    obtain ⟨t, front⟩ : ∃ t, (a.denote h).SignToFront t := denotes ▸ Term.exists_signToFront
      ⟨a.denote x, List.mem_map_of_mem member, (kind x member).mp negation⟩
    obtain ⟨q, b, run, first, moved⟩ := run_minusToFront_of_signToFront wf owned front
    obtain ⟨u, inside, restored⟩ := front.inside
    obtain ⟨r, c, run', second, back⟩ := run_minusInside_of_signInside first.wf
      (first.owner?_slot wf (List.mem_singleton_self q)) (moved ▸ inside)
    have whole := first.trans second wf
    obtain ⟨same, compared, equal⟩ := whole.equalAcross_eq_ok wf (List.mem_singleton_self r)
    refine ⟨q, b, r, c, same, run, run', whole, compared, ?_⟩
    rw [equal, back, restored, denotes, Element.toTerm, Term.children, List.head?_map]
    cases factors with
    | nil => simp
    | cons y rest => simp [kind y List.mem_cons_self]

/-- The sum `-(a*b) + (-a)*b + a*(-b)`. -/
def signedProducts : Term := .sum [.negation (.product [.symbol "a", .symbol "b"]),
  .product [.negation (.symbol "a"), .symbol "b"], .product [.symbol "a", .negation (.symbol "b")]]

/-- In `-(a*b) + (-a)*b + a*(-b)` the first two terms come back, and the last one becomes
`(-a)*b`. -/
theorem signs_move_back_in_signedProducts : ∃ a : Arena, a.WellFormed ∧ a.Filled ∅ ∧
    a.get? ⟨3⟩ = some ⟨some ⟨2⟩, .negation ⟨4⟩⟩ ∧
    a.get? ⟨7⟩ = some ⟨some ⟨2⟩, .product [⟨8⟩, ⟨10⟩]⟩ ∧
    a.get? ⟨11⟩ = some ⟨some ⟨2⟩, .product [⟨12⟩, ⟨13⟩]⟩ ∧
    (∃ q b r c, (minusInside ⟨3⟩).run a = .ok (some [q]) b ∧
      (minusToFront q).run b = .ok (some [r]) c ∧ a.equalAcross c ⟨3⟩ r = .ok true) ∧
    (∃ q b r c, (minusToFront ⟨7⟩).run a = .ok (some [q]) b ∧
      (minusInside q).run b = .ok (some [r]) c ∧ a.equalAcross c ⟨7⟩ r = .ok true) ∧
    ∃ q b r c, (minusToFront ⟨11⟩).run a = .ok (some [q]) b ∧
      (minusInside q).run b = .ok (some [r]) c ∧ a.equalAcross c ⟨11⟩ r = .ok false := by
  have unwrapped : signedProducts.Unwrapped := by decide
  have full : signedProducts.All Term.Filled := by decide
  have root : zero.get? ⟨0⟩ = some ⟨none, .root ⟨1⟩⟩ := rfl
  have only : (⟨1⟩ : Handle) ∈ [(⟨1⟩ : Handle)] := List.mem_singleton_self _
  have filled := filled_zero.plant_replaced wellFormed_zero root only unwrapped full
  obtain ⟨a, same⟩ : ∃ a, a = (zero.plant signedProducts).rewire ⟨0⟩ (.root ⟨2⟩) := ⟨_, rfl⟩
  have wf : a.WellFormed := by rw [same]; exact Edit.wellFormed_expression unwrapped
  have filled : a.Filled ∅ := by rw [same]; exact filled
  have outer : a.get? ⟨3⟩ = some ⟨some ⟨2⟩, .negation ⟨4⟩⟩ := by rw [same]; rfl
  have first : a.get? ⟨7⟩ = some ⟨some ⟨2⟩, .product [⟨8⟩, ⟨10⟩]⟩ := by rw [same]; rfl
  have last : a.get? ⟨11⟩ = some ⟨some ⟨2⟩, .product [⟨12⟩, ⟨13⟩]⟩ := by rw [same]; rfl
  have kinds : a.kind ⟨4⟩ = .ok .product ∧ a.kind ⟨8⟩ = .ok .negation ∧
      a.kind ⟨12⟩ = .ok .symbol ∧ a.kind ⟨13⟩ = .ok .negation := by
    rw [same]
    exact ⟨rfl, rfl, rfl, rfl⟩
  obtain ⟨product, negated, symbol, negated'⟩ := kinds
  refine ⟨a, wf, filled, outer, first, last, ?_, ?_, ?_⟩
  · obtain ⟨q, b, r, c, run, run', _, equal⟩ :=
      (signs_move_back wf filled outer).1 ⟨4⟩ rfl product
    exact ⟨q, b, r, c, run, run', equal⟩
  · obtain ⟨q, b, r, c, same, run, run', _, compared, equal⟩ :=
      (signs_move_back wf filled first).2 _ rfl ⟨⟨8⟩, by simp, negated⟩
    obtain rfl := equal.mpr ⟨⟨8⟩, rfl, negated⟩
    exact ⟨q, b, r, c, run, run', compared⟩
  · obtain ⟨q, b, r, c, same, run, run', _, compared, equal⟩ :=
      (signs_move_back wf filled last).2 _ rfl ⟨⟨13⟩, by simp, negated'⟩
    cases same with
    | false => exact ⟨q, b, r, c, run, run', compared⟩
    | true =>
      obtain ⟨x, head, negation⟩ := equal.mp rfl
      cases head
      cases symbol.symm.trans negation

end Law

end AlgebraEditor
