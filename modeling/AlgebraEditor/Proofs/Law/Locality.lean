import AlgebraEditor.Proofs.Arena.Gathering
import AlgebraEditor.Proofs.Law.Cancelling
import AlgebraEditor.Proofs.Law.Expanding
import AlgebraEditor.Proofs.Law.Factoring
import AlgebraEditor.Proofs.Law.MovingSigns
import AlgebraEditor.Proofs.Law.Swapping
import AlgebraEditor.Proofs.Law.Unnesting

/-!
# What rules leave alone

A rule for one element changes what is in the slot of the element, and nothing outside of it. A rule
for children of one parent changes the parent and what lies in the children. If only one child is
left of the parent, it takes the slot of the parent.
-/

namespace AlgebraEditor

namespace Arena

variable {a b : Arena} {first p q r s : Handle} {cs others xs : List Handle} {e : Element} {t : Term}

/-- Something was done to the children `xs` of `p`, and `s` stands in the slot of `p` now: this is
`p` itself, or something new, or the only child that is left. Nothing else has changed but for `p`
and what lies in `xs`. -/
structure Confined (a : Arena) (p : Handle) (xs : List Handle) (s : Handle) (b : Arena) : Prop
    extends Evolves a b where
  stands : s = p ∨ a.get? s = none ∨ ∃ n, a.get? p = some n ∧ n.element.remaining xs = [s]
  slot : ∀ {q m}, a.owner? p = some q → a.get? q = some m →
    b.get? q = some ⟨m.parent, m.element.replaceChild p s⟩
  survivor : s ≠ p → ∀ {n}, a.get? s = some n → b.get? s = some ⟨a.owner? p, n.element⟩
  kept : ∀ {x n}, a.get? x = some n → x ≠ p → x ≠ s → a.owner? p ≠ some x →
    (∀ y ∈ xs, ¬ a.Encloses y x) → b.get? x = some n

theorem Removed.confined (removed : a.Removed p q e xs s b) (evolves : a.Evolves b)
    (stored : a.get? p = some ⟨some q, e⟩) : a.Confined p xs s b := by
  have owned : a.owner? p = some q := owner?_of_get? stored
  refine ⟨evolves, ?_, fun owned' around => ?_, fun gone n held => ?_,
    fun {x n} held notList notSurvivor notOwner outside => ?_⟩
  · match left : e.remaining xs with
    | [] => exact .inr (.inl (removed.empty left).1)
    | [only] =>
      obtain rfl := (removed.single left).1
      exact .inr (.inr ⟨_, stored, left⟩)
    | _ :: _ :: _ => exact .inl (removed.long (by simp [left])).1
  · cases owned.symm.trans owned'
    exact removed.slot around
  · match left : e.remaining xs with
    | [] => cases (removed.empty left).1.symm.trans held
    | [only] =>
      obtain ⟨rfl, came⟩ := removed.single left
      rw [owned]
      exact came held
    | _ :: _ :: _ => exact absurd (removed.long (by simp [left])).1 gone
  · refine removed.kept held (fun listed => outside x listed (.inl rfl)) notList ?_ fun only => ?_
    · rintro rfl
      exact notOwner owned
    · exact notSurvivor (removed.single only).1.symm

/-- If nothing else is left of the sum, the new element takes the slot of the sum. -/
theorem Gathered.spliced (gathered : a.Gathered p q cs first others t r b) (evolves : a.Evolves b)
    (stored : a.get? p = some ⟨some q, .sum cs⟩) (wf : a.WellFormed)
    (inside : ∀ x ∈ first :: others, x ∈ cs)
    (alone : AlgebraEditor.gathered cs first others r = [r]) : a.Spliced q p [r] b := by
  refine evolves.spliced wf (owner?_of_get? stored) gathered.fresh
    (fun around => (gathered.alone alone).2 _ around) fun {x n} held notOwner outside => ?_
  refine gathered.kept x n held (fun listed => outside (.inr ?_)) (fun same => outside (.inl same))
    fun _ => notOwner
  exact isAbove_of_owner? (wf.records stored x (inside x listed))

theorem Gathered.confined (gathered : a.Gathered p q cs first others t r b) (evolves : a.Evolves b)
    (stored : a.get? p = some ⟨some q, .sum cs⟩) (wf : a.WellFormed)
    (inside : ∀ x ∈ first :: others, x ∈ cs) : ∃ s, a.Confined p (first :: others) s b := by
  have owned : a.owner? p = some q := owner?_of_get? stored
  have kept : ∀ {x n}, a.get? x = some n → x ≠ p → a.owner? p ≠ some x →
      (∀ y ∈ first :: others, ¬ a.Encloses y x) → b.get? x = some n := by
    intro x n held notSum notOwner outside
    refine gathered.kept x n held (fun listed => outside x listed (.inl rfl)) notSum ?_
    rintro _ rfl
    exact notOwner owned
  by_cases alone : AlgebraEditor.gathered cs first others r = [r]
  · refine ⟨r, evolves, .inr (.inl gathered.fresh), fun owned' around => ?_, fun _ n held => ?_,
      fun held notSum _ => kept held notSum⟩
    · cases owned.symm.trans owned'
      exact (gathered.alone alone).2 _ around
    · cases gathered.fresh.symm.trans held
  · refine ⟨p, evolves, .inl rfl, fun owned' around => ?_, fun other => absurd rfl other,
      fun held notSum _ => kept held notSum⟩
    cases owned.symm.trans owned'
    rw [Element.replaceChild_self]
    refine gathered.kept q _ around (fun listed => ?_) (Ne.symm (wf.irrefl owned))
      fun only => absurd only alone
    exact (ne_owner_of_child wf stored (inside q listed)).2 rfl

end Arena

namespace Law

open Arena

variable {a b : Arena} {h p x : Handle} {hs rs xs : List Handle} {n : Node}

/-! ### One element -/

/-- The rule leaves one element in the slot of another and changes nothing outside of it. -/
def StaysInSlot (rule : ElementRule) : Prop :=
  ∀ {a b h n rs}, a.WellFormed → a.get? h = some n → (rule h).run a = .ok (some rs) b →
    ∃ p r, rs = [r] ∧ a.Spliced p h [r] b

theorem expand_staysInSlot : StaysInSlot expand := by
  intro a b h n rs wf stored run
  obtain same | ⟨p, terms, s, d, owned, expands, adds, same⟩ := run_expand wf stored
  · cases same.symm.trans run
  obtain ⟨m, held⟩ := wf.stored_of_owner? owned
  have member := (wf.mem_children_iff held).mpr owned
  rw [Edit.run_bind_of_ok (adds.run_replace wf held member (List.mem_singleton_self s))] at same
  cases same.symm.trans run
  exact ⟨p, s, rfl, (superseded_rewire wf adds held member).spliced wf owned⟩

theorem minusToFront_staysInSlot : StaysInSlot minusToFront := by
  intro a b h n rs wf stored run
  obtain ⟨same, _⟩ | ⟨p, m, factor, k, inner, x, d, owned, held, _, _, member, found, shape, adds,
    same⟩ := run_minusToFront wf stored
  · cases same.symm.trans run
  cases same.symm.trans run
  have superseded := superseded_rewire wf adds stored member
  exact ⟨_, _, rfl, spliced_superseded wf superseded owned (wf.records stored factor member) held⟩

theorem minusInside_staysInSlot : StaysInSlot minusInside := by
  intro a b h n rs wf stored run
  obtain ⟨same, _⟩ | ⟨p, m, product, k, owned, held, shape, found, _, ⟨_, failed⟩ |
    ⟨first, rest, x, d, children, adds, same⟩⟩ := run_minusInside wf stored
  · cases same.symm.trans run
  · exact absurd run (failed _ _)
  cases same.symm.trans run
  have member : first ∈ k.element.children := by rw [children]; exact List.mem_cons_self
  have inside := wf.records stored product (by rw [shape]; exact List.mem_singleton_self product)
  exact ⟨_, _, rfl, spliced_wrapped wf (wrapped_signed wf found member) adds owned inside
    (wf.records found first member) held⟩

/-- Factoring that does something adds a term for the first term and removes the others. -/
theorem run_factor_some (wf : a.WellFormed) (stored : a.get? p = some n)
    (inside : ∀ h ∈ hs, h ∈ n.element.children) (run : (factor p hs).run a = .ok (some rs) b) :
    n.element.kind = .sum ∧ ∃ first rest t x d s, hs = first :: rest ∧ a.Adds [t] [x] d ∧ rs = [x] ∧
      (Edit.removeChildren p rest).run (d.rewire p (n.element.replaceChild first x)) = .ok s b := by
  obtain ⟨none, _⟩ | ⟨m, first, rest, t, x, d, c, s, held, kind, rfl, _, adds, replaced, removed,
    same⟩ := run_factor_eq_ok wf (fun h member => wf.stored_of_mem_children stored (inside h member))
      (fun h member => wf.ne_root_of_mem_children stored (inside h member)) run
  · cases none
  cases stored.symm.trans held
  cases replaced.symm.trans
    (adds.run_replace wf stored (inside first List.mem_cons_self) (List.mem_singleton_self x))
  cases same
  exact ⟨kind, first, rest, t, x, d, s, rfl, adds, rfl, removed⟩

/-- Factoring that does something gathers the listed terms of a sum. -/
theorem gathered_of_run_factor (wf : a.WellFormed) (stored : a.get? p = some n)
    (inside : ∀ x ∈ hs, x ∈ n.element.children) (run : (factor p hs).run a = .ok (some rs) b) :
    ∃ q cs first others t r, a.get? p = some ⟨some q, .sum cs⟩ ∧ hs = first :: others ∧
      rs = [r] ∧ a.Evolves b ∧ a.Gathered p q cs first others t r b := by
  obtain ⟨kind, first, others, t, r, d, s, rfl, adds, same, removed⟩ :=
    run_factor_some wf stored inside run
  obtain ⟨parent, e⟩ := n
  obtain ⟨cs, rfl⟩ : ∃ cs, e = .sum cs := Element.kind_eq_sum.mp kind
  have member := inside first List.mem_cons_self
  have superseded := superseded_rewire wf adds stored member
  have evolves := (superseded.spliced wf (wf.records stored first member)).toEvolves
  obtain ⟨_, _, _, listed, _, _, _, distinct, held', _⟩ :=
    (Edit.run_removeChildren_eq_ok superseded.wf).mp removed
  obtain ⟨q, _, listed', _, _, left⟩ := Edit.removed_of_run superseded.wf removed
  have slot := superseded.slot stored
  cases listed.symm.trans slot
  cases slot.symm.trans listed'
  -- the first term has left the sum, and so is not among the others
  have apart : first ∉ others := by
    intro again
    obtain same | ⟨_, other⟩ :=
      (Element.mem_replaceChild _ (wf.distinct stored) member).mp (held' first again)
    · obtain ⟨k, found⟩ := wf.stored_of_mem_children stored member
      rw [same, superseded.fresh] at found
      cases found
    · exact other rfl
  exact ⟨q, cs, first, others, t, r, stored, rfl, same,
    evolves.trans (Edit.removeChildren_evolves superseded.wf removed),
    gathered_of_removed wf stored (List.nodup_cons.mpr ⟨apart, distinct⟩) inside superseded left⟩

/-- What all terms are factored into is left alone, and takes the slot of the sum. -/
theorem factorAllTerms_staysInSlot : StaysInSlot factorAllTerms := by
  intro a b h n rs wf stored run
  unfold factorAllTerms at run
  rw [Edit.kindOf, Edit.run_inspect_bind] at run
  obtain ⟨kind, _, run⟩ := run
  split at run
  · cases run
  rw [Edit.childrenOf, Edit.run_inspect_bind] at run
  obtain ⟨_, listed, run⟩ := run
  obtain ⟨_, stored', rfl⟩ := children_eq_ok.mp listed
  cases stored.symm.trans stored'
  obtain ⟨p, cs, first, others, t, r, stored', children, same, evolves, gathered⟩ :=
    gathered_of_run_factor wf stored (fun _ => id) run
  cases stored.symm.trans stored'
  obtain rfl : cs = first :: others := children
  have alone : AlgebraEditor.gathered (first :: others) first others r = [r] := by
    have apart : r ∉ others := fun later => by
      obtain ⟨k, found⟩ := wf.stored_of_mem_children stored (List.mem_cons_of_mem first later)
      cases found.symm.trans gathered.fresh
    simp [AlgebraEditor.gathered, apart]
  exact ⟨p, r, same, gathered.spliced evolves stored wf (fun _ => id) alone⟩

/-! ### Children of one parent -/

/-- What the rule does is confined to the parent and the children. -/
def Confines (rule : SiblingRule) : Prop :=
  ∀ {a b p xs rs}, a.WellFormed → (∀ x ∈ xs, a.owner? x = some p) →
    (rule p xs).run a = .ok (some rs) b → ∃ s, a.Confined p xs s b

theorem swap_confines : Confines swap := by
  intro a b p xs rs wf owned run
  obtain ⟨m, x, y, held, isList, rfl, first, second, other⟩ := run_swap_some wf owned run
  obtain ⟨_, same, transposed⟩ := run_swap_transposed wf held isList first second other
  cases same.symm.trans run
  refine ⟨p, transposed.toEvolves, .inl rfl, fun owned' around => ?_, fun gone => absurd rfl gone,
    fun stored notList _ _ _ => transposed.kept stored notList⟩
  rw [Element.replaceChild_self]
  exact transposed.kept around (Ne.symm (wf.irrefl owned'))

theorem cancel_confines : Confines cancel := by
  intro a b p xs rs wf owned run
  obtain ⟨none, _⟩ | ⟨n, x, y, s, stored, _, rfl, _, run', _⟩ := run_cancel_eq_ok run
  · cases none
  obtain ⟨q, e, stored, _, _, removed⟩ := Edit.removed_of_run wf run'
  exact ⟨s, removed.confined (Edit.removeChildren_evolves wf run') stored⟩

theorem factor_confines : Confines factor := by
  intro a b p xs rs wf owned run
  obtain ⟨none, _⟩ | ⟨n, _, _, _, _, _, _, _, stored, _⟩ := run_factor_eq_ok wf
    (fun x member => stored_of_owner? (owned x member))
    (fun x member => wf.ne_root_of_owner? (owned x member)) run
  · cases none
  have inside : ∀ x ∈ xs, x ∈ n.element.children := fun x member =>
    (wf.mem_children_iff stored).mpr (owned x member)
  obtain ⟨q, cs, first, others, t, r, stored', rfl, _, evolves, gathered⟩ :=
    gathered_of_run_factor wf stored inside run
  cases stored.symm.trans stored'
  exact gathered.confined evolves stored wf inside

/-- Rules are local. Expanding an element, moving a sign in it and factoring all of its terms leave
one element in its slot, unnesting it leaves elements there, and neither the other slots of the
container nor anything outside of both has changed. Exchanging, cancelling and factoring children of
one parent change nothing outside of the parent and the children, except that what is left in the
slot of the parent is another element if the parent is no list any more. -/
theorem rules_stay_local (wf : a.WellFormed) :
    (∀ rule ∈ [expand, minusToFront, minusInside, factorAllTerms], ∀ h p rs b,
      a.owner? h = some p → (rule h).run a = .ok (some rs) b →
        ∃ r, rs = [r] ∧ a.Spliced p h [r] b) ∧
    (∀ h p rs b, a.owner? h = some p → (unnest h).run a = .ok (some rs) b → a.Spliced p h rs b) ∧
    ∀ rule ∈ [swap, cancel, factor], ∀ p xs rs b, (∀ x ∈ xs, a.owner? x = some p) →
      (rule p xs).run a = .ok (some rs) b → ∃ s, a.Confined p xs s b := by
  refine ⟨fun rule member h p rs b owned run => ?_, fun h p rs b owned run => ?_,
    fun rule member p xs rs b => ?_⟩
  · have stays : StaysInSlot rule := by
      simp only [List.mem_cons, List.not_mem_nil, or_false] at member
      rcases member with rfl | rfl | rfl | rfl
      · exact expand_staysInSlot
      · exact minusToFront_staysInSlot
      · exact minusInside_staysInSlot
      · exact factorAllTerms_staysInSlot
    obtain ⟨n, stored⟩ := Arena.stored_of_owner? owned
    obtain ⟨q, r, same, spliced⟩ := stays wf stored run
    cases owned.symm.trans spliced.owned
    exact ⟨r, same, spliced⟩
  · obtain ⟨n, stored⟩ := Arena.stored_of_owner? owned
    obtain ⟨q, _, owned', _, _, _, supplanted⟩ := supplanted_of_run_unnest wf stored run
    cases owned.symm.trans owned'
    exact supplanted.spliced owned
  · simp only [List.mem_cons, List.not_mem_nil, or_false] at member
    rcases member with rfl | rfl | rfl
    · exact swap_confines wf
    · exact cancel_confines wf
    · exact factor_confines wf

/-- In `(x + a - a)*(-y)` the sign can go to the front, the first two terms can change places, and
the last two terms cancel out. -/
theorem rules_stay_local_in_product : ∃ a : Arena, a.WellFormed ∧
    a.get? ⟨2⟩ = some ⟨some ⟨0⟩, .product [⟨3⟩, ⟨8⟩]⟩ ∧
    a.get? ⟨3⟩ = some ⟨some ⟨2⟩, .sum [⟨4⟩, ⟨5⟩, ⟨6⟩]⟩ ∧
    (∃ r b, (minusToFront ⟨2⟩).run a = .ok (some [r]) b ∧ a.Spliced ⟨0⟩ ⟨2⟩ [r] b) ∧
    (∃ b s, (swap ⟨3⟩ [⟨4⟩, ⟨5⟩]).run a = .ok (some [⟨4⟩, ⟨5⟩]) b ∧
      a.Confined ⟨3⟩ [⟨4⟩, ⟨5⟩] s b) ∧
    ∃ rs b s, (cancel ⟨3⟩ [⟨5⟩, ⟨6⟩]).run a = .ok (some rs) b ∧ a.Confined ⟨3⟩ [⟨5⟩, ⟨6⟩] s b := by
  obtain ⟨a, same⟩ : ∃ a, a = (zero.plant (.product [.sum [.symbol "x", .symbol "a",
    .negation (.symbol "a")], .negation (.symbol "y")])).rewire ⟨0⟩ (.root ⟨2⟩) := ⟨_, rfl⟩
  have wf : a.WellFormed := by rw [same]; exact Edit.wellFormed_expression (by decide)
  have product : a.get? ⟨2⟩ = some ⟨some ⟨0⟩, .product [⟨3⟩, ⟨8⟩]⟩ := by rw [same]; rfl
  have sum : a.get? ⟨3⟩ = some ⟨some ⟨2⟩, .sum [⟨4⟩, ⟨5⟩, ⟨6⟩]⟩ := by rw [same]; rfl
  have denotes : a.denote ⟨2⟩ = .product ([.sum [.symbol "x", .symbol "a",
    .negation (.symbol "a")]] ++ .negation (.symbol "y") :: []) := by rw [same]; rfl
  have owned : ∀ x ∈ [(⟨4⟩ : Handle), ⟨5⟩, ⟨6⟩], a.owner? x = some ⟨3⟩ := wf.records sum
  obtain ⟨single, _, siblings⟩ := rules_stay_local wf
  refine ⟨a, wf, product, sum, ?_, ?_, ?_⟩
  · have front : (a.denote ⟨2⟩).SignToFront _ := denotes ▸ Term.SignToFront.mk (by decide)
    obtain ⟨r, b, run, _⟩ := run_minusToFront_of_signToFront wf (owner?_of_get? product) front
    obtain ⟨r', same, spliced⟩ :=
      single minusToFront (by simp) _ _ _ b (owner?_of_get? product) run
    obtain rfl : r = r' := List.singleton_inj.mp same
    exact ⟨r, b, run, spliced⟩
  · obtain ⟨b, run, _⟩ := run_swap_transposed wf sum rfl (x := ⟨4⟩) (y := ⟨5⟩) (by decide)
      (by decide) (by decide)
    obtain ⟨s, confined⟩ := siblings swap (by simp) _ _ _ b (fun x member => owned x (by grind)) run
    exact ⟨b, s, run, confined⟩
  · have opposite : Opposite a ⟨5⟩ ⟨6⟩ := by
      rw [same]
      exact .inr ⟨⟨some ⟨3⟩, .negation ⟨7⟩⟩, ⟨7⟩, rfl, rfl, rfl⟩
    have nodup : [(⟨5⟩ : Handle), ⟨6⟩].Nodup := by decide
    obtain ⟨r, b, removed, _⟩ := Edit.exists_removed wf sum rfl nodup (by decide)
    have run := (run_cancel wf sum (by decide) (by decide) (.inl rfl)).2 opposite removed
    obtain ⟨s, confined⟩ := siblings cancel (by simp) _ _ _ b (fun x member => owned x (by grind)) run
    exact ⟨_, b, s, run, confined⟩

end Law

end AlgebraEditor
