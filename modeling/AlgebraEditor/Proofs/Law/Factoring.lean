import AlgebraEditor.Law.Distributive
import AlgebraEditor.Proofs.Law.Basic
import Mathlib.Algebra.BigOperators.Ring.List
import Mathlib.Tactic.Ring

/-!
# Factoring

A term of a sum is a sign and a list of factors, and pulling a factor out only marks it. So what is
pulled out of a term times what is kept is the term, whatever was pulled out before.
-/

namespace AlgebraEditor

namespace Law

open Arena

variable {a b : Arena} {h p : Handle} {hs : List Handle} {n : Node} {P : Term → Prop}
  {r : Option (List Handle)}

/-! ### Splitting terms -/

namespace SplitTerm

/-- The factors of what stands behind the sign of a term. -/
def factorsOf (base : Handle) : Element → List Handle
  | .product factors => factors
  | _ => [base]

/-- A term as its sign and its factors, none of which is pulled out. -/
inductive Splits (a : Arena) : Handle → SplitTerm → Prop where
  | plain {h : Handle} {n : Node} : a.get? h = some n → n.element.negated? = none →
      Splits a h ⟨false, (factorsOf h n.element).map (⟨·, false⟩)⟩
  | negated {h inner : Handle} {n m : Node} : a.get? h = some n → n.element = .negation inner →
      a.get? inner = some m → Splits a h ⟨true, (factorsOf inner m.element).map (⟨·, false⟩)⟩

/-- The factors that are not pulled out, as terms. -/
def kept (a : Arena) (fs : List TermFactor) : List Term :=
  (fs.filter (!·.pulled)).map (a.denote ·.handle)

/-- The factors that are pulled out, as terms. -/
def taken (a : Arena) (fs : List TermFactor) : List Term :=
  (fs.filter (·.pulled)).map (a.denote ·.handle)

/-- One factor more is pulled out, the first one left that is equal to the given one. -/
inductive Pulled (a : Arena) (factor : Handle) : List TermFactor → List TermFactor → Prop where
  | here {f : TermFactor} {rest : List TermFactor} : f.pulled = false →
      a.denote f.handle = a.denote factor → Pulled a factor (f :: rest) (⟨f.handle, true⟩ :: rest)
  | later {f : TermFactor} {rest rest' : List TermFactor} :
      (f.pulled = false → a.denote f.handle ≠ a.denote factor) → Pulled a factor rest rest' →
      Pulled a factor (f :: rest) (f :: rest')

/-- A factor is pulled out of a term. -/
def Loses (a : Arena) (factor : Handle) (t t' : SplitTerm) : Prop :=
  t'.negated = t.negated ∧ Pulled a factor t.factors t'.factors

/-- What is pulled out of the first term is pulled out of all others. -/
inductive Common (a : Arena) : List TermFactor → List SplitTerm → List TermFactor →
    List SplitTerm → Prop where
  | nil (others : List SplitTerm) : Common a [] others [] others
  | pulled {f : TermFactor} {fs fs' : List TermFactor} {others left others' : List SplitTerm} :
      List.Forall₂ (Loses a f.handle) others left → Common a fs left fs' others' →
      Common a (f :: fs) others (⟨f.handle, true⟩ :: fs') others'
  | passed {f : TermFactor} {fs fs' : List TermFactor} {others others' : List SplitTerm} :
      (∃ t ∈ others, a.denote f.handle ∉ kept a t.factors) → Common a fs others fs' others' →
      Common a (f :: fs) others (f :: fs') others'

variable {factor : Handle} {fs fs' : List TermFactor} {t t' : SplitTerm}
  {ts ts' others others' : List SplitTerm}

theorem Splits.copies (splits : Splits a h t) (wf : a.WellFormed) (throughout : a.Throughout P)
    (self : a.Copies P h) : ∀ f ∈ t.factors, a.Copies P f.handle := by
  have each : ∀ {h m}, a.get? h = some m → a.Copies P h →
      ∀ x ∈ factorsOf h m.element, a.Copies P x := by
    intro h m held self x member
    cases shape : m.element with
    | product factors =>
      rw [shape] at member
      exact wf.copies_of_owner? throughout (wf.records held x (by rw [shape]; exact member))
    | _ =>
      rw [shape] at member
      rwa [List.mem_singleton.mp member]
  cases splits with
  | plain stored _ =>
    intro f member
    obtain ⟨x, inside, rfl⟩ := List.mem_map.mp member
    exact each stored self x inside
  | negated stored shape held =>
    intro f member
    obtain ⟨x, inside, rfl⟩ := List.mem_map.mp member
    have inner := wf.records stored _ (by rw [shape]; exact List.mem_singleton_self _)
    exact each held (wf.copies_of_owner? throughout inner) x inside

theorem Splits.stored (splits : Splits a h t) (wf : a.WellFormed) :
    ∀ f ∈ t.factors, ∃ n, a.get? f.handle = some n := by
  have each : ∀ {h m}, a.get? h = some m →
      ∀ x ∈ factorsOf h m.element, ∃ n, a.get? x = some n := by
    intro h m held x member
    cases shape : m.element with
    | product factors =>
      rw [shape] at member
      exact wf.stored_of_mem_children held (by rw [shape]; exact member)
    | _ =>
      rw [shape] at member
      exact ⟨m, by rwa [List.mem_singleton.mp member]⟩
  cases splits with
  | plain stored _ | negated _ _ stored =>
    intro f member
    obtain ⟨x, inside, rfl⟩ := List.mem_map.mp member
    exact each stored x inside

theorem ofHandle_total (wf : a.WellFormed) (stored : a.get? h = some n) :
    ∃ t, ofHandle a h = .ok t ∧ Splits a h t := by
  unfold ofHandle
  rw [negated?_of_get? stored, ok_bind]
  cases shape : n.element with
  | negation inner =>
    obtain ⟨m, held⟩ := wf.stored_children stored inner (by rw [shape]; exact List.mem_singleton_self _)
    refine ⟨_, ?_, .negated stored shape held⟩
    simp only [Element.negated?, Option.getD_some]
    rw [element_of_get? held, ok_bind]
    cases m.element <;> rfl
  | _ =>
    refine ⟨_, ?_, .plain stored (by rw [shape]; rfl)⟩
    simp only [Element.negated?, Option.getD_none]
    rw [element_of_get? stored, shape, ok_bind]
    rfl

theorem pull?_total (wf : a.WellFormed) (stored : ∃ n, a.get? factor = some n)
    (held : ∀ f ∈ fs, ∃ n, a.get? f.handle = some n) :
    ∃ found, pull? a factor fs = .ok found ∧ (found = none → a.denote factor ∉ kept a fs) ∧
      ∀ fs', found = some fs' → Pulled a factor fs fs' := by
  obtain ⟨m, stored⟩ := stored
  induction fs with
  | nil => exact ⟨none, rfl, fun _ => List.not_mem_nil, nofun⟩
  | cons f fs ih =>
    obtain ⟨found, read, absent, holds⟩ := ih fun g member => held g (List.mem_cons_of_mem _ member)
    have passed : (f.pulled = false → a.denote f.handle ≠ a.denote factor) →
        (found.map (f :: ·) = none → a.denote factor ∉ kept a (f :: fs)) ∧
        ∀ fs', found.map (f :: ·) = some fs' → Pulled a factor (f :: fs) fs' := by
      intro other
      constructor
      · intro missed
        have rest := absent (Option.map_eq_none_iff.mp missed)
        cases free : f.pulled with
        | true => simpa [kept, free] using rest
        | false => simpa [kept, free] using ⟨Ne.symm (other free), by simpa [kept] using rest⟩
      · intro fs' same
        obtain ⟨rest, rfl, rfl⟩ := Option.map_eq_some_iff.mp same
        exact .later other (holds rest rfl)
    unfold pull?
    cases free : f.pulled with
    | true =>
      refine ⟨found.map (f :: ·), ?_, passed (by simp [free])⟩
      simp only [Bool.not_true, Bool.false_eq_true, if_false]
      rw [read]
      rfl
    | false =>
      obtain ⟨n, held'⟩ := held f List.mem_cons_self
      obtain ⟨same, compared, equal⟩ := wf.equal_eq_ok held' stored
      simp only [Bool.not_false, if_true]
      rw [compared, ok_bind]
      cases same with
      | true =>
        refine ⟨some (⟨f.handle, true⟩ :: fs), rfl, nofun, fun fs' found => ?_⟩
        cases found
        exact .here free (equal.mp rfl)
      | false =>
        refine ⟨found.map (f :: ·), ?_, passed fun _ same => Bool.false_ne_true (equal.mpr same)⟩
        simp only [Bool.false_eq_true, if_false]
        rw [read]
        rfl

theorem Pulled.handles (pulled : Pulled a factor fs fs') :
    fs'.map TermFactor.handle = fs.map TermFactor.handle := by
  induction pulled with
  | here _ _ => rfl
  | later _ _ ih => rw [List.map_cons, List.map_cons, ih]

theorem pullFromAll?_total (wf : a.WellFormed) (stored : ∃ n, a.get? factor = some n)
    (held : ∀ t ∈ ts, ∀ f ∈ t.factors, ∃ n, a.get? f.handle = some n) :
    ∃ found, pullFromAll? a factor ts = .ok found ∧
      (found = none → ∃ t ∈ ts, a.denote factor ∉ kept a t.factors) ∧
      ∀ ts', found = some ts' → List.Forall₂ (Loses a factor) ts ts' := by
  induction ts with
  | nil =>
    refine ⟨some [], rfl, nofun, fun ts' same => ?_⟩
    cases same
    exact .nil
  | cons t ts ih =>
    obtain ⟨one, read, absent, holds⟩ := pull?_total wf stored (held t List.mem_cons_self)
    obtain ⟨found, read', absent', holds'⟩ := ih fun u member =>
      held u (List.mem_cons_of_mem _ member)
    unfold pullFromAll?
    rw [read, ok_bind]
    cases one with
    | none => exact ⟨none, rfl, fun _ => ⟨t, List.mem_cons_self, absent rfl⟩, nofun⟩
    | some factors =>
      dsimp only
      rw [read']
      refine ⟨found.map ({ t with factors } :: ·), rfl, fun missed => ?_, fun ts' same => ?_⟩
      · obtain ⟨u, member, without⟩ := absent' (Option.map_eq_none_iff.mp missed)
        exact ⟨u, List.mem_cons_of_mem t member, without⟩
      · obtain ⟨rest, rfl, rfl⟩ := Option.map_eq_some_iff.mp same
        exact .cons ⟨rfl, holds factors rfl⟩ (holds' rest rfl)

/-- A property of the handles of factors is kept when factors are pulled out. -/
theorem loses_handles {Q : Handle → Prop} (loses : List.Forall₂ (Loses a factor) ts ts')
    (all : ∀ t ∈ ts, ∀ f ∈ t.factors, Q f.handle) : ∀ t ∈ ts', ∀ f ∈ t.factors, Q f.handle := by
  induction loses with
  | nil => exact all
  | @cons t t' ts ts' lost _ ih =>
    intro u member f inside
    rcases List.mem_cons.mp member with rfl | later
    · have listed : f.handle ∈ u.factors.map TermFactor.handle := List.mem_map_of_mem inside
      rw [lost.2.handles] at listed
      obtain ⟨g, before, same⟩ := List.mem_map.mp listed
      rw [← same]
      exact all t List.mem_cons_self g before
    · exact ih (fun u member => all u (List.mem_cons_of_mem _ member)) u later f inside

theorem pullCommon_total (wf : a.WellFormed) (held : ∀ f ∈ fs, ∃ n, a.get? f.handle = some n)
    (held' : ∀ t ∈ others, ∀ f ∈ t.factors, ∃ n, a.get? f.handle = some n) :
    ∃ fs' others', pullCommon a fs others = .ok (fs', others') ∧ Common a fs others fs' others' := by
  induction fs generalizing others with
  | nil => exact ⟨[], others, rfl, .nil others⟩
  | cons f fs ih =>
    have rest : ∀ g ∈ fs, ∃ n, a.get? g.handle = some n := fun g member =>
      held g (List.mem_cons_of_mem _ member)
    obtain ⟨found, read, absent, holds⟩ := pullFromAll?_total wf (held f List.mem_cons_self) held'
    unfold pullCommon
    rw [read, ok_bind]
    cases found with
    | none =>
      obtain ⟨fs', others', later, common⟩ := ih rest held'
      dsimp only
      rw [later]
      exact ⟨f :: fs', others', rfl, .passed (absent rfl) common⟩
    | some left =>
      have lost := holds left rfl
      obtain ⟨fs', others', later, common⟩ := ih rest
        (loses_handles (Q := fun x => ∃ n, a.get? x = some n) lost held')
      dsimp only
      rw [later]
      exact ⟨⟨f.handle, true⟩ :: fs', others', rfl, .pulled lost common⟩

theorem Common.handles (common : Common a fs others fs' others') :
    fs'.map TermFactor.handle = fs.map TermFactor.handle := by
  induction common with
  | nil others => rfl
  | pulled _ _ ih | passed _ _ ih => rw [List.map_cons, List.map_cons, ih]

theorem Common.other_handles {Q : Handle → Prop} (common : Common a fs others fs' others')
    (all : ∀ t ∈ others, ∀ f ∈ t.factors, Q f.handle) :
    ∀ t ∈ others', ∀ f ∈ t.factors, Q f.handle := by
  induction common with
  | nil others => exact all
  | pulled lost _ ih => exact ih (loses_handles lost all)
  | passed _ _ ih => exact ih all

theorem Common.all_negated (common : Common a fs others fs' others') :
    others'.all (·.negated) = others.all (·.negated) := by
  have lost : ∀ {factor ts ts'}, List.Forall₂ (Loses a factor) ts ts' →
      ts'.all (·.negated) = ts.all (·.negated) := by
    intro factor ts ts' loses
    induction loses with
    | nil => rfl
    | cons one _ ih => rw [List.all_cons, List.all_cons, ih, one.1]
  induction common with
  | nil others => rfl
  | pulled loses _ ih => rw [ih, lost loses]
  | passed _ _ ih => exact ih

/-- The term that is left of a split term, without the factors pulled out. -/
def left (a : Arena) (t : SplitTerm) : Term :=
  (Term.productOf (kept a t.factors)).signed t.negated

theorem builds_remainder (copies : ∀ f ∈ t.factors, a.Copies P f.handle) :
    Edit.Builds a (remainder t) (left a t) := by
  have kept : Edit.BuildsAll a ((t.factors.filter (!·.pulled)).mapM (Edit.copy ·.handle))
      (kept a t.factors) :=
    .mapM fun f member => (copies f (List.mem_of_mem_filter member)).builds
  have signed := kept.product.signed t.negated
  rwa [bind_assoc] at signed

theorem all_left (permits : Term.Permits P) (copies : ∀ f ∈ t.factors, a.Copies P f.handle) :
    (left a t).All P := by
  apply permits.all_signed
  apply permits.all_productOf
  intro u member
  obtain ⟨f, inside, rfl⟩ := List.mem_map.mp member
  exact (copies f (List.mem_of_mem_filter inside)).all

end SplitTerm

/-! ### Factoring terms -/

open SplitTerm

/-- What terms of a sum are factored into, if they have something in common. -/
inductive Factored (a : Arena) : List Handle → Option Term → Prop where
  | empty : Factored a [] none
  | common {terms : List Handle} {first : SplitTerm} {others others' : List SplitTerm}
      {fs' : List TermFactor} : List.Forall₂ (Splits a) terms (first :: others) →
      Common a first.factors others fs' others' → taken a fs' ≠ [] →
      Factored a terms (some (.productOf (.sumOf
        (({ first with factors := fs' } :: others').map (left a)) :: taken a fs')))
  | signs {terms inners : List Handle} {first : SplitTerm} {others others' : List SplitTerm}
      {fs' : List TermFactor} : List.Forall₂ (Splits a) terms (first :: others) →
      Common a first.factors others fs' others' → taken a fs' = [] →
      List.Forall₂ (fun h inner => ∃ n, a.get? h = some n ∧ n.element = .negation inner) terms inners →
      Factored a terms (some (.negation (.sumOf (inners.map a.denote))))
  | nothing {terms : List Handle} {first : SplitTerm} {others others' : List SplitTerm}
      {fs' : List TermFactor} : List.Forall₂ (Splits a) terms (first :: others) →
      Common a first.factors others fs' others' → taken a fs' = [] →
      (first :: others).all (·.negated) = false → Factored a terms none

/-- If all terms are split into a sign and factors, all terms are negations. -/
theorem inners_of_negated {ts : List SplitTerm} {terms : List Handle}
    (splits : List.Forall₂ (Splits a) terms ts) (negated : ts.all (·.negated) = true) :
    ∃ inners, terms.mapM a.negated? = .ok (inners.map some) ∧
      List.Forall₂ (fun h inner => ∃ n, a.get? h = some n ∧ n.element = .negation inner)
        terms inners := by
  induction splits with
  | nil => exact ⟨[], rfl, .nil⟩
  | @cons h t terms ts split _ ih =>
    rw [List.all_cons, Bool.and_eq_true] at negated
    obtain ⟨inners, read, holds⟩ := ih negated.2
    cases split with
    | plain _ _ => cases negated.1
    | @negated inner n m stored shape held =>
      refine ⟨inner :: inners, ?_, .cons ⟨n, stored, shape⟩ holds⟩
      rw [List.mapM_cons, negated?_of_get? stored, shape, ok_bind, read]
      rfl

/-- What can be copied of terms can still be copied when common factors are pulled out. -/
theorem SplitTerm.Common.copies {first : SplitTerm} {others others' : List SplitTerm}
    {fs' : List TermFactor} {terms : List Handle} (common : Common a first.factors others fs' others')
    (wf : a.WellFormed) (splits : List.Forall₂ (Splits a) terms (first :: others))
    (throughout : a.Throughout P) (copies : ∀ h ∈ terms, a.Copies P h) :
    ∀ t ∈ { first with factors := fs' } :: others', ∀ f ∈ t.factors, a.Copies P f.handle := by
  have handles : ∀ t ∈ first :: others, ∀ f ∈ t.factors, a.Copies P f.handle := by
    intro t member
    obtain ⟨h, inside, split⟩ := exists_of_mem_right splits member
    exact split.copies wf throughout (copies h inside)
  obtain ⟨before, before'⟩ := List.forall_mem_cons.mp handles
  refine List.forall_mem_cons.mpr ⟨fun f member => ?_, common.other_handles before'⟩
  have listed : f.handle ∈ fs'.map TermFactor.handle := List.mem_map_of_mem member
  rw [common.handles] at listed
  obtain ⟨g, inside, same⟩ := List.mem_map.mp listed
  rw [← same]
  exact before g inside

theorem split_eq_ok (wf : a.WellFormed) {terms : List Handle}
    (stored : ∀ h ∈ terms, ∃ n, a.get? h = some n) : (terms = [] ∧ split a terms = .ok []) ∨
      ∃ first others fs' others', List.Forall₂ (Splits a) terms (first :: others) ∧
        Common a first.factors others fs' others' ∧
        split a terms = .ok ({ first with factors := fs' } :: others') := by
  obtain ⟨ts, read, splits⟩ := mapM_outcome (f := SplitTerm.ofHandle a) (Q := Splits a)
    fun h member => by
      obtain ⟨n, stored⟩ := stored h member
      exact ofHandle_total wf stored
  unfold split
  rw [read, ok_bind]
  cases ts with
  | nil =>
    cases splits
    exact .inl ⟨rfl, rfl⟩
  | cons first others =>
    have handles : ∀ t ∈ first :: others, ∀ f ∈ t.factors, ∃ n, a.get? f.handle = some n := by
      intro t member
      obtain ⟨h, _, split⟩ := exists_of_mem_right splits member
      exact split.stored wf
    obtain ⟨held, held'⟩ := List.forall_mem_cons.mp handles
    obtain ⟨fs', others', pulled, common⟩ := pullCommon_total wf held held'
    dsimp only
    rw [pulled]
    exact .inr ⟨first, others, fs', others', splits, common, rfl⟩

section Parts

variable {terms : List Handle} {first : SplitTerm} {fs' : List TermFactor}
  {others others' : List SplitTerm} (wf : a.WellFormed)
  (read : split a terms = .ok ({ first with factors := fs' } :: others'))

include wf read

/-- The common factors follow the sum of what is left of the terms. -/
theorem factored?_of_common (pulled : taken a fs' ≠ [])
    (copies : ∀ t ∈ { first with factors := fs' } :: others', ∀ f ∈ t.factors,
      a.Copies P f.handle) :
    (factored? terms).OffersOne a (some (.productOf (.sumOf
      (({ first with factors := fs' } :: others').map (left a)) :: taken a fs'))) := by
  have sum := (Edit.BuildsAll.mapM fun t member => builds_remainder (copies t member)).sum
  have commons : Edit.BuildsAll a ((fs'.filter (·.pulled)).mapM (Edit.copy ·.handle)) (taken a fs') :=
    .mapM fun f member =>
      ((List.forall_mem_cons.mp copies).1 f (List.mem_of_mem_filter member)).builds
  obtain ⟨s, b, run, adds⟩ := sum a (.refl a) wf
  obtain ⟨cs, c, run', adds'⟩ := commons b adds.retains adds.wf
  obtain ⟨r, d, run'', adds''⟩ := Edit.run_product_adds (adds.trans adds') wf
  rw [List.singleton_append] at run''
  refine ⟨r, d, ?_, adds''⟩
  have some : (fs'.filter (·.pulled)).isEmpty = false := by
    rw [List.isEmpty_eq_false_iff]
    exact fun none => pulled (by rw [taken, none]; rfl)
  rw [factored?, Edit.run_bind_of_ok (Edit.run_inspect_of_ok read)]
  dsimp only [List.head?]
  rw [some]
  simp only [Bool.not_false, if_true]
  rw [← bind_assoc, Edit.run_bind_of_ok run, Edit.run_bind_of_ok run', Edit.run_bind_of_ok run'']
  rfl

/-- The sign that all terms have goes in front of the sum of what they negate. -/
theorem factored?_of_signs (apart : taken a fs' = [])
    (negated : ({ first with factors := fs' } :: others').all (·.negated) = true)
    {inners : List Handle} (listed : terms.mapM a.negated? = .ok (inners.map some))
    (copies : ∀ h ∈ inners, Edit.Builds a (Edit.copy h) (a.denote h)) :
    (factored? terms).OffersOne a (some (.negation (.sumOf (inners.map a.denote)))) := by
  have signed := (Edit.BuildsAll.mapM copies).sum.negation
  obtain ⟨r, b, run, adds⟩ := signed a (.refl a) wf
  refine ⟨r, b, ?_, adds⟩
  have none : (fs'.filter (·.pulled)).isEmpty = true := by
    rw [List.isEmpty_iff]
    exact List.map_eq_nil_iff.mp apart
  have found : (inners.map some).filterMap id = inners := by simp
  rw [factored?, Edit.run_bind_of_ok (Edit.run_inspect_of_ok read)]
  dsimp only [List.head?]
  rw [none, negated]
  simp only [Bool.not_true, Bool.false_eq_true, if_false, if_true]
  rw [Edit.run_bind_of_ok (Edit.run_inspect_of_ok listed), found, ← bind_assoc, ← bind_assoc,
    Edit.run_bind_of_ok run]
  rfl

omit wf in
theorem factored?_of_nothing (apart : taken a fs' = [])
    (positive : ({ first with factors := fs' } :: others').all (·.negated) = false) :
    (factored? terms).OffersOne a none := by
  have none : (fs'.filter (·.pulled)).isEmpty = true := by
    rw [List.isEmpty_iff]
    exact List.map_eq_nil_iff.mp apart
  change (factored? terms).run a = _
  rw [factored?, Edit.run_bind_of_ok (Edit.run_inspect_of_ok read)]
  dsimp only [List.head?]
  rw [none, positive]
  rfl

end Parts

/-- Terms that can be copied are factored, unless they have nothing in common. -/
theorem factored?_total (wf : a.WellFormed) {terms : List Handle} (throughout : a.Throughout P)
    (stored : ∀ h ∈ terms, ∃ n, a.get? h = some n) (copies : ∀ h ∈ terms, a.Copies P h) :
    ∃ found, (factored? terms).OffersOne a found ∧ Factored a terms found := by
  obtain ⟨rfl, read⟩ | ⟨first, others, fs', others', splits, common, read⟩ := split_eq_ok wf stored
  · refine ⟨none, ?_, .empty⟩
    change (factored? []).run a = _
    rw [factored?, Edit.run_bind_of_ok (Edit.run_inspect_of_ok read)]
    rfl
  have copied := common.copies wf splits throughout copies
  -- signs are factored out only if no other factor is
  by_cases apart : taken a fs' = []
  case neg => exact ⟨_, factored?_of_common wf read apart copied, .common splits common apart⟩
  have same : ({ first with factors := fs' } :: others').all (·.negated) =
      (first :: others).all (·.negated) := by
    rw [List.all_cons, List.all_cons, common.all_negated]
  cases negated : (first :: others).all (·.negated) with
  | false =>
    exact ⟨none, factored?_of_nothing read apart (same.trans negated),
      .nothing splits common apart negated⟩
  | true =>
    obtain ⟨inners, listed, holds⟩ := inners_of_negated splits negated
    refine ⟨_, factored?_of_signs wf read apart (same.trans negated) listed fun inner member => ?_,
      .signs splits common apart holds⟩
    obtain ⟨h, _, n, stored, shape⟩ := exists_of_mem_right holds member
    exact wf.builds_copy_of_owner?
      (wf.records stored inner (by rw [shape]; exact List.mem_singleton_self inner))

theorem Factored.all {terms : List Handle} {t : Term} (factored : Factored a terms (some t))
    (wf : a.WellFormed) (permits : Term.Permits P) (throughout : a.Throughout P)
    (copies : ∀ h ∈ terms, a.Copies P h) : t.All P := by
  cases factored with
  | common splits common _ =>
    have copied := common.copies wf splits throughout copies
    apply permits.all_productOf
    intro u member
    rcases List.mem_cons.mp member with rfl | pulled
    · apply permits.all_sumOf
      intro u member
      obtain ⟨t, inside, rfl⟩ := List.mem_map.mp member
      exact all_left permits (copied t inside)
    · obtain ⟨f, inside, rfl⟩ := List.mem_map.mp pulled
      exact ((List.forall_mem_cons.mp copied).1 f (List.mem_of_mem_filter inside)).all
  | signs _ _ _ inners =>
    apply permits.all_negation
    apply permits.all_sumOf
    intro u member
    obtain ⟨inner, inside, rfl⟩ := List.mem_map.mp member
    obtain ⟨h, _, n, stored, shape⟩ := exists_of_mem_right inners inside
    exact throughout (wf.records stored inner (by rw [shape]; exact List.mem_singleton_self inner))

/-- Factoring does nothing, or puts what the terms are factored into in the place of the first one
and removes the others. -/
theorem run_factor_eq_ok (wf : a.WellFormed) (stored : ∀ h ∈ hs, ∃ n, a.get? h = some n)
    (others : ∀ h ∈ hs, h ≠ a.root) (run : (factor p hs).run a = .ok r b) :
    (r = none ∧ b = a) ∨ ∃ n first rest t x d c s, a.get? p = some n ∧ n.element.kind = .sum ∧
      hs = first :: rest ∧ Factored a hs (some t) ∧ a.Adds [t] [x] d ∧
      (Edit.replace p first x).run d = .ok () c ∧ (Edit.removeChildren p rest).run c = .ok s b ∧
      r = some [x] := by
  have copies : ∀ h ∈ hs, a.Copies (·.kind ≠ .root) h := by
    intro h member
    obtain ⟨m, held⟩ := stored h member
    exact wf.copies_of_ne_root held (others h member)
  obtain ⟨found, offers, factored⟩ := factored?_total wf wf.throughout_unwrapped stored copies
  unfold factor at run
  rw [Edit.kindOf, Edit.run_inspect_bind] at run
  obtain ⟨kind, read, run⟩ := run
  obtain ⟨n, held, rfl⟩ := kind_eq_ok.mp read
  split at run
  · exact .inl ⟨by cases run; rfl, by cases run; rfl⟩
  rename_i kind
  rw [Edit.parentOf, Edit.run_inspect_bind] at run
  obtain ⟨owner, _, run⟩ := run
  split at run
  · exact .inl ⟨by cases run; rfl, by cases run; rfl⟩
  rcases hs with _ | ⟨first, _ | ⟨second, rest⟩⟩
  · exact .inl ⟨by cases run; rfl, by cases run; rfl⟩
  · exact .inl ⟨by cases run; rfl, by cases run; rfl⟩
  dsimp only at run
  cases found with
  | none =>
    rw [Edit.run_bind_of_ok offers] at run
    exact .inl ⟨by cases run; rfl, by cases run; rfl⟩
  | some t =>
    obtain ⟨x, d, same, adds⟩ := offers
    rw [Edit.run_bind_of_ok same] at run
    dsimp only at run
    obtain ⟨_, c, replaced, run⟩ := Edit.run_bind_eq_ok.mp run
    obtain ⟨s, _, removed, run⟩ := Edit.run_bind_eq_ok.mp run
    cases run
    exact .inr ⟨n, first, second :: rest, t, x, d, c, s, held, not_not.mp kind, rfl, factored, adds,
      replaced, removed, rfl⟩

/-! ### Values -/

section Value

variable {R : Type*} [CommRing R] (I : Interpretation R)

namespace SplitTerm

variable {factor : Handle} {fs fs' : List TermFactor} {t : SplitTerm} {ts ts' others others' : List SplitTerm}

/-- The value of the factors that are not pulled out. -/
def keptValue (a : Arena) (fs : List TermFactor) : R :=
  ((fs.filter (!·.pulled)).map (a.value I ·.handle)).prod

/-- The value of the factors that are pulled out. -/
def takenValue (a : Arena) (fs : List TermFactor) : R :=
  ((fs.filter (·.pulled)).map (a.value I ·.handle)).prod

theorem eval_left : (left a t).eval I =
    if t.negated then -keptValue I a t.factors else keptValue I a t.factors := by
  rw [left, kept, Term.eval_signed, Term.eval_productOf, List.map_map]
  rfl

theorem keptValue_untouched {factors : List Handle} :
    keptValue I a (factors.map (⟨·, false⟩)) = (factors.map (a.value I)).prod := by
  rw [keptValue, List.filter_eq_self.mpr, List.map_map]
  · rfl
  · intro f member
    obtain ⟨x, _, rfl⟩ := List.mem_map.mp member
    rfl

theorem prod_factorsOf (wf : a.WellFormed) (stored : a.get? h = some n) :
    ((factorsOf h n.element).map (a.value I)).prod = a.value I h := by
  cases shape : n.element with
  | product factors =>
    rw [wf.value_eq I stored, shape]
    rfl
  | _ => exact List.prod_singleton

/-- A split term is worth the term. -/
theorem Splits.eval_left (splits : Splits a h t) (wf : a.WellFormed) :
    (left a t).eval I = a.value I h := by
  rw [SplitTerm.eval_left]
  cases splits with
  | plain stored _ =>
    rw [keptValue_untouched, prod_factorsOf I wf stored]
    rfl
  | negated stored shape held =>
    rw [keptValue_untouched, prod_factorsOf I wf held, wf.value_eq I stored, shape]
    rfl

theorem Pulled.kept_eq (pulled : Pulled a factor fs fs') :
    keptValue I a fs = a.value I factor * keptValue I a fs' := by
  induction pulled with
  | @here f rest free equal =>
    have same : a.value I f.handle = a.value I factor := congrArg (Term.eval I) equal
    simp [keptValue, free, same]
  | @later f rest rest' _ _ ih =>
    cases free : f.pulled with
    | true => simpa [keptValue, free] using ih
    | false =>
      simp only [keptValue, free, List.filter_cons, Bool.not_false, if_true, List.map_cons,
        List.prod_cons] at ih ⊢
      rw [ih]
      ring

/-- What is pulled out of all terms is a factor of their sum. -/
theorem sum_left_of_loses (loses : List.Forall₂ (Loses a factor) ts ts') :
    ((ts.map (left a)).map (Term.eval I)).sum =
      a.value I factor * ((ts'.map (left a)).map (Term.eval I)).sum := by
  induction loses with
  | nil => simp
  | @cons t t' ts ts' lost _ ih =>
    simp only [List.map_cons, List.sum_cons]
    rw [ih, eval_left, eval_left, lost.1, lost.2.kept_eq I]
    split <;> ring

/-- What is pulled out of the first term is a factor of it and of the sum of the others. -/
theorem Common.sum_left (common : Common a fs others fs' others')
    (untouched : ∀ f ∈ fs, f.pulled = false) : keptValue I a fs = takenValue I a fs' * keptValue I a fs' ∧
      ((others.map (left a)).map (Term.eval I)).sum =
        takenValue I a fs' * ((others'.map (left a)).map (Term.eval I)).sum := by
  induction common with
  | nil others => simp [keptValue, takenValue]
  | @pulled f fs fs' others left' others' loses _ ih =>
    obtain ⟨free, untouched⟩ := List.forall_mem_cons.mp untouched
    obtain ⟨first, rest⟩ := ih untouched
    rw [sum_left_of_loses I loses, rest]
    simp only [keptValue, takenValue, free, List.filter_cons, Bool.not_false, Bool.not_true, if_true,
      Bool.false_eq_true, if_false, List.map_cons, List.prod_cons] at first ⊢
    rw [first]
    constructor <;> ring
  | @passed f fs fs' others others' _ _ ih =>
    obtain ⟨free, untouched⟩ := List.forall_mem_cons.mp untouched
    obtain ⟨first, rest⟩ := ih untouched
    simp only [keptValue, takenValue, free, List.filter_cons, Bool.not_false, if_true,
      Bool.false_eq_true, if_false, List.map_cons, List.prod_cons] at first rest ⊢
    rw [first]
    exact ⟨by ring, rest⟩

theorem Splits.untouched (splits : Splits a h t) : ∀ f ∈ t.factors, f.pulled = false := by
  intro f member
  cases splits with
  | plain _ _ | negated _ _ _ =>
    obtain ⟨x, _, rfl⟩ := List.mem_map.mp member
    rfl

theorem sum_left_of_splits (wf : a.WellFormed) {terms : List Handle}
    (splits : List.Forall₂ (Splits a) terms ts) :
    ((ts.map (left a)).map (Term.eval I)).sum = (terms.map (a.value I)).sum := by
  induction splits with
  | nil => rfl
  | cons one _ ih =>
    simp only [List.map_cons, List.sum_cons]
    rw [ih, one.eval_left I wf]

end SplitTerm

theorem sum_inners (wf : a.WellFormed) {terms inners : List Handle}
    (negations : List.Forall₂
      (fun h inner => ∃ n, a.get? h = some n ∧ n.element = .negation inner) terms inners) :
    -(inners.map (a.value I)).sum = (terms.map (a.value I)).sum := by
  induction negations with
  | nil => simp
  | cons one _ ih =>
    obtain ⟨n, stored, shape⟩ := one
    rw [List.map_cons, List.map_cons, List.sum_cons, List.sum_cons, ← ih, wf.value_eq I stored,
      shape, Element.value]
    ring

/-- What terms are factored into is worth their sum. -/
theorem Factored.value_eq {terms : List Handle} {t : Term} (factored : Factored a terms (some t))
    (wf : a.WellFormed) : t.eval I = (terms.map (a.value I)).sum := by
  cases factored with
  | @common _ first others others' fs' splits common _ =>
    have untouched : ∀ f ∈ first.factors, f.pulled = false := by
      cases splits with
      | cons split _ => exact split.untouched
    obtain ⟨alone, rest⟩ := common.sum_left I untouched
    have pulled : ((taken a fs').map (Term.eval I)).prod = takenValue I a fs' := by
      rw [taken, List.map_map]
      rfl
    rw [← sum_left_of_splits I wf splits, Term.eval_productOf, List.map_cons, List.prod_cons,
      pulled, Term.eval_sumOf]
    simp only [List.map_cons, List.sum_cons]
    rw [rest, SplitTerm.eval_left, SplitTerm.eval_left]
    dsimp only
    rw [alone]
    split <;> ring
  | signs _ _ _ negations =>
    rw [← sum_inners I wf negations, Term.eval, Term.eval_sumOf, List.map_map]
    rfl

theorem factor_sameValue (wf : a.WellFormed) (stored : ∀ h ∈ hs, ∃ n, a.get? h = some n)
    (others : ∀ h ∈ hs, h ≠ a.root) (run : (factor p hs).run a = .ok r b) : SameValue I a b := by
  rcases run_factor_eq_ok wf stored others run with ⟨_, rfl⟩ |
    ⟨n, first, rest, t, x, d, c, s, held, sum, rfl, factored, adds, replaced, removed, _⟩
  · exact .refl wf
  exact Edit.gather_sameValue wf held sum
    (fun x member => stored x (List.mem_cons_of_mem _ member)) adds (factored.value_eq I wf)
    replaced removed

theorem factorAllTerms_sameValue (wf : a.WellFormed) (run : (factorAllTerms h).run a = .ok r b) :
    SameValue I a b := by
  unfold factorAllTerms at run
  rw [Edit.kindOf, Edit.run_inspect_bind] at run
  obtain ⟨kind, _, run⟩ := run
  split at run
  · cases run
    exact .refl wf
  · rw [Edit.childrenOf, Edit.run_inspect_bind] at run
    obtain ⟨_, listed, run⟩ := run
    obtain ⟨n, stored, rfl⟩ := children_eq_ok.mp listed
    exact factor_sameValue I wf (wf.stored_children stored)
      (fun x member => wf.ne_root_of_mem_children stored member) run

end Value

end Law

end AlgebraEditor
