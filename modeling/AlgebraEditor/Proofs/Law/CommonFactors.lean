import AlgebraEditor.Proofs.Law.Factoring
import Mathlib.Data.List.Lattice

/-!
# Common factors

Factoring goes through the factors of the first term and marks one equal factor in every other term,
or none at all. What it pulls out in this way is the intersection of the factors of all terms, counted
with repetitions, and what is left of each term is the difference.
-/

namespace AlgebraEditor

/-! ### Intersections of many lists -/

section Intersection

variable {α : Type*} [DecidableEq α] {x c : α} {l g : List α} {gs : List (List α)}

/-- What all lists have in common, each element as often as every list has it, in the order of the
first list. -/
def inCommon : List (List α) → List α
  | [] => []
  | l :: gs => gs.foldl List.bagInter l

/-- What lists have in common, to the last occurrence, in the order of the first list. -/
structure Intersection (gs : List (List α)) (cs : List α) : Prop where
  shared : ∀ g ∈ gs, ∀ c, cs.count c ≤ g.count c
  greatest : gs ≠ [] → ∀ c, ∃ g ∈ gs, cs.count c = g.count c
  ordered : ∀ l ∈ gs.head?, cs.Sublist l

theorem intersection_foldl (l : List α) (gs : List (List α)) :
    Intersection (l :: gs) (gs.foldl List.bagInter l) := by
  induction gs generalizing l with
  | nil => exact ⟨by simp, by simp, by simp⟩
  | cons g gs ih =>
    obtain ⟨shared, greatest, ordered⟩ := ih (l.bagInter g)
    obtain ⟨first, rest⟩ := List.forall_mem_cons.mp shared
    have both : ∀ c, (l.bagInter g).count c = min (l.count c) (g.count c) := fun c =>
      List.count_bagInter
    have below : ∀ c, (gs.foldl List.bagInter (l.bagInter g)).count c ≤ min (l.count c) (g.count c) :=
      fun c => (both c) ▸ first c
    refine ⟨?_, fun _ c => ?_, ?_⟩
    · refine List.forall_mem_cons.mpr ⟨fun c => ?_, List.forall_mem_cons.mpr ⟨fun c => ?_, rest⟩⟩
      · exact (below c).trans (min_le_left _ _)
      · exact (below c).trans (min_le_right _ _)
    · obtain ⟨k, member, same⟩ := greatest (List.cons_ne_nil _ _) c
      rcases List.mem_cons.mp member with rfl | later
      · rw [List.foldl_cons, same, both]
        rcases min_choice (l.count c) (g.count c) with left | right
        · exact ⟨l, by simp, left⟩
        · exact ⟨g, by simp, right⟩
      · exact ⟨k, by simp [later], same⟩
    · simpa using (ordered _ rfl).trans List.bagInter_sublist_left

theorem intersection_inCommon (gs : List (List α)) : Intersection gs (inCommon gs) := by
  cases gs with
  | nil => exact ⟨by simp, nofun, by simp⟩
  | cons l gs => exact intersection_foldl l gs

namespace Intersection

variable {cs : List α}

theorem mem_of_mem (common : Intersection gs cs) (member : c ∈ cs) (listed : g ∈ gs) : c ∈ g := by
  rw [← List.count_pos_iff] at member ⊢
  exact member.trans_le (common.shared g listed c)

theorem mem_iff (common : Intersection gs cs) (nonempty : gs ≠ []) : c ∈ cs ↔ ∀ g ∈ gs, c ∈ g := by
  refine ⟨fun member _ => common.mem_of_mem member, fun each => ?_⟩
  obtain ⟨g, listed, same⟩ := common.greatest nonempty c
  rw [← List.count_pos_iff, same]
  exact List.count_pos_iff.mpr (each g listed)

/-- Something is in common exactly if some element is in every list. -/
theorem ne_nil_iff (common : Intersection gs cs) (nonempty : gs ≠ []) :
    cs ≠ [] ↔ ∃ c, ∀ g ∈ gs, c ∈ g := by
  constructor
  · intro more
    obtain ⟨c, member⟩ := List.exists_mem_of_ne_nil cs more
    exact ⟨c, (common.mem_iff nonempty).mp member⟩
  · rintro ⟨c, each⟩
    exact List.ne_nil_of_mem ((common.mem_iff nonempty).mpr each)

end Intersection

theorem foldl_bagInter_cons_of_mem (each : ∀ g ∈ gs, x ∈ g) :
    gs.foldl List.bagInter (x :: l) = x :: (gs.map (·.erase x)).foldl List.bagInter l := by
  induction gs generalizing l with
  | nil => rfl
  | cons g gs ih =>
    obtain ⟨first, rest⟩ := List.forall_mem_cons.mp each
    rw [List.foldl_cons, List.cons_bagInter_of_mem l first, ih rest, List.map_cons, List.foldl_cons]

theorem bagInter_erase_of_notMem (absent : x ∉ l) (g : List α) :
    l.bagInter (g.erase x) = l.bagInter g := by
  induction l generalizing g with
  | nil => simp
  | cons y l ih =>
    obtain ⟨other, rest⟩ := List.ne_and_not_mem_of_not_mem_cons absent
    have kept : y ∈ g.erase x ↔ y ∈ g := List.mem_erase_of_ne (Ne.symm other)
    by_cases member : y ∈ g
    · rw [List.cons_bagInter_of_mem _ member, List.cons_bagInter_of_mem _ (kept.mpr member),
        List.erase_comm, ih rest]
    · rw [List.cons_bagInter_of_not_mem _ member, List.cons_bagInter_of_not_mem _ (mt kept.mp member),
        ih rest]

theorem filter_bagInter (x : α) (l g : List α) :
    (l.bagInter g).filter (· ≠ x) = (l.filter (· ≠ x)).bagInter g := by
  induction l generalizing g with
  | nil => simp
  | cons y l ih =>
    by_cases member : y ∈ g
    · rw [List.cons_bagInter_of_mem _ member]
      by_cases same : y = x
      · subst same
        have absent : y ∉ l.filter (· ≠ y) := by simp
        simp only [ne_eq, not_true, decide_false, Bool.false_eq_true, not_false_eq_true,
          List.filter_cons_of_neg]
        rw [ih, bagInter_erase_of_notMem absent]
      · rw [List.filter_cons_of_pos (by simpa using same), List.filter_cons_of_pos (by simpa using same),
          List.cons_bagInter_of_mem _ member, ih]
    · rw [List.cons_bagInter_of_not_mem _ member, ih]
      by_cases same : y = x
      · rw [List.filter_cons_of_neg (by simpa using same)]
      · rw [List.filter_cons_of_pos (by simpa using same), List.cons_bagInter_of_not_mem _ member]

/-- What one of the lists does not have may be left out of the first list. -/
theorem foldl_bagInter_filter (missing : ∃ g ∈ gs, x ∉ g) (l : List α) :
    gs.foldl List.bagInter (l.filter (· ≠ x)) = gs.foldl List.bagInter l := by
  -- leaving out `x` first or last is the same, and there is no `x` left to leave out last
  have pass : ∀ (gs : List (List α)) (l : List α), (gs.foldl List.bagInter l).filter (· ≠ x) =
      gs.foldl List.bagInter (l.filter (· ≠ x)) := by
    intro gs
    induction gs with
    | nil => exact fun _ => rfl
    | cons g gs ih => exact fun l => by rw [List.foldl_cons, ih, filter_bagInter, List.foldl_cons]
  obtain ⟨g, listed, absent⟩ := missing
  have gone : x ∉ gs.foldl List.bagInter l := fun member =>
    absent ((intersection_foldl l gs).mem_of_mem member (List.mem_cons_of_mem l listed))
  rw [← pass, List.filter_eq_self.mpr]
  intro y member
  simpa using fun same : y = x => gone (same ▸ member)

theorem foldl_bagInter_cons_of_notMem (missing : ∃ g ∈ gs, x ∉ g) :
    gs.foldl List.bagInter (x :: l) = gs.foldl List.bagInter l := by
  rw [← foldl_bagInter_filter missing (x :: l), List.filter_cons_of_neg (by simp),
    foldl_bagInter_filter missing l]

end Intersection

/-! ### Terms as signs and factors -/

namespace Term

/-- Whether there is a sign in front of the term. -/
def isNegated : Term → Bool
  | negation _ => true
  | _ => false

/-- What stands behind the sign of a term, if there is one. -/
def unsigned : Term → Term
  | negation t => t
  | t => t

/-- The factors of what stands behind the sign. What is not a product is its own single factor. -/
def factors (t : Term) : List Term :=
  match t.unsigned with
  | product ts => ts
  | base => [base]

/-- The factors that all terms have, each as often as every term has it. -/
def commonFactors (ts : List Term) : List Term := inCommon (ts.map factors)

/-- What is left of a term if some of its factors are pulled out, with the sign of the term. -/
def without (t : Term) (cs : List Term) : Term := (productOf (t.factors.diff cs)).signed t.isNegated

end Term

namespace Law

open Arena SplitTerm

variable {a : Arena} {h factor : Handle} {fs fs' : List TermFactor} {t : SplitTerm}
  {ts ts' others others' : List SplitTerm}

namespace SplitTerm

/-- A split term has the sign and the factors of what the term denotes. -/
theorem Splits.denotes (splits : Splits a h t) (wf : a.WellFormed) :
    t.negated = (a.denote h).isNegated ∧ kept a t.factors = (a.denote h).factors := by
  have untouched : ∀ hs : List Handle, kept a (hs.map (⟨·, false⟩)) = hs.map a.denote := by
    intro hs
    rw [kept, List.filter_eq_self.mpr (by simp), List.map_map]
    rfl
  have base : ∀ {h n}, a.get? h = some n → (factorsOf h n.element).map a.denote =
      match a.denote h with
      | .product ts => ts
      | base => [base] := by
    intro h n stored
    rw [wf.denote_eq stored]
    cases shape : n.element <;> simp [factorsOf, Element.toTerm, wf.denote_eq stored, shape]
  cases splits with
  | @plain n stored positive =>
    have unsigned : (a.denote h).unsigned = a.denote h ∧ (a.denote h).isNegated = false := by
      rw [wf.denote_eq stored]
      cases shape : n.element <;> simp_all [Element.toTerm, Term.unsigned, Term.isNegated,
        Element.negated?]
    exact ⟨unsigned.2.symm, by rw [untouched, base stored, Term.factors, unsigned.1]⟩
  | @negated inner n m stored shape held =>
    rw [untouched, base held, wf.denote_eq stored, shape]
    exact ⟨rfl, rfl⟩

theorem Pulled.kept_eq_erase (pulled : Pulled a factor fs fs') :
    a.denote factor ∈ kept a fs ∧ kept a fs' = (kept a fs).erase (a.denote factor) := by
  induction pulled with
  | @here f rest free equal => simp [kept, free, equal]
  | @later f rest rest' other _ ih =>
    cases free : f.pulled with
    | true => simpa [kept, free] using ih
    | false =>
      have different := other free
      simp only [kept, free, List.filter_cons, Bool.not_false, if_true, List.map_cons] at ih ⊢
      exact ⟨List.mem_cons_of_mem _ ih.1, by rw [List.erase_cons_tail (by simpa using different), ih.2]⟩

/-- What is left of a term if more factors are pulled out of it. -/
def leftWithout (a : Arena) (cs : List Term) (t : SplitTerm) : Term :=
  (Term.productOf ((kept a t.factors).diff cs)).signed t.negated

theorem kept_of_loses (loses : List.Forall₂ (Loses a factor) ts ts') :
    (∀ g ∈ ts.map (kept a ·.factors), a.denote factor ∈ g) ∧
      ts'.map (kept a ·.factors) = (ts.map (kept a ·.factors)).map (·.erase (a.denote factor)) ∧
      ∀ cs, ts'.map (leftWithout a cs) = ts.map (leftWithout a (a.denote factor :: cs)) := by
  induction loses with
  | nil => simp
  | cons lost _ ih =>
    obtain ⟨member, erased⟩ := lost.2.kept_eq_erase
    obtain ⟨each, rest, left⟩ := ih
    simp only [List.map_cons, List.forall_mem_cons]
    refine ⟨⟨member, each⟩, by rw [erased, rest], fun cs => ?_⟩
    rw [left, leftWithout, leftWithout, erased, lost.1, List.diff_cons]

/-- What is pulled out is what the terms have in common, and what is left is the difference. -/
theorem Common.taken_eq (common : Common a fs others fs' others')
    (untouched : ∀ f ∈ fs, f.pulled = false) :
    taken a fs' = (others.map (kept a ·.factors)).foldl List.bagInter (kept a fs) ∧
      kept a fs' = (kept a fs).diff (taken a fs') ∧
      others'.map (left a) = others.map (leftWithout a (taken a fs')) := by
  induction common with
  | nil others =>
    exact ⟨(List.sublist_nil.mp ((intersection_foldl [] _).ordered _ rfl)).symm, rfl, rfl⟩
  | @pulled f fs fs' others left others' loses _ ih =>
    obtain ⟨free, untouched⟩ := List.forall_mem_cons.mp untouched
    obtain ⟨each, erased, without⟩ := kept_of_loses loses
    obtain ⟨common, first, rest⟩ := ih untouched
    have before : kept a (f :: fs) = a.denote f.handle :: kept a fs := by simp [kept, free]
    have after : kept a (⟨f.handle, true⟩ :: fs') = kept a fs' := by simp [kept]
    have more : taken a (⟨f.handle, true⟩ :: fs') = a.denote f.handle :: taken a fs' := by simp [taken]
    -- what is pulled out after `f` is the intersection with one `f` less in every other term
    rw [erased] at common
    rw [before, after, more, foldl_bagInter_cons_of_mem each, List.diff_cons, List.erase_cons_head,
      rest, without]
    exact ⟨congrArg _ common, first, rfl⟩
  | @passed f fs fs' others others' missing _ ih =>
    obtain ⟨free, untouched⟩ := List.forall_mem_cons.mp untouched
    obtain ⟨common, first, rest⟩ := ih untouched
    obtain ⟨t, member, absent⟩ := missing
    have listed : kept a t.factors ∈ others.map (kept a ·.factors) :=
      List.mem_map_of_mem (f := (kept a ·.factors)) member
    have before : kept a (f :: fs) = a.denote f.handle :: kept a fs := by simp [kept, free]
    have after : kept a (f :: fs') = a.denote f.handle :: kept a fs' := by simp [kept, free]
    have same : taken a (f :: fs') = taken a fs' := by simp [taken, free]
    -- nothing equal to `f` is pulled out later either, so that the difference passes over `f`
    have outside : a.denote f.handle ∉ taken a fs' := by
      rw [common]
      exact fun inside => absent ((intersection_foldl _ _).mem_of_mem inside
        (List.mem_cons_of_mem _ listed))
    rw [before, after, same, foldl_bagInter_cons_of_notMem ⟨_, listed, absent⟩]
    exact ⟨common, by rw [List.cons_diff_of_not_mem outside, first], rest⟩

/-- Split terms have the signs and the factors of what the terms denote. -/
theorem denotes_of_splits {terms : List Handle} (splits : List.Forall₂ (Splits a) terms ts)
    (wf : a.WellFormed) : ts.map (·.negated) = (terms.map a.denote).map Term.isNegated ∧
      ts.map (kept a ·.factors) = (terms.map a.denote).map Term.factors ∧
      ∀ cs, ts.map (leftWithout a cs) = (terms.map a.denote).map (·.without cs) := by
  induction splits with
  | nil => exact ⟨rfl, rfl, fun _ => rfl⟩
  | cons split _ ih =>
    obtain ⟨sign, factors⟩ := split.denotes wf
    obtain ⟨signs, read, without⟩ := ih
    simp only [List.map_cons]
    exact ⟨by rw [sign, signs], by rw [factors, read], fun cs => by
      rw [without, leftWithout, sign, factors]; rfl⟩

/-- The factors pulled out of split terms are the common factors of what the terms denote. -/
theorem Common.denotes {first : SplitTerm} {terms : List Handle}
    (common : Common a first.factors others fs' others')
    (splits : List.Forall₂ (Splits a) terms (first :: others)) (wf : a.WellFormed) :
    taken a fs' = Term.commonFactors (terms.map a.denote) ∧
      ({ first with factors := fs' } :: others').map (left a) =
        (terms.map a.denote).map (·.without (taken a fs')) := by
  obtain ⟨-, factors, without⟩ := denotes_of_splits splits wf
  have untouched : ∀ f ∈ first.factors, f.pulled = false := by
    cases splits with
    | cons split _ => exact split.untouched
  obtain ⟨pulled, here, rest⟩ := common.taken_eq untouched
  constructor
  · rw [Term.commonFactors, ← factors, pulled]
    rfl
  · rw [← without, List.map_cons, List.map_cons, rest, left, leftWithout, here]

end SplitTerm

end Law

end AlgebraEditor
