import AlgebraEditor.Proofs.Law.Quiet
import AlgebraEditor.Proofs.Renaming.Editing

/-!
# Laws under other names

The laws only look at handles to tell elements apart. So each law, and each action that applies it,
is followed under other names: it does the same to the renamed elements and answers with them.
-/

namespace AlgebraEditor

open Function (Injective)

variable {f : Handle → Handle} {a b : Arena}

/-! ### What the laws look at -/

namespace Law

/-- The factor under another name. -/
def TermFactor.rename (f : Handle → Handle) (x : TermFactor) : TermFactor := ⟨f x.handle, x.pulled⟩

/-- The split term with its factors under other names. -/
def SplitTerm.rename (f : Handle → Handle) (t : SplitTerm) : SplitTerm :=
  ⟨t.negated, t.factors.map (TermFactor.rename f)⟩

theorem lowestNeighbor?_map (inj : Injective f) (siblings removed : List Handle) :
    lowestNeighbor? (siblings.map f) (removed.map f) = (lowestNeighbor? siblings removed).map f := by
  have positions : (removed.map f).filterMap ((siblings.map f).idxOf? ·) =
      removed.filterMap (siblings.idxOf? ·) := by
    rw [List.filterMap_map]
    exact congrArg (List.filterMap · removed) (funext fun h => idxOf?_map inj siblings h)
  have kept : ∀ i : Nat, ((siblings.map f)[i]?).any (!(removed.map f).contains ·) =
      (siblings[i]?).any (!removed.contains ·) := by
    intro i
    rw [List.getElem?_map, Option.any_map]
    exact congrArg (Option.any · _) (funext fun h => congrArg _ (contains_map inj removed h))
  unfold lowestNeighbor?
  simp only [positions, kept]
  simp only [List.getElem?_map, Option.map_bind]
  rfl

end Law

namespace Arena.Embeds

open Law

variable (e : a.Embeds f b)

include e

theorem firstOfKind? (kind : Kind) (hs : List Handle) :
    Mirrors (Option.map f) (firstOfKind? a kind hs) (firstOfKind? b kind (hs.map f)) := by
  induction hs with
  | nil => exact .pure rfl
  | cons h rest ih =>
    exact (e.kind h).bind fun k => .guard Iff.rfl (fun _ => .pure rfl) fun _ => ih

theorem splitTerm (h : Handle) :
    Mirrors (SplitTerm.rename f) (SplitTerm.ofHandle a h) (SplitTerm.ofHandle b (f h)) := by
  refine (e.negated? h).bind fun inner => ?_
  have base : (inner.map f).getD (f h) = f (inner.getD h) := by cases inner <;> rfl
  rw [base]
  refine (e.element (inner.getD h)).bind fun x => ?_
  cases x with
  | product factors => exact .pure (by simp [SplitTerm.rename, TermFactor.rename])
  | _ => exact .pure (by simp [SplitTerm.rename, TermFactor.rename])

theorem pull? (factor : Handle) (xs : List TermFactor) :
    Mirrors (Option.map (List.map (TermFactor.rename f))) (SplitTerm.pull? a factor xs)
      (SplitTerm.pull? b (f factor) (xs.map (TermFactor.rename f))) := by
  induction xs with
  | nil => exact .pure rfl
  | cons x rest ih =>
    have later : Mirrors (Option.map (List.map (TermFactor.rename f)))
        (do return (← SplitTerm.pull? a factor rest).map (x :: ·))
        (do
          let found ← SplitTerm.pull? b (f factor) (rest.map (TermFactor.rename f))
          return found.map (x.rename f :: ·)) :=
      ih.map fun found => by cases found <;> rfl
    refine .guard Iff.rfl (fun _ => ?_) fun _ => later
    refine (e.equal x.handle factor).bind fun same => ?_
    exact .guard Iff.rfl (fun _ => .pure rfl) fun _ => later

theorem pullFromAll? (factor : Handle) (ts : List SplitTerm) :
    Mirrors (Option.map (List.map (SplitTerm.rename f))) (SplitTerm.pullFromAll? a factor ts)
      (SplitTerm.pullFromAll? b (f factor) (ts.map (SplitTerm.rename f))) := by
  induction ts with
  | nil => exact .pure rfl
  | cons t rest ih =>
    refine (e.pull? factor t.factors).bind fun found => ?_
    cases found with
    | none => exact .pure rfl
    | some factors => exact ih.map fun found => by cases found <;> rfl

theorem pullCommon (xs : List TermFactor) (ts : List SplitTerm) :
    Mirrors (Prod.map (List.map (TermFactor.rename f)) (List.map (SplitTerm.rename f)))
      (SplitTerm.pullCommon a xs ts)
      (SplitTerm.pullCommon b (xs.map (TermFactor.rename f)) (ts.map (SplitTerm.rename f))) := by
  induction xs generalizing ts with
  | nil => exact .pure rfl
  | cons x rest ih =>
    refine (e.pullFromAll? x.handle ts).bind fun found => ?_
    cases found with
    | none => exact (ih ts).map fun _ => rfl
    | some others => exact (ih others).map fun _ => rfl

theorem split (terms : List Handle) :
    Mirrors (List.map (SplitTerm.rename f)) (split a terms) (split b (terms.map f)) := by
  refine (Mirrors.mapM e.splitTerm).bind fun parts => ?_
  cases parts with
  | nil => exact .pure rfl
  | cons first others => exact (e.pullCommon first.factors others).map fun _ => rfl

theorem negates (x y : Handle) : Mirrors id (negates a x y) (negates b (f x) (f y)) := by
  refine (e.negated? x).bind fun inner => ?_
  cases inner with
  | none => exact .pure rfl
  | some inner => exact e.equal inner y

theorem areOpposite (x y : Handle) : Mirrors id (areOpposite a x y) (areOpposite b (f x) (f y)) :=
  (e.negates x y).bind fun _ => .guard Iff.rfl (fun _ => .pure rfl) fun _ => e.negates y x

end Arena.Embeds

/-! ### Rules -/

/-- The one rule does to a renamed element what the other one does to the element. -/
def ElementRule.Follows (f : Handle → Handle) (rule rule' : ElementRule) : Prop :=
  ∀ h, Edit.Follows f (Option.map (List.map f)) (rule h) (rule' (f h))

/-- The rule does to renamed siblings what it does to the siblings. -/
def SiblingRule.Follows (f : Handle → Handle) (rule : SiblingRule) : Prop :=
  ∀ p hs, Edit.Follows f (Option.map (List.map f)) (rule p hs) (rule (f p) (hs.map f))

namespace Law

open Edit Edit.Follows

variable (inj : Injective f)

include inj

theorem copiedRow_follows (factors : List Handle) (sum t : Handle) :
    Edit.Follows f f (copiedRow factors sum t) (copiedRow (factors.map f) (f sum) (f t)) := by
  refine (Follows.mapM fun factor => ?_).bind fun _ => Follows.product inj _
  have same : (if f factor = f sum then f t else f factor) = f (if factor = sum then t else factor) := by
    simp only [inj.eq_iff, apply_ite f]
  rw [same]
  exact Follows.copy inj _

theorem distributed?_follows (product : Handle) :
    Edit.Follows f (Option.map (List.map f)) (distributed? product) (distributed? (f product)) := by
  refine (Follows.childrenOf product).bind fun factors => ?_
  refine (Follows.inspect fun e => e.firstOfKind? .sum factors).bind fun found => ?_
  cases found with
  | none => exact .pure rfl
  | some sum =>
    refine (Follows.childrenOf sum).bind fun terms => ?_
    exact (Follows.mapM fun t => copiedRow_follows inj factors sum t).bind fun _ => .pure rfl

theorem signless?_follows (inner : Handle) :
    Edit.Follows f (Option.map (List.map f)) (signless? inner) (signless? (f inner)) := by
  refine (Follows.kindOf inner).bind fun kind => ?_
  cases kind with
  | product => exact distributed?_follows inj inner
  | sum =>
    refine (Follows.childrenOf inner).bind fun terms => ?_
    exact (Follows.mapM (Follows.copy inj)).bind fun _ => .pure rfl
  | _ => exact .pure rfl

theorem expanded?_follows (h : Handle) :
    Edit.Follows f (Option.map (List.map f)) (expanded? h) (expanded? (f h)) := by
  refine (Follows.inspect fun e => e.element h).bind fun x => ?_
  cases x with
  | product => exact distributed?_follows inj h
  | negation inner =>
    refine (signless?_follows inj inner).bind fun found => ?_
    cases found with
    | none => exact .pure rfl
    | some terms => exact (Follows.mapM (Follows.negation inj)).bind fun _ => .pure rfl
  | _ => exact .pure rfl

theorem expand_follows : ElementRule.Follows f expand expand := by
  intro h
  refine (Follows.parentOf h).bind fun parent => ?_
  cases parent with
  | none => exact .pure rfl
  | some p =>
    refine (expanded?_follows inj h).bind fun terms => ?_
    cases terms with
    | none => exact .pure rfl
    | some terms =>
      refine (Follows.sum inj terms).bind fun sum => (Follows.replace inj p h sum).bind fun _ => ?_
      exact .pure rfl

theorem minusToFront_follows : ElementRule.Follows f minusToFront minusToFront := by
  intro h
  refine (Follows.parentOf h).bind fun parent => ?_
  cases parent with
  | none => exact .pure rfl
  | some p =>
    refine (Follows.kindOf h).bind fun kind => guard Iff.rfl (fun _ => .pure rfl) fun _ => ?_
    refine (Follows.childrenOf h).bind fun factors => ?_
    refine (Follows.inspect fun e => e.firstOfKind? .negation factors).bind fun found => ?_
    cases found with
    | none => exact .pure rfl
    | some factor =>
      refine (Follows.negatedOf factor).bind fun inner => ?_
      cases inner with
      | none => exact .pure rfl
      | some inner =>
        refine (Follows.copy inj inner).bind fun copied => ?_
        refine (Follows.replace inj h factor copied).bind fun _ => ?_
        refine (Follows.replaceWith inj h (Follows.negation inj)).bind fun _ => .pure rfl

theorem minusInside_follows : ElementRule.Follows f minusInside minusInside := by
  intro h
  refine (Follows.parentOf h).bind fun parent => ?_
  cases parent with
  | none => exact .pure rfl
  | some p =>
    refine (Follows.negatedOf h).bind fun product => ?_
    cases product with
    | none => exact .pure rfl
    | some product =>
      refine (Follows.kindOf product).bind fun kind => guard Iff.rfl (fun _ => .pure rfl) fun _ => ?_
      refine (Follows.childrenOf product).bind fun factors => ?_
      cases factors with
      | nil => exact throw
      | cons first rest =>
        refine (Follows.replaceWith inj first (Follows.negation inj)).bind fun _ => ?_
        refine (Follows.copy inj product).bind fun copied => ?_
        exact (Follows.replace inj p h copied).bind fun _ => .pure rfl

theorem cancel_follows : SiblingRule.Follows f cancel := by
  intro p hs
  rcases hs with _ | ⟨x, _ | ⟨y, _ | ⟨z, rest⟩⟩⟩
  case cons.cons.nil =>
    refine (Follows.kindOf p).bind fun kind => guard Iff.rfl (fun _ => .pure rfl) fun _ => ?_
    refine (Follows.parentOf p).bind fun above => ?_
    refine guard (by rw [Option.isNone_map]) (fun _ => .pure rfl) fun _ => ?_
    refine (Follows.inspect fun e => e.areOpposite x y).bind fun opposite => ?_
    refine guard Iff.rfl (fun _ => .pure rfl) fun _ => ?_
    refine (Follows.childrenOf p).bind fun siblings => ?_
    refine (Follows.removeChildren inj p [x, y]).bind fun _ => .pure ?_
    have neighbor := lowestNeighbor?_map inj siblings [x, y]
    simp only [List.map_cons, List.map_nil] at neighbor ⊢
    rw [neighbor]
    cases lowestNeighbor? siblings [x, y] <;> rfl
  all_goals exact .pure rfl

theorem copiedFactors_follow (xs : List TermFactor) :
    Edit.Follows f (List.map f) (xs.mapM (Edit.copy ·.handle))
      ((xs.map (TermFactor.rename f)).mapM (Edit.copy ·.handle)) :=
  Follows.mapM fun x => Follows.copy inj x.handle

theorem remainder_follows (t : SplitTerm) :
    Edit.Follows f f t.remainder (t.rename f).remainder := by
  have kept : (t.rename f).factors.filter (!·.pulled) =
      (t.factors.filter (!·.pulled)).map (TermFactor.rename f) := List.filter_map
  unfold SplitTerm.remainder
  dsimp only
  rw [kept]
  refine (copiedFactors_follow inj _).bind fun _ => (Follows.product inj _).bind fun product => ?_
  exact guard Iff.rfl (fun _ => Follows.negation inj product) fun _ => .pure rfl

theorem factored?_follows (terms : List Handle) :
    Edit.Follows f (Option.map f) (factored? terms) (factored? (terms.map f)) := by
  refine (Follows.inspect fun e => e.split terms).bind fun parts => ?_
  cases parts with
  | nil => exact .pure rfl
  | cons first others =>
    have common : (first.rename f).factors.filter (·.pulled) =
        (first.factors.filter (·.pulled)).map (TermFactor.rename f) := List.filter_map
    have inners : ∀ found : List (Option Handle),
        (found.map (Option.map f)).filterMap id = (found.filterMap id).map f := fun found => by
      rw [List.filterMap_map, List.map_filterMap]
      rfl
    simp only [List.map_cons, List.head?_cons]
    rw [common]
    refine guard (by simp) (fun _ => ?_) fun _ => ?_
    · refine (Follows.mapM (remainder_follows inj)).bind fun rests => ?_
      refine (Follows.sum inj rests).bind fun rest => ?_
      refine (copiedFactors_follow inj _).bind fun copies => ?_
      exact (Follows.product inj (rest :: copies)).bind fun _ => .pure rfl
    · refine guard (by simp [SplitTerm.rename]) (fun _ => ?_) fun _ => .pure rfl
      refine (Follows.inspect fun e => Mirrors.mapM e.negated?).bind fun found => ?_
      rw [inners]
      refine (Follows.mapM (Follows.copy inj)).bind fun copies => ?_
      refine (Follows.sum inj copies).bind fun sum => ?_
      exact (Follows.negation inj sum).bind fun _ => .pure rfl

theorem factor_follows : SiblingRule.Follows f factor := by
  intro p hs
  refine (Follows.kindOf p).bind fun kind => guard Iff.rfl (fun _ => .pure rfl) fun _ => ?_
  refine (Follows.parentOf p).bind fun above => ?_
  refine guard (by rw [Option.isNone_map]) (fun _ => .pure rfl) fun _ => ?_
  rcases hs with _ | ⟨first, _ | ⟨second, rest⟩⟩
  case cons.cons =>
    refine (factored?_follows inj (first :: second :: rest)).bind fun found => ?_
    cases found with
    | none => exact .pure rfl
    | some result =>
      refine (Follows.replace inj p first result).bind fun _ => ?_
      exact (Follows.removeChildren inj p (second :: rest)).bind fun _ => .pure rfl
  all_goals exact .pure rfl

theorem factorAllTerms_follows : ElementRule.Follows f factorAllTerms factorAllTerms := by
  intro h
  refine (Follows.kindOf h).bind fun kind => guard Iff.rfl (fun _ => .pure rfl) fun _ => ?_
  exact (Follows.childrenOf h).bind fun terms => factor_follows inj h terms

theorem insertRun_follows (list : Handle) (index : Nat) (hs : List Handle) :
    Edit.Follows f id (insertRun list index hs) (insertRun (f list) index (hs.map f)) := by
  induction hs generalizing index with
  | nil => exact .pure rfl
  | cons h rest ih => exact (Follows.insertChild inj list index h).bind fun _ => ih (index + 1)

theorem unnest_follows : ElementRule.Follows f unnest unnest := by
  intro h
  refine (Follows.parentOf h).bind fun parent => ?_
  cases parent with
  | none => exact .pure rfl
  | some p =>
    refine (Follows.kindOf h).bind fun kind => guard Iff.rfl (fun _ => .pure rfl) fun _ => ?_
    refine (Follows.kindOf p).bind fun above => guard Iff.rfl (fun _ => .pure rfl) fun _ => ?_
    refine (Follows.inspect fun e => e.childIndex p h).bind fun index => ?_
    cases index with
    | none => exact .pure rfl
    | some index =>
      refine (Follows.childrenOf h).bind fun terms => ?_
      refine (Follows.mapM (Follows.copy inj)).bind fun copies => ?_
      cases copies with
      | nil => exact throw
      | cons first rest =>
        refine (Follows.replace inj p h first).bind fun _ => ?_
        exact (insertRun_follows inj p (index + 1) rest).bind fun _ => .pure rfl

theorem swap_follows : SiblingRule.Follows f swap := by
  intro p hs
  rcases hs with _ | ⟨x, _ | ⟨y, _ | ⟨z, rest⟩⟩⟩
  case cons.cons.nil =>
    refine (Follows.kindOf p).bind fun kind => guard Iff.rfl (fun _ => .pure rfl) fun _ => ?_
    refine (Follows.integer inj 0).bind fun slot => (Follows.integer inj 0).bind fun slot' => ?_
    refine (Follows.replace inj p x slot).bind fun _ => ?_
    refine (Follows.replace inj p y slot').bind fun _ => ?_
    refine (Follows.replace inj p slot y).bind fun _ => ?_
    exact (Follows.replace inj p slot' x).bind fun _ => .pure rfl
  all_goals exact .pure rfl

theorem elementLaws_follow : ∀ rule ∈ elementLaws, ElementRule.Follows f rule rule := by
  simp only [elementLaws, List.forall_mem_cons]
  exact ⟨expand_follows inj, unnest_follows inj, minusToFront_follows inj, minusInside_follows inj,
    factorAllTerms_follows inj, List.forall_mem_nil _⟩

theorem siblingLaws_follow : ∀ rule ∈ siblingLaws, SiblingRule.Follows f rule := by
  simp only [siblingLaws, List.forall_mem_cons]
  exact ⟨swap_follows inj, cancel_follows inj, factor_follows inj, List.forall_mem_nil _⟩

end Law

/-! ### Actions -/

namespace Action

/-- The group of siblings and their parent under other names. -/
def renameGroup (f : Handle → Handle) : Option Handle × List Handle → Option Handle × List Handle :=
  Prod.map (Option.map f) (List.map f)

theorem addToGroup_map (inj : Injective f) (parent : Option Handle) (h : Handle)
    (groups : List (Option Handle × List Handle)) :
    addToGroup (parent.map f) (f h) (groups.map (renameGroup f)) =
      (addToGroup parent h groups).map (renameGroup f) := by
  induction groups with
  | nil => rfl
  | cons group rest ih =>
    obtain ⟨p, hs⟩ := group
    by_cases same : p = parent
    · simp [addToGroup, renameGroup, same]
    · have other : p.map f ≠ parent.map f := (Option.map_injective inj).ne same
      rw [addToGroup, if_neg same, List.map_cons, List.map_cons, ← ih]
      exact if_neg other

theorem ifDone_map (out : Bool × List Handle) :
    ifDone (out.map id (List.map f)) = (ifDone out).map (List.map f) := by
  obtain ⟨done, hs⟩ := out
  cases done <;> rfl

theorem commonParent?_mirrors (e : a.Embeds f b) (hs : List Handle) :
    Mirrors (Option.map f) (commonParent? a hs) (commonParent? b (hs.map f)) := by
  cases hs with
  | nil => exact .pure rfl
  | cons first rest =>
    refine (e.parent first).bind fun parent => ?_
    cases parent with
    | none => exact .pure rfl
    | some p =>
      have all : Mirrors id
          ((first :: rest).allM fun h => return (← a.parent h) = some p)
          (((first :: rest).map f).allM fun h => return (← b.parent h) = some (f p)) := by
        refine .allM fun h => (e.parent h).map fun owner => ?_
        have same := (Option.map_injective e.injective).eq_iff (a := owner) (b := some p)
        exact decide_eq_decide.mpr same.symm
      exact all.bind fun _ => .guard Iff.rfl (fun _ => .pure rfl) fun _ => .pure rfl

theorem groupByParent_mirrors (e : a.Embeds f b) (hs : List Handle) :
    Mirrors (List.map (renameGroup f)) (groupByParent a hs) (groupByParent b (hs.map f)) :=
  Mirrors.foldlM (fun groups h => (e.parent h).map fun parent =>
    (addToGroup_map e.injective parent h groups).symm) []

theorem pass_follows {α β : Type} {g : α → β} {step : α → Edit (Option (List Handle))}
    {step' : β → Edit (Option (List Handle))} {unchanged : α → List Handle}
    {unchanged' : β → List Handle}
    (each : ∀ x, Edit.Follows f (Option.map (List.map f)) (step x) (step' (g x)))
    (same : ∀ x, (unchanged x).map f = unchanged' (g x)) (xs : List α) :
    Edit.Follows f (Prod.map id (List.map f)) (pass step unchanged xs)
      (pass step' unchanged' (xs.map g)) := by
  induction xs with
  | nil => exact .pure rfl
  | cons x rest ih =>
    refine (each x).bind fun result => ih.bind fun (done, later) => .pure ?_
    cases result <;> simp [same]

theorem runGroup_follows {rule : SiblingRule} (follows : rule.Follows f)
    (group : Option Handle × List Handle) :
    Edit.Follows f (Option.map (List.map f)) (runGroup rule group)
      (runGroup rule (renameGroup f group)) := by
  obtain ⟨_ | p, _ | ⟨h, _ | ⟨k, rest⟩⟩⟩ := group
  case some.cons.cons => exact follows p (h :: k :: rest)
  all_goals exact .pure rfl

/-- The one action does to renamed elements what the other one does to the elements. -/
def Follows (f : Handle → Handle) (action action' : Action) : Prop :=
  ∀ hs, Edit.Follows f (Option.map (List.map f)) (action.run hs) (action'.run (hs.map f))

variable {name key : String}

theorem each_follows {rule : ElementRule} (follows : rule.Follows f rule) :
    Follows f ⟨name, key, .each rule⟩ ⟨name, key, .each rule⟩ := by
  intro hs
  refine (pass_follows follows (fun _ => rfl) hs).bind fun out => .pure ?_
  exact (ifDone_map out).symm

theorem only_follows {rule rule' : ElementRule} (follows : rule.Follows f rule') :
    Follows f ⟨name, key, .only rule⟩ ⟨name, key, .only rule'⟩ := by
  intro hs
  rcases hs with _ | ⟨h, _ | ⟨k, rest⟩⟩
  case cons.nil => exact follows h
  all_goals exact .pure rfl

theorem exactly_follows {count : Nat} {rule : SiblingRule} (follows : rule.Follows f) :
    Follows f ⟨name, key, .exactly count rule⟩ ⟨name, key, .exactly count rule⟩ := by
  intro hs
  refine .guard (by rw [List.length_map]) (fun _ => .pure rfl) fun _ => ?_
  refine (Edit.Follows.inspect fun e => commonParent?_mirrors e hs).bind fun parent => ?_
  cases parent with
  | none => exact .pure rfl
  | some p => exact follows p hs

theorem groups_follows {rule : SiblingRule} (follows : rule.Follows f) :
    Follows f ⟨name, key, .groups rule⟩ ⟨name, key, .groups rule⟩ := by
  intro hs
  refine (Edit.Follows.inspect fun e => groupByParent_mirrors e hs).bind fun groups => ?_
  refine (pass_follows (runGroup_follows follows) (fun _ => rfl) groups).bind fun out => .pure ?_
  exact (ifDone_map out).symm

/-- However a law is applied, it can be followed. -/
theorem lawful_follows (inj : Injective f) {action : Action} (lawful : action.application.OfLaw) :
    Follows f action action := by
  obtain ⟨name, key, application⟩ := action
  cases lawful with
  | each member => exact each_follows (Law.elementLaws_follow inj _ member)
  | only member => exact only_follows (Law.elementLaws_follow inj _ member)
  | exactly count member => exact exactly_follows (Law.siblingLaws_follow inj _ member)
  | groups member => exact groups_follows (Law.siblingLaws_follow inj _ member)

end Action

end AlgebraEditor
