import AlgebraEditor.Proofs.Arena.Naming
import AlgebraEditor.Proofs.Law.Quiet

/-!
# Laws and names

Laws only copy what they find in the arena, so they keep whatever holds of all names.
-/

namespace AlgebraEditor

open Arena Edit Term

variable {P : String → Prop} {a : Arena} {h : Handle} {t : Term} {ts : List Term}

namespace Law

/-! ### Copies of terms -/

theorem distributed?_keepsNames (h : Handle) : (distributed? h).KeepsNames P := by
  unfold distributed?
  refine .bind (.childrenOf h) fun factors => .bind (.inspect _) fun found => ?_
  cases found with
  | none => exact .pure _
  | some sum =>
    refine .bind (.childrenOf sum) fun terms => .bind (.mapM fun t _ => ?_) fun _ => .pure _
    exact .bind (.mapM fun factor _ => .copy _) .product

theorem signless?_keepsNames (h : Handle) : (signless? h).KeepsNames P := by
  unfold signless?
  refine .bind (.kindOf h) fun kind => ?_
  cases kind with
  | product => exact distributed?_keepsNames h
  | sum => exact .bind (.childrenOf h) fun _ => .bind (.mapM fun c _ => .copy c) fun _ => .pure _
  | _ => exact .pure _

theorem expanded?_keepsNames (h : Handle) : (expanded? h).KeepsNames P := by
  unfold expanded?
  refine .bind (.inspect _) fun e => ?_
  cases e with
  | product factors => exact distributed?_keepsNames h
  | negation inner =>
    refine .bind (signless?_keepsNames inner) fun found => ?_
    cases found with
    | none => exact .pure _
    | some terms => exact .bind (.mapM fun t _ => .negation t) fun _ => .pure _
  | _ => exact .pure _

theorem remainder_keepsNames (t : SplitTerm) : t.remainder.KeepsNames P := by
  unfold SplitTerm.remainder
  refine .bind (.mapM fun f _ => .copy f.handle) fun copies => .bind (.product copies) fun product => ?_
  exact .guard (.negation product) (.pure product)

theorem factored?_keepsNames (hs : List Handle) : (factored? hs).KeepsNames P := by
  unfold factored?
  refine .bind (.inspect _) fun parts => ?_
  cases parts.head? with
  | none => exact .pure _
  | some first =>
    refine .guard ?_ (.guard ?_ (.pure _))
    · refine .bind (.mapM fun t _ => remainder_keepsNames t) fun rest => .bind (.sum rest) fun _ => ?_
      exact .bind (.mapM fun f _ => .copy f.handle) fun _ => .bind (.product _) fun _ => .pure _
    · refine .bind (.inspect _) fun inners => .bind (.mapM fun h _ => .copy h) fun copies => ?_
      exact .bind (.sum copies) fun _ => .bind (.negation _) fun _ => .pure _

/-! ### Rules -/

theorem expand_keepsNames (h : Handle) : (expand h).KeepsNames P := by
  unfold expand
  refine .bind (.parentOf h) fun owner => ?_
  cases owner with
  | none => exact .pure _
  | some parent =>
    refine .bind (expanded?_keepsNames h) fun found => ?_
    cases found with
    | none => exact .pure _
    | some terms =>
      exact .bind (.sum terms) fun sum => .bind (.replace parent h sum) fun _ => .pure _

theorem insertRun_keepsNames (list : Handle) (index : Nat) (hs : List Handle) :
    (insertRun list index hs).KeepsNames P := by
  induction hs generalizing index with
  | nil => exact .pure _
  | cons h rest ih => exact .bind (.insertChild list index h) fun _ => ih (index + 1)

theorem unnest_keepsNames (h : Handle) : (unnest h).KeepsNames P := by
  unfold unnest
  refine .bind (.parentOf h) fun owner => ?_
  cases owner with
  | none => exact .pure _
  | some parent =>
    refine .bind (.kindOf h) fun kind => .guard (.pure _) ?_
    refine .bind (.kindOf parent) fun outer => .guard (.pure _) ?_
    refine .bind (.inspect _) fun position => ?_
    cases position with
    | none => exact .pure _
    | some index =>
      refine .bind (.childrenOf h) fun children => .bind (.mapM fun c _ => .copy c) fun copies => ?_
      cases copies with
      | nil => exact .throw _
      | cons first rest =>
        refine .bind (.replace parent h first) fun _ => ?_
        exact .bind (insertRun_keepsNames parent (index + 1) rest) fun _ => .pure _

theorem minusToFront_keepsNames (h : Handle) : (minusToFront h).KeepsNames P := by
  unfold minusToFront
  refine .bind (.parentOf h) fun owner => ?_
  cases owner with
  | none => exact .pure _
  | some parent =>
    refine .bind (.kindOf h) fun kind => .guard (.pure _) ?_
    refine .bind (.childrenOf h) fun factors => .bind (.inspect _) fun found => ?_
    cases found with
    | none => exact .pure _
    | some factor =>
      refine .bind (.negatedOf factor) fun negated => ?_
      cases negated with
      | none => exact .pure _
      | some inner =>
        refine .bind (.copy inner) fun copied => .bind (.replace h factor copied) fun _ => ?_
        exact .bind (.replaceWith h (.negation h)) fun _ => .pure _

theorem minusInside_keepsNames (h : Handle) : (minusInside h).KeepsNames P := by
  unfold minusInside
  refine .bind (.parentOf h) fun owner => ?_
  cases owner with
  | none => exact .pure _
  | some parent =>
    refine .bind (.negatedOf h) fun negated => ?_
    cases negated with
    | none => exact .pure _
    | some product =>
      refine .bind (.kindOf product) fun kind => .guard (.pure _) ?_
      refine .bind (.childrenOf product) fun factors => ?_
      cases factors.head? with
      | none => exact .throw _
      | some first =>
        refine .bind (.replaceWith first (.negation first)) fun _ => ?_
        refine .bind (.copy product) fun copied => ?_
        exact .bind (.replace parent h copied) fun _ => .pure _

theorem swap_keepsNames (p : Handle) (hs : List Handle) : (swap p hs).KeepsNames P := by
  match hs with
  | [] | [_] | _ :: _ :: _ :: _ => exact .pure _
  | [first, second] =>
    refine .bind (.kindOf p) fun kind => .guard (.pure _) ?_
    refine .bind (.integer 0) fun firstSlot => .bind (.integer 0) fun secondSlot => ?_
    refine .bind (.replace p first firstSlot) fun _ => ?_
    refine .bind (.replace p second secondSlot) fun _ => ?_
    refine .bind (.replace p firstSlot second) fun _ => ?_
    exact .bind (.replace p secondSlot first) fun _ => .pure _

theorem cancel_keepsNames (p : Handle) (hs : List Handle) : (cancel p hs).KeepsNames P := by
  match hs with
  | [] | [_] | _ :: _ :: _ :: _ => exact .pure _
  | [first, second] =>
    refine .bind (.kindOf p) fun kind => .guard (.pure _) ?_
    refine .bind (.parentOf p) fun owner => .guard (.pure _) ?_
    refine .bind (.inspect _) fun opposite => .guard (.pure _) ?_
    refine .bind (.childrenOf p) fun siblings => ?_
    exact .bind (.removeChildren p [first, second]) fun _ => .pure _

theorem factor_keepsNames (p : Handle) (hs : List Handle) : (factor p hs).KeepsNames P := by
  unfold factor
  refine .bind (.kindOf p) fun kind => .guard (.pure _) ?_
  refine .bind (.parentOf p) fun owner => .guard (.pure _) ?_
  match hs with
  | [] | [_] => exact .pure _
  | first :: second :: rest =>
    refine .bind (factored?_keepsNames _) fun found => ?_
    cases found with
    | none => exact .pure _
    | some result =>
      refine .bind (.replace p first result) fun _ => ?_
      exact .bind (.removeChildren p (second :: rest)) fun _ => .pure _

theorem factorAllTerms_keepsNames (h : Handle) : (factorAllTerms h).KeepsNames P :=
  .bind (.kindOf h) fun _ => .guard (.pure _) (.bind (.childrenOf h) (factor_keepsNames h))

theorem elementLaws_keepNames : ∀ rule ∈ elementLaws, ∀ h, (rule h).KeepsNames P := by
  simp only [elementLaws, List.forall_mem_cons]
  exact ⟨expand_keepsNames, unnest_keepsNames, minusToFront_keepsNames, minusInside_keepsNames,
    factorAllTerms_keepsNames, List.forall_mem_nil _⟩

theorem siblingLaws_keepNames : ∀ rule ∈ siblingLaws, ∀ p hs, (rule p hs).KeepsNames P := by
  simp only [siblingLaws, List.forall_mem_cons]
  exact ⟨swap_keepsNames, cancel_keepsNames, factor_keepsNames, List.forall_mem_nil _⟩

end Law

/-! ### Actions -/

namespace Action

theorem pass_keepsNames {α : Type} {step : α → Edit (Option (List Handle))}
    (unchanged : α → List Handle) (each : ∀ x, (step x).KeepsNames P) (xs : List α) :
    (pass step unchanged xs).KeepsNames P := by
  induction xs with
  | nil => exact .pure _
  | cons x xs ih => exact .bind (each x) fun _ => .bind ih fun _ => .pure _

theorem run_keepsNames {action : Action} (lawful : action.application.OfLaw) (hs : List Handle) :
    (action.run hs).KeepsNames P := by
  obtain ⟨name, key, application⟩ := action
  unfold Action.run
  cases lawful with
  | each member =>
    exact .bind (pass_keepsNames _ (Law.elementLaws_keepNames _ member) hs) fun _ => .pure _
  | only member =>
    match hs with
    | [] | _ :: _ :: _ => exact .pure _
    | [h] => exact Law.elementLaws_keepNames _ member h
  | exactly count member =>
    refine .guard (.pure _) (.bind (.inspect _) fun shared => ?_)
    cases shared with
    | none => exact .pure _
    | some p => exact Law.siblingLaws_keepNames _ member p hs
  | groups member =>
    refine .bind (.inspect _) fun groups => .bind (pass_keepsNames _ (fun group => ?_) groups)
      fun _ => .pure _
    match group with
    | (none, _) | (some _, []) | (some _, [_]) => exact .pure _
    | (some p, h :: k :: rest) => exact Law.siblingLaws_keepNames _ member p (h :: k :: rest)

end Action

end AlgebraEditor
