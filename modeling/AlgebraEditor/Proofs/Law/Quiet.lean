import AlgebraEditor.Arena.Audit
import AlgebraEditor.Catalog
import AlgebraEditor.Proofs.Outcome

/-!
# Nothing done

A rule that answers with nothing has changed nothing, on every arena and for every argument: it only
reads until it is sure that it will answer with something. An action that applies such a rule, in
whatever way, does nothing only if every application did nothing.
-/

namespace AlgebraEditor

namespace Edit

variable {α β : Type} {a b : Arena}

/-- If the edit answers with nothing, it has changed nothing. -/
def Quiet (x : Edit (Option α)) : Prop := ∀ a b, x.run a = .ok none b → b = a

/-- The edit never answers with nothing. -/
def Answers (x : Edit (Option α)) : Prop := ∀ a b, x.run a ≠ .ok none b

theorem quiet_nothing : Quiet (return none : Edit (Option α)) := fun _ _ run =>
  (run_pure_eq_ok.mp run).2.symm

/-- Reading first keeps an edit quiet. -/
theorem quiet_inspect {read : Arena → Except Fault β} {f : β → Edit (Option α)}
    (each : ∀ y, (f y).Quiet) : (inspect read >>= f).Quiet := by
  intro a b run
  obtain ⟨y, _, rest⟩ := run_inspect_bind.mp run
  exact each y a b rest

theorem answers_some (x : α) : Answers (return some x : Edit (Option α)) := fun _ _ run =>
  nomatch (run_pure_eq_ok.mp run).1

theorem answers_throw (fault : Fault) : Answers (throw fault : Edit (Option α)) := fun _ _ => nofun

/-- What comes before does not matter to an edit that always answers with something. -/
theorem answers_bind {x : Edit β} {f : β → Edit (Option α)} (each : ∀ y, (f y).Answers) :
    (x >>= f).Answers := by
  intro a b run
  obtain ⟨y, c, _, rest⟩ := run_bind_eq_ok.mp run
  exact each y c b rest

theorem Answers.quiet {x : Edit (Option α)} (answers : x.Answers) : x.Quiet := fun a b run =>
  absurd run (answers a b)

/-- What is sure to answer with something may follow what has answered with something. -/
theorem Quiet.bind {x : Edit (Option β)} {f : Option β → Edit (Option α)} (quiet : x.Quiet)
    (nothing : f none = return none) (rest : ∀ y, (f (some y)).Answers) : (x >>= f).Quiet := by
  intro a b run
  obtain ⟨found, c, first, later⟩ := run_bind_eq_ok.mp run
  cases found with
  | none =>
    rw [nothing] at later
    rw [← (run_pure_eq_ok.mp later).2]
    exact quiet a c first
  | some y => exact absurd later (rest y c b)

end Edit

/-! ### Rules -/

namespace Law

open Edit

theorem distributed?_quiet (h : Handle) : (distributed? h).Quiet := by
  unfold distributed?
  refine quiet_inspect fun factors => quiet_inspect fun found => ?_
  cases found with
  | none => exact quiet_nothing
  | some sum => exact (answers_bind fun _ => answers_bind fun _ => answers_some _).quiet

theorem signless?_quiet (h : Handle) : (signless? h).Quiet := by
  unfold signless?
  refine quiet_inspect fun kind => ?_
  cases kind with
  | product => exact distributed?_quiet h
  | sum => exact (answers_bind fun _ => answers_bind fun _ => answers_some _).quiet
  | _ => exact quiet_nothing

theorem expanded?_quiet (h : Handle) : (expanded? h).Quiet := by
  unfold expanded?
  refine quiet_inspect fun e => ?_
  cases e with
  | product factors => exact distributed?_quiet h
  | negation inner =>
    exact (signless?_quiet inner).bind rfl fun _ => answers_bind fun _ => answers_some _
  | _ => exact quiet_nothing

theorem expand_quiet (h : Handle) : (expand h).Quiet := by
  unfold expand
  refine quiet_inspect fun owner => ?_
  cases owner with
  | none => exact quiet_nothing
  | some parent =>
    exact (expanded?_quiet h).bind rfl fun _ => answers_bind fun _ => answers_bind fun _ =>
      answers_some _

theorem unnest_quiet (h : Handle) : (unnest h).Quiet := by
  unfold unnest
  refine quiet_inspect fun owner => ?_
  cases owner with
  | none => exact quiet_nothing
  | some parent =>
    refine quiet_inspect fun kind => ?_
    split
    · exact quiet_nothing
    refine quiet_inspect fun outer => ?_
    split
    · exact quiet_nothing
    refine quiet_inspect fun position => ?_
    cases position with
    | none => exact quiet_nothing
    | some index =>
      -- from here on there are copies, and with them an answer
      refine (answers_bind fun children => answers_bind fun copies => ?_).quiet
      cases copies with
      | nil => exact answers_throw _
      | cons first rest => exact answers_bind fun _ => answers_bind fun _ => answers_some _

theorem minusToFront_quiet (h : Handle) : (minusToFront h).Quiet := by
  unfold minusToFront
  refine quiet_inspect fun owner => ?_
  cases owner with
  | none => exact quiet_nothing
  | some parent =>
    refine quiet_inspect fun kind => ?_
    split
    · exact quiet_nothing
    refine quiet_inspect fun factors => quiet_inspect fun found => ?_
    cases found with
    | none => exact quiet_nothing
    | some factor =>
      refine quiet_inspect fun negated => ?_
      cases negated with
      | none => exact quiet_nothing
      | some inner =>
        exact (answers_bind fun _ => answers_bind fun _ => answers_bind fun _ =>
          answers_some _).quiet

theorem minusInside_quiet (h : Handle) : (minusInside h).Quiet := by
  unfold minusInside
  refine quiet_inspect fun owner => ?_
  cases owner with
  | none => exact quiet_nothing
  | some parent =>
    refine quiet_inspect fun negated => ?_
    cases negated with
    | none => exact quiet_nothing
    | some product =>
      refine quiet_inspect fun kind => ?_
      split
      · exact quiet_nothing
      refine quiet_inspect fun factors => ?_
      cases factors.head? with
      | none => exact (answers_throw _).quiet
      | some first =>
        exact (answers_bind fun _ => answers_bind fun _ => answers_bind fun _ =>
          answers_some _).quiet

theorem swap_quiet (p : Handle) (hs : List Handle) : (swap p hs).Quiet := by
  match hs with
  | [] | [_] | _ :: _ :: _ :: _ => exact quiet_nothing
  | [first, second] =>
    unfold swap
    refine quiet_inspect fun kind => ?_
    split
    · exact quiet_nothing
    exact (answers_bind fun _ => answers_bind fun _ => answers_bind fun _ => answers_bind fun _ =>
      answers_bind fun _ => answers_bind fun _ => answers_some _).quiet

theorem cancel_quiet (p : Handle) (hs : List Handle) : (cancel p hs).Quiet := by
  match hs with
  | [] | [_] | _ :: _ :: _ :: _ => exact quiet_nothing
  | [first, second] =>
    unfold cancel
    refine quiet_inspect fun kind => ?_
    split
    · exact quiet_nothing
    refine quiet_inspect fun owner => ?_
    split
    · exact quiet_nothing
    refine quiet_inspect fun opposite => ?_
    split
    · exact quiet_nothing
    exact quiet_inspect fun siblings => (answers_bind fun _ => answers_some _).quiet

theorem factored?_quiet (hs : List Handle) : (factored? hs).Quiet := by
  unfold factored?
  refine quiet_inspect fun parts => ?_
  cases parts.head? with
  | none => exact quiet_nothing
  | some first =>
    dsimp only
    split
    · exact (answers_bind fun _ => answers_bind fun _ => answers_bind fun _ =>
        answers_bind fun _ => answers_some _).quiet
    split
    · exact (answers_bind fun _ => answers_bind fun _ => answers_bind fun _ =>
        answers_bind fun _ => answers_some _).quiet
    · exact quiet_nothing

theorem factor_quiet (p : Handle) (hs : List Handle) : (factor p hs).Quiet := by
  unfold factor
  refine quiet_inspect fun kind => ?_
  split
  · exact quiet_nothing
  refine quiet_inspect fun owner => ?_
  split
  · exact quiet_nothing
  match hs with
  | [] | [_] => exact quiet_nothing
  | first :: second :: rest =>
    exact (factored?_quiet _).bind rfl fun _ => answers_bind fun _ => answers_bind fun _ =>
      answers_some _

theorem factorAllTerms_quiet (h : Handle) : (factorAllTerms h).Quiet := by
  unfold factorAllTerms
  refine quiet_inspect fun kind => ?_
  split
  · exact quiet_nothing
  · exact quiet_inspect fun terms => factor_quiet h terms

/-- The laws for one element. -/
def elementLaws : List ElementRule := [expand, unnest, minusToFront, minusInside, factorAllTerms]

/-- The laws for children of one parent. -/
def siblingLaws : List SiblingRule := [swap, cancel, factor]

theorem elementLaws_quiet : ∀ rule ∈ elementLaws, ∀ h, (rule h).Quiet := by
  simp only [elementLaws, List.forall_mem_cons]
  exact ⟨expand_quiet, unnest_quiet, minusToFront_quiet, minusInside_quiet, factorAllTerms_quiet,
    List.forall_mem_nil _⟩

theorem siblingLaws_quiet : ∀ rule ∈ siblingLaws, ∀ p hs, (rule p hs).Quiet := by
  simp only [siblingLaws, List.forall_mem_cons]
  exact ⟨swap_quiet, cancel_quiet, factor_quiet, List.forall_mem_nil _⟩

end Law

/-! ### Actions -/

/-- The ways to apply a law. -/
inductive Application.OfLaw : Application → Prop where
  | each {rule : ElementRule} : rule ∈ Law.elementLaws → OfLaw (.each rule)
  | only {rule : ElementRule} : rule ∈ Law.elementLaws → OfLaw (.only rule)
  | exactly {rule : SiblingRule} (count : Nat) : rule ∈ Law.siblingLaws → OfLaw (.exactly count rule)
  | groups {rule : SiblingRule} : rule ∈ Law.siblingLaws → OfLaw (.groups rule)

namespace Action

open Edit

variable {a b : Arena}

/-- A pass did something as soon as one step did, so if it did nothing no step changed anything. -/
theorem pass_unchanged {α : Type} {step : α → Edit (Option (List Handle))}
    {unchanged : α → List Handle} {xs : List α} (each : ∀ x ∈ xs, (step x).Quiet)
    {out : Bool × List Handle} (run : (pass step unchanged xs).run a = .ok out b)
    (nothing : out.1 = false) : b = a := by
  induction xs generalizing a out with
  | nil =>
    cases run
    rfl
  | cons x xs ih =>
    unfold pass at run
    obtain ⟨r, c, first, run⟩ := run_bind_eq_ok.mp run
    obtain ⟨later, _, rest, done⟩ := run_bind_eq_ok.mp run
    cases done
    obtain ⟨none, none'⟩ := Bool.or_eq_false_iff.mp nothing
    obtain rfl : r = Option.none := by simpa using none
    rw [ih (fun y member => each y (List.mem_cons_of_mem _ member)) rest none']
    exact each x List.mem_cons_self a c first

theorem quiet_of_pass {α : Type} {step : α → Edit (Option (List Handle))}
    {unchanged : α → List Handle} {xs : List α} (each : ∀ x ∈ xs, (step x).Quiet) :
    (do return ifDone (← pass step unchanged xs) : Edit (Option (List Handle))).Quiet := by
  intro a b run
  obtain ⟨out, _, passed, done⟩ := run_bind_eq_ok.mp run
  obtain ⟨answer, rfl⟩ := run_pure_eq_ok.mp done
  refine pass_unchanged each passed ?_
  cases did : out.1 with
  | false => rfl
  | true => simp [ifDone, did] at answer

theorem runGroup_quiet {rule : SiblingRule} (quiet : ∀ p hs, (rule p hs).Quiet)
    (group : Option Handle × List Handle) : (runGroup rule group).Quiet := by
  match group with
  | (none, _) | (some _, []) | (some _, [_]) => exact quiet_nothing
  | (some p, h :: k :: rest) => exact quiet p (h :: k :: rest)

/-- However a law is applied, to whatever elements: if the action answers with nothing, the arena is
the one before. -/
theorem run_quiet {action : Action} (lawful : action.application.OfLaw) (hs : List Handle) :
    (action.run hs).Quiet := by
  obtain ⟨name, key, application⟩ := action
  unfold Action.run
  cases lawful with
  | each member => exact quiet_of_pass fun h _ => Law.elementLaws_quiet _ member h
  | only member =>
    match hs with
    | [] | _ :: _ :: _ => exact quiet_nothing
    | [h] => exact Law.elementLaws_quiet _ member h
  | exactly count member =>
    dsimp only
    split
    · exact quiet_nothing
    refine quiet_inspect fun shared => ?_
    cases shared with
    | none => exact quiet_nothing
    | some p => exact Law.siblingLaws_quiet _ member p hs
  | groups member =>
    refine quiet_inspect fun groups => quiet_of_pass fun group _ => ?_
    exact runGroup_quiet (Law.siblingLaws_quiet _ member) group

/-- Every built-in action applies a law. -/
theorem ofLaw_of_builtIn {action : Action} (member : action ∈ Catalog.builtIn.actions) :
    action.application.OfLaw := by
  simp only [Catalog.builtIn, List.mem_cons, List.not_mem_nil, or_false] at member
  rcases member with rfl | rfl | rfl | rfl | rfl | rfl | rfl | rfl
  · exact .each (by simp [Law.elementLaws])
  · exact .each (by simp [Law.elementLaws])
  · exact .each (by simp [Law.elementLaws])
  · exact .each (by simp [Law.elementLaws])
  · exact .exactly 2 (by simp [Law.siblingLaws])
  · exact .exactly 2 (by simp [Law.siblingLaws])
  · exact .groups (by simp [Law.siblingLaws])
  · exact .each (by simp [Law.elementLaws])

/-- Nothing done is nothing changed: if a law, or an action that applies one in any way, answers
with nothing, the arena is the one before. This holds on every arena and for every argument. -/
theorem unchanged_of_nothing :
    (∀ rule ∈ Law.elementLaws, ∀ h a b, (rule h).run a = .ok none b → b = a) ∧
    (∀ rule ∈ Law.siblingLaws, ∀ p hs a b, (rule p hs).run a = .ok none b → b = a) ∧
    ∀ action : Action, action.application.OfLaw →
      ∀ hs a b, (action.run hs).run a = .ok none b → b = a :=
  ⟨Law.elementLaws_quiet, Law.siblingLaws_quiet, fun _ lawful hs => run_quiet lawful hs⟩

/-- In `x + y` the terms do not cancel out, have nothing in common, and do not expand. -/
theorem unchanged_of_nothing_of_sum : ∃ a b c d : Arena, a.audit = .ok () ∧
    (Law.expand ⟨2⟩).run a = .ok none b ∧ b = a ∧
    (Law.cancel ⟨1⟩ [⟨2⟩, ⟨3⟩]).run b = .ok none c ∧ c = b ∧
    ((⟨"Factor", "F", .groups Law.factor⟩ : Action).run [⟨2⟩, ⟨3⟩]).run c = .ok none d ∧ d = c := by
  let a : Arena := ⟨#[some ⟨none, .root ⟨1⟩⟩, some ⟨some ⟨0⟩, .sum [⟨2⟩, ⟨3⟩]⟩,
    some ⟨some ⟨1⟩, .symbol "x"⟩, some ⟨some ⟨1⟩, .symbol "y"⟩], ⟨0⟩⟩
  refine ⟨a, a, a, a, rfl, rfl, ?_, rfl, ?_, rfl, ?_⟩
  · exact unchanged_of_nothing.1 Law.expand (by simp [Law.elementLaws]) ⟨2⟩ a a rfl
  · exact unchanged_of_nothing.2.1 Law.cancel (by simp [Law.siblingLaws]) ⟨1⟩ [⟨2⟩, ⟨3⟩] a a rfl
  · exact unchanged_of_nothing.2.2 ⟨"Factor", "F", .groups Law.factor⟩
      (.groups (by simp [Law.siblingLaws])) [⟨2⟩, ⟨3⟩] a a rfl

end Action

end AlgebraEditor
