import AlgebraEditor.Proofs.Session.Invariant

/-!
# Runs of a session

A session is used by one request after the other, in any order. Every request is carried out
without a fault and leaves a consistent session, whatever came before it.
-/

namespace AlgebraEditor

open Arena

namespace Session

/-- What a user asks of a session. -/
inductive Request where
  | select (hs : List Handle)
  | selectParent
  | selectChild
  | selectSibling (d : Direction)
  | selectOutermostSibling (d : Direction)
  | grow (d : Direction)
  | runKey (key : String)
  | editSelected (text : List Char)
  | setExpression (text : List Char)

/-- Why a request is not carried out. -/
inductive Refusal where
  | select (e : SelectError)
  | parse (e : Formula.ParseError)

namespace Request

/-- Carries out the request. -/
def carryOut : Request → SessionStep (Except Refusal Unit)
  | select hs => Except.mapError .select <$> Session.select hs
  | selectParent => Except.mapError .select <$> Session.selectParent
  | selectChild => Except.mapError .select <$> Session.selectChild
  | selectSibling d => Except.mapError .select <$> Session.selectSibling d
  | selectOutermostSibling d => Except.mapError .select <$> Session.selectOutermostSibling d
  | grow d => Except.mapError .select <$> growSelection d
  | runKey key => (fun _ => .ok ()) <$> Session.runKey key
  | editSelected text =>
    (fun answer => (answer.mapError .parse).map fun _ => ()) <$> Session.editSelected text
  | setExpression text => Except.mapError .parse <$> Session.setExpression text

/-- The answers a request can get. Of the moves only a selection of given elements is ever refused,
and a text is refused exactly if it does not parse, with the error that says why. -/
def Admits : Request → Except Refusal Unit → Prop
  | select _, answer => answer = .ok () ∨ ∃ e, answer = .error (.select e)
  | editSelected text, answer | setExpression text, answer =>
    (answer = .ok () ∧ ∃ t, Formula.Accepts text t) ∨
      ∃ e, answer = .error (.parse e) ∧ Formula.Refuses text e
  | _, answer => answer = .ok ()

end Request

/-- A request of a run, with its answer and the session it leaves. -/
structure Entry where
  request : Request
  answer : Except Refusal Unit
  after : Session

/-- Carries out requests in turn, and logs them. -/
def runAll : List Request → Session → Except Fault (List Entry)
  | [], _ => return []
  | request :: rest, s => do
    let (answer, after) ← request.carryOut.run s
    return ⟨request, answer, after⟩ :: (← runAll rest after)

/-- The arena passes its audit, the selection is valid, and selecting it again changes nothing. -/
structure Consistent (s : Session) : Prop where
  audited : s.arena.audit = .ok ()
  valid : s.selection.Valid s.arena
  reselected : ∃ s', (select s.selection.toList).run s = .ok (.ok (), s') ∧
    s'.selection = s.selection

variable {s : Session} {t : Term} {text : List Char}

theorem Sound.consistent (sound : s.Sound) : s.Consistent where
  audited := sound.wf.audit_eq_ok sound.filled
  valid := sound.valid
  reselected := ⟨_, run_select (sound.valid.resolve sound.wf), rfl⟩

theorem Passes.mapError {ε ε' α : Type} {x : SessionStep (Except ε α)} {y : α} {f : ε → ε'}
    (passes : Passes x s (· = .ok y)) : Passes (Except.mapError f <$> x) s (· = .ok y) := by
  refine passes.map fun answer done => ?_
  rw [done]
  rfl

theorem carryOut_passes (sound : s.Sound) (request : Request) :
    Passes request.carryOut s request.Admits := by
  cases request with
  | select hs =>
    refine (select_passes sound hs).map fun answer _ => ?_
    cases answer with
    | ok => exact .inl rfl
    | error e => exact .inr ⟨e, rfl⟩
  | selectParent =>
    obtain ⟨_, moved, valid⟩ := Selection.toParent_total sound.wf sound.valid
    exact (move_passes sound Selection.toParent moved valid).mapError
  | selectChild =>
    obtain ⟨_, moved, valid⟩ := Selection.toChild_total sound.wf sound.valid
    exact (move_passes sound Selection.toChild moved valid).mapError
  | selectSibling d =>
    obtain ⟨_, moved, valid⟩ := Selection.toSibling_total sound.wf sound.valid d
    exact (move_passes sound (fun s a => s.toSibling a d) moved valid).mapError
  | selectOutermostSibling d =>
    obtain ⟨_, moved, valid⟩ := Selection.toOutermostSibling_total sound.wf sound.valid d
    exact (move_passes sound (fun s a => s.toOutermostSibling a d) moved valid).mapError
  | grow d => exact (growSelection_passes sound d).mapError
  | runKey key => exact (runKey_passes sound key).map fun _ _ => rfl
  | editSelected text =>
    cases parsed : Formula.parse text with
    | ok t =>
      obtain ⟨x, b, read, -⟩ := Edit.run_plantText_of_ok sound.wf parsed
      refine (editSelected_passes sound read).map fun answer holds => ?_
      obtain ⟨done, rfl⟩ := holds
      exact .inl ⟨rfl, t, Formula.accepts_iff.mpr parsed⟩
    | error e =>
      obtain ⟨_, _, b, read, -⟩ := Edit.run_plantText_of_error sound.wf parsed
      refine (editSelected_refuses sound read).map fun answer refused => ?_
      exact .inr ⟨e, by rw [refused]; rfl, Formula.refuses_iff.mpr parsed⟩
  | setExpression text =>
    cases parsed : Formula.parse text with
    | ok t =>
      obtain ⟨x, b, read, -⟩ := Edit.run_plantText_of_ok sound.wf parsed
      refine (setExpression_passes sound read).map fun answer done => ?_
      exact .inl ⟨by rw [done]; rfl, t, Formula.accepts_iff.mpr parsed⟩
    | error e =>
      obtain ⟨_, _, b, read, -⟩ := Edit.run_plantText_of_error sound.wf parsed
      refine (setExpression_refuses sound read).map fun answer refused => ?_
      exact .inr ⟨e, by rw [refused]; rfl, Formula.refuses_iff.mpr parsed⟩

theorem runAll_consistent (sound : s.Sound) (requests : List Request) :
    ∃ log, runAll requests s = .ok log ∧ log.map Entry.request = requests ∧
      ∀ entry ∈ log, entry.request.Admits entry.answer ∧ entry.after.Consistent := by
  induction requests generalizing s with
  | nil => exact ⟨[], rfl, rfl, List.forall_mem_nil _⟩
  | cons request rest ih =>
    obtain ⟨answer, after, run, admitted, sound⟩ := carryOut_passes sound request
    obtain ⟨log, later, same, all⟩ := ih sound
    refine ⟨⟨request, answer, after⟩ :: log, ?_, ?_, ?_⟩
    · unfold runAll
      rw [run, ok_bind]
      dsimp only
      rw [later]
      rfl
    · rw [List.map_cons, same]
    · intro entry member
      rcases List.mem_cons.mp member with rfl | member
      · exact ⟨admitted, sound.consistent⟩
      · exact all entry member

/-- However a session on an accepted text is used, no request ends with a fault, only requests that
cannot be selected and texts that do not parse are refused, and every request leaves the session
consistent. -/
theorem ofText_stays_consistent (accepted : Formula.Accepts text t) :
    ∃ start, ofText text = .ok (.ok start) ∧ start.Consistent ∧ ∀ requests,
      ∃ log, runAll requests start = .ok log ∧ log.map Entry.request = requests ∧
        ∀ entry ∈ log, entry.request.Admits entry.answer ∧ entry.after.Consistent := by
  obtain ⟨start, started, sound⟩ := sound_ofText accepted
  exact ⟨start, started, sound.consistent, runAll_consistent sound⟩

/-- The expression `x*y*z` with its factors in an order, and places behind it that are free again. -/
def threeFactors (hs : List Handle) (free : List (Option Node)) : Arena :=
  let places : Array (Option Node) := #[some ⟨none, .root ⟨5⟩⟩, none, some ⟨some ⟨5⟩, .symbol "x"⟩,
    some ⟨some ⟨5⟩, .symbol "y"⟩, some ⟨some ⟨5⟩, .symbol "z"⟩, some ⟨some ⟨0⟩, .product hs⟩]
  ⟨places ++ free, ⟨0⟩⟩

/-- In `x*y*z` the first two factors are selected and swapped. Then a text is refused. -/
theorem ofText_stays_consistent_of_product : ∃ start first second third,
    ofText ['x', '*', 'y', '*', 'z'] = .ok (.ok start) ∧
    runAll [.select [⟨2⟩, ⟨3⟩], .runKey "S", .editSelected ['(']] start = .ok
      [⟨.select [⟨2⟩, ⟨3⟩], .ok (), first⟩, ⟨.runKey "S", .ok (), second⟩,
        ⟨.editSelected ['('], .error (.parse ⟨.unexpectedEnd, ⟨1, 1⟩⟩), third⟩] ∧
    first.arena = threeFactors [⟨2⟩, ⟨3⟩, ⟨4⟩] [] ∧
    second.arena = threeFactors [⟨3⟩, ⟨2⟩, ⟨4⟩] [none, none] ∧ third.arena = second.arena ∧
    start.Consistent ∧ first.Consistent ∧ second.Consistent ∧ third.Consistent := by
  have accepted : Formula.Accepts ['x', '*', 'y', '*', 'z']
      (.product [.symbol "x", .symbol "y", .symbol "z"]) := ⟨_, _, rfl, rfl⟩
  obtain ⟨start, started, consistent, runs⟩ := ofText_stays_consistent accepted
  have started' : ofText ['x', '*', 'y', '*', 'z'] =
      .ok (.ok (ofArena (threeFactors [⟨2⟩, ⟨3⟩, ⟨4⟩] []))) := rfl
  cases started'.symm.trans started
  obtain ⟨log, ran, -, stays⟩ := runs [.select [⟨2⟩, ⟨3⟩], .runKey "S", .editSelected ['(']]
  have ran' : runAll [.select [⟨2⟩, ⟨3⟩], .runKey "S", .editSelected ['(']]
      (ofArena (threeFactors [⟨2⟩, ⟨3⟩, ⟨4⟩] [])) = .ok
        [⟨.select [⟨2⟩, ⟨3⟩], .ok (),
          ⟨threeFactors [⟨2⟩, ⟨3⟩, ⟨4⟩] [], ⟨⟨2⟩, [⟨3⟩]⟩, .inactive⟩⟩,
        ⟨.runKey "S", .ok (),
          ⟨threeFactors [⟨3⟩, ⟨2⟩, ⟨4⟩] [none, none], ⟨⟨3⟩, [⟨2⟩]⟩, .inactive⟩⟩,
        ⟨.editSelected ['('], .error (.parse ⟨.unexpectedEnd, ⟨1, 1⟩⟩),
          ⟨threeFactors [⟨3⟩, ⟨2⟩, ⟨4⟩] [none, none], ⟨⟨3⟩, [⟨2⟩]⟩, .inactive⟩⟩] := rfl
  cases ran'.symm.trans ran
  exact ⟨_, _, _, _, started, ran, rfl, rfl, rfl, consistent, (stays _ (.head _)).2,
    (stays _ (.tail _ (.head _))).2, (stays _ (.tail _ (.tail _ (.head _)))).2⟩

end Session

end AlgebraEditor
