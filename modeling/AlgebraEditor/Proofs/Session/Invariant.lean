import AlgebraEditor.Proofs.Arena.Audit
import AlgebraEditor.Proofs.Formula.Adding
import AlgebraEditor.Proofs.Session.Actions

/-!
# The session invariant

A session stays sound: its arena is well-formed and filled, its selection is valid, and the ends of
a grown run are siblings. No operation on a sound session ends with a fault, and only requests and
texts that the user gives are refused.
-/

namespace AlgebraEditor

open Arena

namespace SessionStep

variable {α β : Type} {x : SessionStep α} {f : α → SessionStep β} {y : α} {s s' : Session}

theorem run_bind_of_ok (done : x.run s = .ok (y, s')) : (x >>= f).run s = (f y).run s' := by
  rw [StateT.run_bind, done]
  rfl

theorem run_discard (done : x.run s = .ok (y, s')) : (discard x).run s = .ok ((), s') := by
  change (do let (_, s') ← x.run s; return ((), s')) = _
  rw [done]
  rfl

theorem run_edit_of_ok {change : Edit α} {b : Arena} (done : change.run s.arena = .ok y b) :
    (Session.edit change).run s = .ok (y, { s with arena := b }) := by
  unfold Session.edit StateT.run
  beta_reduce
  rw [done]

theorem run_ask_of_ok {question : Arena → Except Fault α} (answer : question s.arena = .ok y) :
    (Session.ask question).run s = .ok (y, s) := by
  change (do return (← question s.arena, s)) = _
  rw [answer]
  rfl

theorem run_take_of_ok {move : Session → Select (Grow × Selection)} {grow : Grow}
    {selection : Selection} (moved : (move s).run = .ok (.ok (grow, selection))) :
    (Session.take move).run s = .ok (.ok (), { s with grow, selection }) := by
  unfold Session.take StateT.run
  dsimp only
  rw [moved]
  rfl

theorem run_take_of_error {move : Session → Select (Grow × Selection)} {e : SelectError}
    (refused : (move s).run = .ok (.error e)) :
    (Session.take move).run s = .ok (.error e, s) := by
  unfold Session.take StateT.run
  dsimp only
  rw [refused]
  rfl

end SessionStep

namespace Session

variable {s : Session} {a b : Arena} {x : Handle} {t : Term} {ts : List Term} {xs : List Handle}
  {selection : Selection} {text : List Char} {e : Formula.ParseError}

/-- What every operation relies on and restores. -/
structure Sound (s : Session) : Prop where
  wf : s.arena.WellFormed
  filled : s.arena.Filled ∅
  valid : s.selection.Valid s.arena
  grows : s.grow.Sound s.arena

/-- The step goes through with an answer of the given kind, and leaves the session sound. -/
def Passes {α : Type} (step : SessionStep α) (s : Session) (Q : α → Prop) : Prop :=
  ∃ answer s', step.run s = .ok (answer, s') ∧ Q answer ∧ s'.Sound

theorem Passes.bind {α β : Type} {x : SessionStep α} {f : α → SessionStep β} {y : α} {s' : Session}
    {Q : β → Prop} (done : x.run s = .ok (y, s')) (passes : Passes (f y) s' Q) :
    Passes (x >>= f) s Q := by
  obtain ⟨answer, s'', run, holds, sound⟩ := passes
  exact ⟨answer, s'', (SessionStep.run_bind_of_ok done).trans run, holds, sound⟩

theorem Passes.map {α β : Type} {x : SessionStep α} {Q : α → Prop} {Q' : β → Prop} {f : α → β}
    (passes : Passes x s Q) (each : ∀ answer, Q answer → Q' (f answer)) : Passes (f <$> x) s Q' := by
  obtain ⟨answer, s', run, holds, sound⟩ := passes
  refine ⟨f answer, s', ?_, each answer holds, sound⟩
  rw [StateT.run_map, run]
  rfl

/-! ### Parts of steps -/

theorem Sound.resting (sound : s.Sound) : Sound { s with grow := .inactive } where
  wf := sound.wf
  filled := sound.filled
  valid := sound.valid
  grows := Grow.sound_inactive _

theorem valid_ofRoot (a : Arena) : (Selection.ofRoot a).Valid a := .single .root

theorem Sound.adds (sound : s.Sound) (adds : s.arena.AddsNormal ts xs b) :
    Sound { s with arena := b } where
  wf := adds.wf
  filled := sound.filled.adds sound.wf adds.toAdds adds.filled
  valid := sound.valid.shown ⟨adds.root, fun _ => adds.stored⟩
  grows := by
    intro r grown member
    obtain ⟨p, owned, owned'⟩ := sound.grows r grown member
    obtain ⟨_, stored⟩ := Arena.stored_of_owner? owned
    obtain ⟨_, stored'⟩ := Arena.stored_of_owner? owned'
    exact ⟨p, (adds.owner?_eq stored).trans owned, (adds.owner?_eq stored').trans owned'⟩

/-- Sweeping takes nothing away that is selected, and the audit finds nothing. -/
theorem run_tidy (sound : s.Sound) (resting : s.grow = .inactive) :
    ∃ b, tidy.run s = .ok ((), { s with arena := b }) ∧ s.arena.Swept b ∧
      Sound { s with arena := b } := by
  obtain ⟨count, b, swept, kept⟩ := run_sweep sound.wf
  have wf := kept.wf sound.wf
  have filled := kept.filled sound.filled
  refine ⟨b, ?_, kept, wf, filled, sound.valid.shown kept.shows, ?_⟩
  · unfold tidy
    rw [SessionStep.run_bind_of_ok (SessionStep.run_discard (SessionStep.run_edit_of_ok swept)),
      SessionStep.run_ask_of_ok (wf.audit_eq_ok filled)]
  · rw [resting]
    exact Grow.sound_inactive b

theorem run_selectResult_of_ok {hs : List Handle}
    (resolved : (Selection.resolve s.arena hs).run = .ok (.ok selection)) :
    (selectResult hs).run s = .ok ((), { s with selection }) := by
  have moved : (do return (s.grow, ← Selection.resolve s.arena hs) : Select (Grow × Selection)).run =
      .ok (.ok (s.grow, selection)) := by
    rw [Select.run_bind_of_ok resolved]
    rfl
  unfold selectResult
  rw [SessionStep.run_bind_of_ok (SessionStep.run_take_of_ok moved)]
  rfl

/-- Whatever a change of the arena answers with, something valid is selected. -/
theorem run_selectResult (wf : s.arena.WellFormed) (resting : s.grow = .inactive)
    (hs : List Handle) : ∃ selection, (selectResult hs).run s = .ok ((), { s with selection }) ∧
      selection.Valid s.arena := by
  obtain ⟨out, resolved, valid⟩ := Selection.resolve_total wf hs
  cases out with
  | ok selection => exact ⟨selection, run_selectResult_of_ok resolved, valid selection rfl⟩
  | error e =>
    refine ⟨.ofRoot s.arena, ?_, valid_ofRoot _⟩
    have refused : (do return (s.grow, ← Selection.resolve s.arena hs) : Select (Grow × Selection)).run =
        .ok (.error e) := by
      rw [ExceptT.run_bind, resolved]
      rfl
    unfold selectResult
    rw [SessionStep.run_bind_of_ok (SessionStep.run_take_of_error refused), resting]
    rfl

/-- After an action that changed nothing, the same elements are selected. -/
theorem run_of_none (wf : s.arena.WellFormed) (filled : s.arena.Filled ∅)
    (valid : s.selection.Valid s.arena) {action : Action}
    (changed : (action.run s.selection.toList).run s.arena = .ok none s.arena) :
    ∃ s', (run action).run s = .ok (false, s') ∧ s'.Sound ∧ s'.selection = s.selection ∧
      s.arena.Swept s'.arena := by
  have ended : endGrow.run s = .ok ((), { s with grow := .inactive }) := rfl
  have read : (get : SessionStep Session).run { s with grow := .inactive } =
      .ok ({ s with grow := .inactive }, { s with grow := .inactive }) := rfl
  have edited : (edit (action.run s.selection.toList)).run { s with grow := .inactive } =
      .ok (none, { s with grow := .inactive }) := SessionStep.run_edit_of_ok changed
  have resting : Sound { s with grow := .inactive } :=
    ⟨wf, filled, valid, Grow.sound_inactive s.arena⟩
  obtain ⟨b, tidied, swept, sound⟩ := run_tidy resting rfl
  refine ⟨_, ?_, sound, rfl, swept⟩
  unfold run
  rw [SessionStep.run_bind_of_ok ended, SessionStep.run_bind_of_ok read]
  dsimp only
  rw [SessionStep.run_bind_of_ok edited]
  exact SessionStep.run_bind_of_ok tidied

/-- After an action that answered, what the answer selects is selected. -/
theorem run_of_some (wf : b.WellFormed) (filled : b.Filled ∅) {action : Action} {hs : List Handle}
    (changed : (action.run s.selection.toList).run s.arena = .ok (some hs) b)
    (selected : (selectResult hs).run { s with grow := .inactive, arena := b } =
      .ok ((), { s with grow := .inactive, arena := b, selection }))
    (valid : selection.Valid b) :
    ∃ s', (run action).run s = .ok (true, s') ∧ s'.Sound ∧ s'.selection = selection ∧
      b.Swept s'.arena := by
  have ended : endGrow.run s = .ok ((), { s with grow := .inactive }) := rfl
  have read : (get : SessionStep Session).run { s with grow := .inactive } =
      .ok ({ s with grow := .inactive }, { s with grow := .inactive }) := rfl
  have edited : (edit (action.run s.selection.toList)).run { s with grow := .inactive } =
      .ok (some hs, { s with grow := .inactive, arena := b }) := SessionStep.run_edit_of_ok changed
  have resting : Sound { s with grow := .inactive, arena := b, selection } :=
    ⟨wf, filled, valid, Grow.sound_inactive b⟩
  obtain ⟨c, tidied, swept, sound⟩ := run_tidy resting rfl
  refine ⟨_, ?_, sound, rfl, swept⟩
  unfold run
  rw [SessionStep.run_bind_of_ok ended, SessionStep.run_bind_of_ok read]
  dsimp only
  rw [SessionStep.run_bind_of_ok edited, SessionStep.run_bind_of_ok selected]
  exact SessionStep.run_bind_of_ok tidied

theorem run_passes (wf : s.arena.WellFormed) (valid : s.selection.Valid s.arena) {action : Action}
    (settles : (action.run s.selection.toList).Settles s.arena) :
    Passes (run action) s fun _ => True := by
  obtain ⟨result, b, changed, evolves, filled, same⟩ := settles
  cases result with
  | none =>
    obtain rfl := same rfl
    obtain ⟨s', done, sound, -⟩ := run_of_none wf filled valid changed
    exact ⟨false, s', done, trivial, sound⟩
  | some hs =>
    obtain ⟨selection, selected, valid⟩ :=
      run_selectResult (s := { s with grow := .inactive, arena := b }) evolves.wf rfl hs
    obtain ⟨s', done, sound, -⟩ := run_of_some evolves.wf filled changed selected valid
    exact ⟨true, s', done, trivial, sound⟩

/-! ### Moves -/

/-- A move that is refused leaves the selection as it is. -/
theorem run_move {target : Selection → Arena → Select Selection} {out : Except SelectError Selection}
    (moved : (target s.selection s.arena).run = .ok out) :
    (move target).run s = .ok (out.map fun _ => (),
      { s with grow := .inactive, selection := out.toOption.getD s.selection }) := by
  have ended : endGrow.run s = .ok ((), { s with grow := .inactive }) := rfl
  unfold move
  rw [SessionStep.run_bind_of_ok ended]
  cases out with
  | ok selection =>
    refine SessionStep.run_take_of_ok ?_
    rw [Select.run_bind_of_ok moved]
    rfl
  | error e =>
    refine SessionStep.run_take_of_error ?_
    rw [ExceptT.run_bind, moved]
    rfl

theorem run_select {hs : List Handle} {out : Except SelectError Selection}
    (resolved : (Selection.resolve s.arena hs).run = .ok out) :
    (select hs).run s = .ok (out.map fun _ => (),
      { s with grow := .inactive, selection := out.toOption.getD s.selection }) :=
  run_move resolved

theorem move_passes (sound : s.Sound) (target : Selection → Arena → Select Selection)
    (moved : (target s.selection s.arena).run = .ok (.ok selection))
    (valid : selection.Valid s.arena) : Passes (move target) s (· = .ok ()) :=
  ⟨_, _, run_move moved, rfl, sound.wf, sound.filled, valid, Grow.sound_inactive _⟩

theorem select_passes (sound : s.Sound) (hs : List Handle) :
    Passes (select hs) s fun _ => True := by
  obtain ⟨out, resolved, valid⟩ := Selection.resolve_total sound.wf hs
  have moved := run_select resolved
  cases out with
  | ok selection =>
    exact ⟨_, _, moved, trivial, sound.wf, sound.filled, valid selection rfl, Grow.sound_inactive _⟩
  | error e => exact ⟨_, _, moved, trivial, sound.resting⟩

theorem run_growSelection {d : Direction} {grow : Grow}
    (stepped : (s.grow.begin.step s.selection s.arena d).run = .ok (.ok (grow, selection))) :
    (growSelection d).run s = .ok (.ok (), { s with grow, selection }) := by
  have begun : (modify fun s => { s with grow := s.grow.begin } : SessionStep Unit).run s =
      .ok ((), { s with grow := s.grow.begin }) := rfl
  unfold growSelection
  rw [SessionStep.run_bind_of_ok begun]
  exact SessionStep.run_take_of_ok (s := { s with grow := s.grow.begin }) stepped

theorem growSelection_passes (sound : s.Sound) (d : Direction) :
    Passes (growSelection d) s (· = .ok ()) := by
  have begun : s.grow.begin.Sound s.arena := sound.grows
  obtain ⟨grow, selection, stepped, valid, grows⟩ := Grow.step_total sound.wf sound.valid begun d
  exact ⟨_, _, run_growSelection stepped, rfl, sound.wf, sound.filled, valid, grows⟩

/-! ### Changes -/

theorem runKey_passes (sound : s.Sound) (key : String) : Passes (runKey key) s fun _ => True := by
  unfold runKey
  cases found : Catalog.builtIn.find? key with
  | none => exact ⟨none, s, rfl, trivial, sound⟩
  | some action =>
    have settles := Action.run_settles (List.mem_of_find?_eq_some found) sound.wf sound.filled
      sound.valid
    exact (run_passes sound.wf sound.valid settles).map fun _ _ => trivial

theorem editSelected_of_error (read : (Edit.plantText text).run s.arena = .ok (.error e) b) :
    (editSelected text).run s = .ok (.error e, { s with arena := b }) :=
  SessionStep.run_bind_of_ok (SessionStep.run_edit_of_ok read)

theorem setExpression_of_error (read : (Edit.plantText text).run s.arena = .ok (.error e) b) :
    (setExpression text).run s = .ok (.error e, { s with arena := b }) :=
  SessionStep.run_bind_of_ok (SessionStep.run_edit_of_ok read)

theorem editSelected_passes (sound : s.Sound)
    (read : (Edit.plantText text).run s.arena = .ok (.ok x) b) :
    Passes (editSelected text) s fun answer => ∃ done, answer = .ok done := by
  obtain ⟨t, -, adds⟩ := Edit.parse_of_run_ok sound.wf read
  have added := sound.adds adds
  have settles := Action.run_only_settles "Edit as text" "Enter" sound.wf sound.filled sound.valid
    adds.toAdds (List.mem_singleton_self x) adds.filled
  exact .bind (SessionStep.run_edit_of_ok read)
    ((run_passes added.wf added.valid settles).map fun done _ => ⟨done, rfl⟩)

theorem editSelected_refuses (sound : s.Sound)
    (read : (Edit.plantText text).run s.arena = .ok (.error e) b) :
    Passes (editSelected text) s (· = .error e) := by
  obtain ⟨-, ts, xs, adds⟩ := Edit.parse_of_run_error sound.wf read
  exact ⟨_, _, editSelected_of_error read, rfl, sound.adds adds⟩

theorem setExpression_passes (sound : s.Sound)
    (read : (Edit.plantText text).run s.arena = .ok (.ok x) b) :
    Passes (setExpression text) s (· = .ok ()) := by
  obtain ⟨t, -, adds⟩ := Edit.parse_of_run_ok sound.wf read
  obtain ⟨old, d, replaced, evolves, filled⟩ := Edit.setContent_total sound.wf sound.filled
    adds.toAdds (List.mem_singleton_self x) adds.filled
  have changed : (edit (Edit.setContent x)).run { s with arena := b } =
      .ok (old, { s with arena := d }) := SessionStep.run_edit_of_ok replaced
  have selected : selectRoot.run { s with arena := d } = .ok ((), ofArena d) := rfl
  have resting : Sound (ofArena d) :=
    ⟨evolves.wf, filled, valid_ofRoot d, Grow.sound_inactive d⟩
  obtain ⟨c, tidied, -, sound⟩ := run_tidy resting rfl
  refine .bind (SessionStep.run_edit_of_ok read)
    (.bind (SessionStep.run_discard changed) (.bind selected (.bind tidied ?_)))
  exact ⟨_, _, rfl, rfl, sound⟩

theorem setExpression_refuses (sound : s.Sound)
    (read : (Edit.plantText text).run s.arena = .ok (.error e) b) :
    Passes (setExpression text) s (· = .error e) := by
  obtain ⟨-, ts, xs, adds⟩ := Edit.parse_of_run_error sound.wf read
  exact ⟨_, _, setExpression_of_error read, rfl, sound.adds adds⟩

/-! ### The start -/

/-- A session on a text is one on the arena that the text was put into. -/
theorem ofText_eq_ok (started : ofText text = .ok (.ok s)) :
    ∃ a, (Edit.setText text).run .zero = .ok (.ok ()) a ∧ s = ofArena a := by
  unfold ofText at started
  split at started
  case h_1 answer a run =>
    cases answer with
    | error e => cases started
    | ok u =>
      cases started
      exact ⟨a, run, rfl⟩
  case h_2 => cases started

theorem accepts_of_setText (run : (Edit.setText text).run .zero = .ok (.ok ()) b) :
    ∃ t, Formula.Accepts text t := by
  obtain ⟨answer, d, read, rest⟩ := Edit.run_bind_eq_ok.mp run
  cases answer with
  | error e => cases rest
  | ok x =>
    obtain ⟨t, parsed, -⟩ := Edit.parse_of_run_ok wellFormed_zero read
    exact ⟨t, Formula.accepts_iff.mpr parsed⟩

theorem sound_ofText (accepted : Formula.Accepts text t) :
    ∃ s, ofText text = .ok (.ok s) ∧ s.Sound := by
  obtain ⟨x, b, read, -⟩ := accepted
  obtain ⟨t, -, adds⟩ := Edit.parse_of_run_ok wellFormed_zero read
  obtain ⟨old, d, replaced, evolves, filled⟩ := Edit.setContent_total wellFormed_zero filled_zero
    adds.toAdds (List.mem_singleton_self x) adds.filled
  obtain ⟨count, c, swept, kept⟩ := run_sweep evolves.wf
  have run : (Edit.setText text).run .zero = .ok (.ok ()) c := by
    rw [Edit.setText, Edit.run_bind_of_ok read]
    dsimp only
    rw [Edit.run_bind_of_ok (Edit.run_discard replaced), Edit.run_bind_of_ok (Edit.run_discard swept)]
    rfl
  refine ⟨ofArena c, by rw [ofText, run]; rfl, kept.wf evolves.wf, kept.filled filled,
    valid_ofRoot c, Grow.sound_inactive c⟩

end Session

end AlgebraEditor
