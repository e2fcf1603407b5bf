import AlgebraEditor.Proofs.Renaming.Sessions
import AlgebraEditor.Proofs.Renaming.Writing

/-!
# What is seen of a session

A user sees the replies to the requests, and after each of them the text, the marked view, what is
selected and what growing remembers. Sound sessions show all of this, and sessions that are alike
show the same but for the names of the elements, however they are used.
-/

namespace AlgebraEditor

open Arena

namespace Session

/-! ### Replies -/

/-- A full reply to a request. -/
inductive Reply where
  | moved (answer : Except SelectError Unit)
  | acted (done : Option Bool)
  | edited (answer : Except Formula.ParseError Bool)
  | set (answer : Except Formula.ParseError Unit)

/-- Whether the request was carried out. -/
def Reply.outcome : Reply → Except Refusal Unit
  | moved answer => answer.mapError .select
  | acted _ => .ok ()
  | edited answer => (answer.mapError .parse).map fun _ => ()
  | set answer => answer.mapError .parse

namespace Request

/-- Carries out the request and replies in full. -/
def reply : Request → SessionStep Reply
  | select hs => .moved <$> Session.select hs
  | selectParent => .moved <$> Session.selectParent
  | selectChild => .moved <$> Session.selectChild
  | selectSibling d => .moved <$> Session.selectSibling d
  | selectOutermostSibling d => .moved <$> Session.selectOutermostSibling d
  | grow d => .moved <$> growSelection d
  | runKey key => .acted <$> Session.runKey key
  | editSelected text => .edited <$> Session.editSelected text
  | setExpression text => .set <$> Session.setExpression text

theorem outcome_reply (request : Request) : Reply.outcome <$> request.reply = request.carryOut := by
  cases request <;> rw [reply, carryOut, ← comp_map] <;> rfl

/-- The request with the handles that it names under other names. -/
def rename (f : Handle → Handle) : Request → Request
  | select hs => select (hs.map f)
  | request => request

end Request

/-! ### Displays -/

/-- What a session shows: its text, the view with the selected elements marked, what is selected,
and whether the selection grows and from where. -/
structure Display where
  text : List Char
  view : List Char
  selection : Selection
  grow : Grow

/-- The display with its elements under other names. -/
def Display.rename (f : Handle → Handle) (d : Display) : Display :=
  ⟨d.text, d.view, d.selection.rename f, d.grow.rename f⟩

/-- What the session shows. -/
def display (s : Session) : Except Fault Display := do
  let text ← s.arena.write .text s.arena.root
  return ⟨text, ← s.arena.writeMarked s.selection.toList, s.selection, s.grow⟩

/-- Carries out requests in turn, and logs the replies together with what is shown after each. -/
def play : List Request → Session → Except Fault (List (Reply × Display))
  | [], _ => return []
  | request :: rest, s => do
    let (reply, after) ← request.reply.run s
    let shown ← after.display
    return (reply, shown) :: (← play rest after)

variable {s s' t : Session} {f : Handle → Handle}

theorem Sound.display (sound : s.Sound) : ∃ shown, s.display = .ok shown := by
  obtain ⟨inner, stored⟩ := sound.wf.wrapper
  obtain ⟨view, marked⟩ := sound.wf.exists_writeMarked s.selection.toList
  unfold Session.display
  rw [sound.wf.write_eq_ok stored, ok_bind, marked]
  exact ⟨_, rfl⟩

theorem Sound.reply (sound : s.Sound) (request : Request) :
    ∃ reply t, request.reply.run s = .ok (reply, t) ∧ t.Sound := by
  obtain ⟨answer, t, run, -, sound'⟩ := carryOut_passes sound request
  rw [← request.outcome_reply] at run
  obtain ⟨reply, replied, -⟩ := SessionStep.run_map_eq_ok.mp run
  exact ⟨reply, t, replied, sound'⟩

theorem Sound.play (sound : s.Sound) (requests : List Request) :
    ∃ log, Session.play requests s = .ok log := by
  induction requests generalizing s with
  | nil => exact ⟨[], rfl⟩
  | cons request rest ih =>
    obtain ⟨reply, t, replied, sound'⟩ := sound.reply request
    obtain ⟨shown, displayed⟩ := sound'.display
    obtain ⟨log, later⟩ := ih sound'
    unfold Session.play
    rw [replied, ok_bind]
    dsimp only
    rw [displayed, ok_bind, later]
    exact ⟨_, rfl⟩

/-! ### Alike sessions -/

theorem Alike.display (alike : Alike f s s') : Mirrors (Display.rename f) s.display s'.display := by
  unfold Session.display
  rw [alike.arena.root, alike.selection, alike.grow]
  refine (alike.arena.write .text s.arena.root).bind fun _ => ?_
  exact (alike.arena.writeMarked s.selection.toList).map fun _ => rfl

theorem reply_follows (inj : Function.Injective f) (request : Request) :
    SessionStep.Follows f id request.reply (request.rename f).reply := by
  cases request with
  | select hs =>
    exact (move_follows fun _ _ _ e => Selection.resolve_follows e hs).map fun _ => rfl
  | selectParent => exact (move_follows fun s _ _ e => Selection.toParent_follows e s).map fun _ => rfl
  | selectChild => exact (move_follows fun s _ _ e => Selection.toChild_follows e s).map fun _ => rfl
  | selectSibling d =>
    exact (move_follows fun s _ _ e => Selection.toSibling_follows e s d).map fun _ => rfl
  | selectOutermostSibling d =>
    exact (move_follows fun s _ _ e => Selection.toOutermostSibling_follows e s d).map fun _ => rfl
  | grow d => exact (growSelection_follows d).map fun _ => rfl
  | runKey key => exact (runKey_follows inj key).map fun _ => rfl
  | editSelected text => exact (editSelected_follows inj text).map fun _ => rfl
  | setExpression text => exact (setExpression_follows inj text).map fun _ => rfl

theorem Alike.play (alike : Alike f s s') (requests : List Request) :
    Mirrors (List.map (Prod.map id (Display.rename f))) (play requests s)
      (play (requests.map (Request.rename f)) s') := by
  induction requests generalizing s s' with
  | nil => exact .pure rfl
  | cons request rest ih =>
    intro log played
    obtain ⟨⟨reply, t⟩, replied, later⟩ := bind_eq_ok.mp played
    obtain ⟨t', replied', alike'⟩ :=
      reply_follows alike.arena.injective request s s' reply t alike replied
    have after : Mirrors (List.map (Prod.map id (Display.rename f)))
        (do let shown ← t.display; return (reply, shown) :: (← play rest t))
        (do
          let shown ← t'.display
          return (reply, shown) :: (← play (rest.map (Request.rename f)) t')) :=
      alike'.display.bind fun _ => (ih alike').map fun _ => rfl
    rw [List.map_cons]
    unfold Session.play
    rw [replied', ok_bind]
    exact after log later

end Session

end AlgebraEditor
