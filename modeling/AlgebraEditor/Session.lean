import AlgebraEditor.Arena.Audit
import AlgebraEditor.Catalog
import AlgebraEditor.Formula.Parser
import AlgebraEditor.Selection.Grow

/-!
# Sessions

A session owns an expression, the selection in it, and whether the selection grows. Text that does
not parse and requests that cannot be selected are answers, and leave what is shown unchanged.
-/

namespace AlgebraEditor

/-- Makes the expression that a text writes the content, and removes everything else. -/
def Edit.setText (text : List Char) : Edit (Except Formula.ParseError Unit) := do
  match ← plantText text with
  | .error e => return .error e
  | .ok new =>
    discard (setContent new)
    discard sweep
    return .ok ()

/-- Replaces one element by `new`, or the whole expression if the element is the root. -/
def ElementRule.replaceBy (new : Handle) : ElementRule := fun h => do
  match ← Edit.parentOf h with
  | some parent => Edit.replace parent h new
  | none => discard (Edit.setContent new)
  return some [new]

/-- An expression under edit. -/
structure Session where
  arena : Arena
  selection : Selection
  grow : Grow

/-- A step of a session. -/
abbrev SessionStep := StateT Session (Except Fault)

namespace Session

/-- A session on an arena, with the root selected. -/
def ofArena (a : Arena) : Session := ⟨a, .ofRoot a, .inactive⟩

/-- Edits the arena of the session. -/
def edit {α : Type} (change : Edit α) : SessionStep α := fun s =>
  match change.run s.arena with
  | .ok x arena => .ok (x, { s with arena })
  | .error fault _ => .error fault

/-- Asks something about the arena of the session. -/
def ask {α : Type} (question : Arena → Except Fault α) : SessionStep α := fun s => do
  return (← question s.arena, s)

/-- Takes the outcome of a move. A select error leaves the session as it is. -/
def take (move : Session → Select (Grow × Selection)) : SessionStep (Except SelectError Unit) :=
  fun s => do
    match ← (move s).run with
    | .ok (grow, selection) => return (.ok (), { s with grow, selection })
    | .error e => return (.error e, s)

/-- Stops growing. -/
def endGrow : SessionStep Unit := modify fun s => { s with grow := .inactive }

/-- Stops growing and moves the selection. -/
def move (target : Selection → Arena → Select Selection) : SessionStep (Except SelectError Unit) :=
  do
    endGrow
    take fun s => return (s.grow, ← target s.selection s.arena)

/-- Stops growing and selects the root. -/
def selectRoot : SessionStep Unit := do
  endGrow
  modify fun s => { s with selection := .ofRoot s.arena }

/-! ### Moves -/

/-- Selects the given elements. -/
def select (hs : List Handle) : SessionStep (Except SelectError Unit) :=
  move fun _ a => Selection.resolve a hs

/-- Selects the first child. -/
def selectChild : SessionStep (Except SelectError Unit) := move Selection.toChild

/-- Selects the parent. -/
def selectParent : SessionStep (Except SelectError Unit) := move Selection.toParent

/-- Selects the sibling in a direction. -/
def selectSibling (d : Direction) : SessionStep (Except SelectError Unit) :=
  move fun s a => s.toSibling a d

/-- Selects the outermost sibling in a direction. -/
def selectOutermostSibling (d : Direction) : SessionStep (Except SelectError Unit) :=
  move fun s a => s.toOutermostSibling a d

/-- Grows or shrinks the selection by one sibling. -/
def growSelection (d : Direction) : SessionStep (Except SelectError Unit) := do
  modify fun s => { s with grow := s.grow.begin }
  take fun s => s.grow.step s.selection s.arena d

/-! ### Changes -/

/-- Selects what an action answered with, or the root if that cannot be selected. -/
def selectResult (hs : List Handle) : SessionStep Unit := do
  match ← take fun s => return (s.grow, ← Selection.resolve s.arena hs) with
  | .ok () => return
  | .error _ => selectRoot

/-- Removes what is no longer part of the expression, and checks the rest. -/
def tidy : SessionStep Unit := do
  discard (edit Edit.sweep)
  ask Arena.audit

/-- Runs an action on the selected elements and selects its result. The answer is whether the
action did something. -/
def run (action : Action) : SessionStep Bool := do
  endGrow
  let selected := (← get).selection.toList
  let result ← edit (action.run selected)
  if let some hs := result then selectResult hs
  tidy
  return result.isSome

/-- Runs the built-in action bound to a key, if there is one. -/
def runKey (key : String) : SessionStep (Option Bool) :=
  match Catalog.builtIn.find? key with
  | none => return none
  | some action => some <$> run action

/-- Replaces the selected element by the expression that a text writes. The answer is whether one
element alone was selected. -/
def editSelected (text : List Char) : SessionStep (Except Formula.ParseError Bool) := do
  match ← edit (Edit.plantText text) with
  | .error e => return .error e
  | .ok new => return .ok (← run ⟨"Edit as text", "Enter", .only (.replaceBy new)⟩)

/-- Replaces the whole expression by the one that a text writes, and selects the root. -/
def setExpression (text : List Char) : SessionStep (Except Formula.ParseError Unit) := do
  match ← edit (Edit.plantText text) with
  | .error e => return .error e
  | .ok new =>
    discard (edit (Edit.setContent new))
    selectRoot
    tidy
    return .ok ()

/-- A session on the expression that a text writes. -/
def ofText (text : List Char) : Except Fault (Except Formula.ParseError Session) :=
  match (Edit.setText text).run .zero with
  | .ok answer a => .ok (answer.map fun _ => ofArena a)
  | .error fault _ => .error fault

end Session

end AlgebraEditor
