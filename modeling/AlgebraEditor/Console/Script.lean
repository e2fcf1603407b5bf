import AlgebraEditor.Console.Marked
import AlgebraEditor.Console.Report
import AlgebraEditor.Session
import AlgebraEditor.Text.Lines

/-!
# Running lines

A line is run against a session and replies with what is printed, what is reported, and whether to
go on. A whole input is run line by line, as a script or at a prompt.
-/

namespace AlgebraEditor.Console

/-- The expression that is edited when none is given. -/
def defaultExpression : List Char :=
  "(x^2)^(y^2) - 2*x - (x^2 - 1^(-2)) + (x + y)*(x - y)".toList

/-- What a line leads to. -/
structure Reply where
  printed : List Char
  report? : Option Report
  quits : Bool

namespace Reply

/-- A reply that prints a text and goes on. -/
def print (text : List Char) : Reply := ⟨text, none, false⟩

/-- A reply that prints and reports nothing and goes on. -/
def silent : Reply := print []

end Reply

/-- Moves the selection of the session. -/
def navigate : Navigation → SessionStep (Except SelectError Unit)
  | .child => Session.selectChild
  | .parent => Session.selectParent
  | .previous => Session.selectSibling .previous
  | .next => Session.selectSibling .next
  | .growPrevious => Session.growSelection .previous
  | .growNext => Session.growSelection .next
  | .first => Session.selectOutermostSibling .previous
  | .last => Session.selectOutermostSibling .next

/-- The line that shows the expression with its selection. -/
def view (s : Session) : Except Fault (List Char) :=
  return (← s.arena.writeMarked s.selection.toList) ++ ['\n']

/-- Replies with a notice and the expression as it is now. -/
def redraw (notice : List Char) : SessionStep Reply := fun s => do
  return (.print (notice ++ (← view s)), s)

/-- Runs a command. -/
def execute : Command → SessionStep (Except Failure Reply)
  | .navigate direction => do
    match ← navigate direction with
    | .ok () => return .ok (← redraw [])
    | .error e => return .error (.select e)
  | .action key => do
    if (← Session.runKey key) = some false then
      let name := ((Catalog.builtIn.find? key).map Action.name).getD key
      return .ok (← redraw (name.toList ++ " does not apply to the selection\n".toList))
    return .ok (← redraw [])
  | .set text => do
    match ← Session.setExpression text with
    | .ok () => return .ok (← redraw [])
    | .error e => return .error (.parse e)
  | .edit text => do
    match ← Session.editSelected text with
    | .ok true => return .ok (← redraw [])
    | .ok false => return .ok (← redraw "select a single element to edit it\n".toList)
    | .error e => return .error (.parse e)
  | .text => do
    let text ← Session.ask fun a => do a.write .text (← a.content)
    return .ok (.print (text ++ ['\n']))
  | .help => return .ok (.print help)
  | .quit => return .ok ⟨[], none, true⟩

/-- Runs a line. Blank lines and lines that start with a hash sign do nothing. -/
def runLine (distance : List Char → List Char → Nat) (line : List Char) : SessionStep Reply := do
  let line := Text.trim line
  if line.isEmpty || line.head? = some '#' then return .silent
  let outcome ← match Command.ofLine distance line with
    | .ok command => execute command
    | .error e => pure (.error (.unknown e))
  match outcome with
  | .ok reply => return reply
  | .error failure => return ⟨[], some ⟨reportedText line, failure⟩, false⟩

/-! ### Whole inputs -/

/-- Where lines come from. -/
inductive Mode where
  /-- Lines are read from a file or a pipe. -/
  | script
  /-- Every line is asked for with a prompt. -/
  | prompt
  deriving DecidableEq

/-- What is printed before a line is read. -/
def Mode.ask : Mode → List Char
  | script => []
  | prompt => ['>', ' ']

/-- The report on a line that is not valid UTF-8. Such a line ends the run. -/
def Mode.undecodable : Mode → List Char
  | script => "error: stream did not contain valid UTF-8\n".toList
  | prompt => "stream did not contain valid UTF-8\n".toList

/-- All that a run prints and reports, and its exit code. -/
structure Transcript where
  printed : List Char
  reported : List Char
  exitCode : UInt8

section

variable (tools : Tools)

/-- What a reply reports, if anything. -/
def Reply.reported (reply : Reply) : List Char :=
  (reply.report?.map (Report.written tools.draw)).getD []

/-- Puts a reply in front of what the following lines lead to. -/
def Transcript.after (earlier : List Char) (reply : Reply) (later : Transcript) : Transcript :=
  ⟨earlier ++ reply.printed ++ later.printed, reply.reported tools ++ later.reported, later.exitCode⟩

/-- Runs the lines of an input in order, up to one that quits or cannot be decoded. -/
def runLines (mode : Mode) : List (Option (List Char)) → Session → Except Fault Transcript
  | [], _ => return ⟨mode.ask, [], 0⟩
  | none :: _, _ => return ⟨mode.ask, mode.undecodable, 0⟩
  | some line :: rest, s => do
    let (reply, s) ← runLine tools.distance line s
    let later ← if reply.quits then pure ⟨[], [], 0⟩ else runLines mode rest s
    return .after tools mode.ask reply later

/-- Runs a whole input on the expression that a text writes. -/
def runInput (mode : Mode) (expression : List Char) (lines : List (Option (List Char))) :
    Except Fault Transcript := do
  match ← Session.ofText expression with
  | .error e => return ⟨[], Report.written tools.draw ⟨expression, .parse e⟩, 1⟩
  | .ok s =>
    let first ← view s
    return .after tools first .silent (← runLines tools mode lines s)

end

end AlgebraEditor.Console
