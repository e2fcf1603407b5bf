import AlgebraEditor.Console.Script
import AlgebraEditor.Text.EditDistance

/-!
# The command line

The expression is the first argument. Lines come from standard input, at a prompt if that is a
terminal. Only this module talks to the outside, and it picks the tools that the program is built with.
-/

namespace AlgebraEditor.Console

/-- A label and the bytes that it is about, on a line of its own. -/
def drawLabel (span : Formula.Span) (label : String) : String :=
  "  " ++ toString span.start ++ "-" ++ toString span.stop ++ ": " ++ label ++ "\n"

/-- Draws what is shown about an error, but not the text that it is in. -/
def drawPlainly (_ : List Char) (d : Formula.Diagnosis) : List Char :=
  let labels := d.labels.map fun (span, label) => drawLabel span label
  let hints := d.hint?.toList.map fun hint => "  " ++ hint ++ "\n"
  (String.join ("Error: " :: d.headline :: "\n" :: labels ++ hints)).toList

/-- The tools of the program. -/
def plainTools : Tools := ⟨Text.editDistance, drawPlainly⟩

/-- Writes what a run printed and reported. -/
def emit (printed reported : List Char) : IO Unit := do
  let out ← IO.getStdout
  out.putStr (String.ofList printed)
  out.flush
  (← IO.getStderr).putStr (String.ofList reported)

/-- Reads a stream to its end. -/
partial def readAll (input : IO.FS.Stream) (sofar : ByteArray) : IO ByteArray := do
  let more ← input.read 65536
  if more.isEmpty then return sofar else readAll input (sofar ++ more)

/-- Stops with the message of a fault, in which handles are shown by number. -/
def stop {α : Type} (fault : Fault) : IO α :=
  throw (IO.userError (String.join (fault.message.map fun
    | .text s => s
    | .handle h => "#" ++ toString h.index)))

/-- Asks for lines at a prompt and runs them one by one. -/
partial def promptLoop (input : IO.FS.Stream) (s : Session) : IO UInt32 := do
  emit Mode.prompt.ask []
  let line ← try input.getLine catch _ => do
    emit [] Mode.prompt.undecodable
    return 0
  if line.isEmpty then return 0
  match runLine plainTools.distance line.toList s with
  | .ok (reply, s) =>
    emit reply.printed (reply.reported plainTools)
    if reply.quits then return 0 else promptLoop input s
  | .error fault => stop fault

/-- Runs the program on an expression. -/
def runProgram (expression : List Char) : IO UInt32 := do
  let input ← IO.getStdin
  if ← input.isTty then
    match Session.ofText expression with
    | .ok (.ok s) =>
      match view s with
      | .ok first => emit first []; promptLoop input s
      | .error fault => stop fault
    | .ok (.error e) =>
      emit [] (Report.written plainTools.draw ⟨expression, .parse e⟩)
      return 1
    | .error fault => stop fault
  else
    let bytes ← readAll input .empty
    match runInput plainTools .script expression (Text.decodedLines bytes.toList) with
    | .ok t => emit t.printed t.reported; return t.exitCode.toUInt32
    | .error fault => stop fault

end AlgebraEditor.Console

/-- Runs the program with its command line arguments. -/
def main (args : List String) : IO UInt32 :=
  AlgebraEditor.Console.runProgram
    ((args.head?.map String.toList).getD AlgebraEditor.Console.defaultExpression)
