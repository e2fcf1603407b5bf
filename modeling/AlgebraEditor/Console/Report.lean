import AlgebraEditor.Console.Command
import AlgebraEditor.Formula.ParseError
import AlgebraEditor.Selection.Basic

/-!
# Reports

What the user is told when a line cannot be run. A parse error points into the text that the line
gave as its argument. How that text is drawn with its labels is left to what the program is built
with.
-/

namespace AlgebraEditor.Console

/-- What the command line is built with. -/
structure Tools where
  /-- The least number of characters to insert, delete and replace to turn one text into another. -/
  distance : List Char → List Char → Nat
  /-- Draws what is shown about an error in a text. -/
  draw : List Char → Formula.Diagnosis → List Char

/-- Why a line could not be run. -/
inductive Failure where
  | parse (e : Formula.ParseError)
  | select (e : SelectError)
  | unknown (e : UnknownCommand)
  deriving DecidableEq

/-- A failure, and the text that a parse error points into. -/
structure Report where
  text : List Char
  failure : Failure
  deriving DecidableEq

/-- The report as it is written. -/
def Report.written (draw : List Char → Formula.Diagnosis → List Char) (r : Report) : List Char :=
  match r.failure with
  | .parse e => draw r.text e.diagnosis
  | .select e => "error: ".toList ++ e.message.toList ++ ['\n']
  | .unknown e =>
    "error: unknown command `".toList ++ e.line ++ "`\n".toList ++
      match e.suggestion with
      | some known => "help: did you mean `".toList ++ known.toList ++ "`?\n".toList
      | none => []

/-- The text of a line that a parse error points into: what follows the first word. -/
def reportedText (line : List Char) : List Char :=
  match Text.splitAtBlank (Text.trim line) with
  | some (_, rest) => Text.trim rest
  | none => []

end AlgebraEditor.Console
