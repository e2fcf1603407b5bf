import AlgebraEditor.Catalog
import AlgebraEditor.Text.Blank

/-!
# Commands

A line is the key of a move, the key of an action, or a colon, a name and an argument. For a line
that is none of these, the closest known command is suggested.
-/

namespace AlgebraEditor.Console

/-- A move of the selection. -/
inductive Navigation where
  | child | parent | previous | next | growPrevious | growNext | first | last
  deriving DecidableEq

/-- The move's name as the help shows it. -/
def Navigation.name : Navigation → String
  | child => "Child"
  | parent => "Parent"
  | previous => "Previous"
  | next => "Next"
  | growPrevious => "GrowPrevious"
  | growNext => "GrowNext"
  | first => "First"
  | last => "Last"

/-- The keys that move the selection. -/
def navigationKeys : List (String × Navigation) := [
  ("ArrowUp", .child),
  ("ArrowDown", .parent),
  ("ArrowLeft", .previous),
  ("ArrowRight", .next),
  ("Ctrl+ArrowLeft", .growPrevious),
  ("Ctrl+ArrowRight", .growNext),
  ("Home", .first),
  ("End", .last)]

/-- How the colon commands are used, and what each does. -/
def colonUsages : List (String × String) := [
  (":set EXPR", "replace the whole expression"),
  (":edit EXPR", "replace the selected element"),
  (":text", "print the expression as text"),
  (":help", "print this help"),
  (":quit", "exit")]

/-- What a line asks for. -/
inductive Command where
  | navigate (move : Navigation)
  | action (key : String)
  | set (text : List Char)
  | edit (text : List Char)
  | text
  | help
  | quit
  deriving DecidableEq

/-- A line that asks for nothing known, and the closest known command. -/
structure UnknownCommand where
  line : List Char
  suggestion : Option String
  deriving DecidableEq

/-- All commands that can be typed, without arguments. -/
def knownCommands : List String :=
  navigationKeys.map (·.1) ++ Catalog.builtIn.actions.map Action.key ++
    colonUsages.map fun (usage, _) =>
      ((Text.firstWord? usage.toList).map String.ofList).getD usage

section

-- The least number of characters to insert, delete and replace to turn one text into the other.
variable (distance : List Char → List Char → Nat)

/-- The first of the commands that are closest to a word. Two edits are close enough. -/
def closest? (word : List Char) : List String → Option (Nat × String)
  | [] => none
  | known :: rest =>
    let edits := distance known.toList word
    match closest? word rest with
    | some (other, later) => if edits ≤ other then some (edits, known) else some (other, later)
    | none => if edits ≤ 2 then some (edits, known) else none

/-- The answer to a line that asks for nothing known. -/
def unknown (line : List Char) : UnknownCommand :=
  ⟨line, (closest? distance ((Text.firstWord? line).getD line) knownCommands).map (·.2)⟩

end

/-- The name of a colon command and its argument, from the text after the colon. -/
def nameAndArgument (text : List Char) : List Char × List Char :=
  match Text.splitAtBlank text with
  | some (name, argument) => (name, Text.trim argument)
  | none => (text, [])

/-- The colon command of a name and an argument. -/
def colonCommand? (name argument : List Char) : Option Command :=
  match String.ofList name with
  | "set" => some (.set argument)
  | "edit" => some (.edit argument)
  | "text" => some .text
  | "help" => some .help
  | "quit" | "q" => some .quit
  | _ => none

/-- The command bound to a key. -/
def keyCommand? (key : String) : Option Command :=
  match navigationKeys.find? (·.1 = key) with
  | some (_, move) => some (.navigate move)
  | none => (Catalog.builtIn.find? key).map fun action => .action action.key

/-- The command that a line without blanks around it asks for. -/
def Command.ofTrimmed? (line : List Char) : Option Command :=
  match line with
  | ':' :: body =>
    let (name, argument) := nameAndArgument body
    colonCommand? name argument
  | _ => keyCommand? (String.ofList line)

/-- The command that a line asks for. -/
def Command.ofLine (distance : List Char → List Char → Nat) (line : List Char) :
    Except UnknownCommand Command :=
  let line := Text.trim line
  match ofTrimmed? line with
  | some command => .ok command
  | none => .error (unknown distance line)

/-! ### Help -/

/-- A row of the help: a key or usage padded to its column, and what it does. -/
def helpRow (key description : String) : List Char :=
  let padding := List.replicate (18 - key.length) ' '
  [' ', ' '] ++ key.toList ++ padding ++ ' ' :: description.toList ++ ['\n']

/-- The help text. -/
def help : List Char :=
  "navigation:\n".toList ++ navigationKeys.flatMap (fun (key, move) => helpRow key move.name) ++
    "actions:\n".toList ++
    Catalog.builtIn.actions.flatMap (fun action => helpRow action.key action.name) ++
    "commands:\n".toList ++ colonUsages.flatMap fun (usage, description) => helpRow usage description

end AlgebraEditor.Console
