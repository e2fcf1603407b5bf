import AlgebraEditor.Code.Literal
import AlgebraEditor.Code.Token
import AlgebraEditor.Text.Blank
import AlgebraEditor.Text.Visible

/-!
# From text to tokens

A text is first cut into lexemes, among them single brackets, and these are then nested. A comment
that documents something stands for an attribute, all other comments are blank.
-/

namespace AlgebraEditor.Code

open Text (startsIdentifier)

/-- A token outside of brackets, or a bracket. -/
inductive Lexeme where
  | token (t : Token)
  | opening (d : Delimiter)
  | closing (d : Delimiter)

/-- Whether a character parts tokens. The two marks of writing direction do so as well. -/
def isGap (c : Char) : Bool := Text.isBlank c || c == '\u200e' || c == '\u200f'

/-- Whether a text begins with another. -/
def begins (start : String) (cs : List Char) : Bool := start.toList.isPrefixOf cs

/-! ### Comments -/

/-- A comment up to its end, which closes as many comments as have been opened, and what follows. -/
def blockComment? (depth : Nat) : List Char → Option (List Char × List Char)
  | '/' :: '*' :: cs => (blockComment? (depth + 1) cs).map fun (inside, rest) =>
    ('/' :: '*' :: inside, rest)
  | '*' :: '/' :: cs =>
    if depth ≤ 1 then some ([], cs)
    else (blockComment? (depth - 1) cs).map fun (inside, rest) => ('*' :: '/' :: inside, rest)
  | c :: cs => (blockComment? depth cs).map fun (inside, rest) => (c :: inside, rest)
  | [] => none

/-- The rest of the line, and what follows it. -/
def lineComment : List Char → List Char × List Char
  | [] => ([], [])
  | '\n' :: cs => ([], '\n' :: cs)
  | '\r' :: '\n' :: cs => ([], '\n' :: cs)
  | c :: cs => (c :: (lineComment cs).1, (lineComment cs).2)

/-- Whether every carriage return is followed by a line feed. -/
def carriagesPaired : List Char → Bool
  | '\r' :: '\n' :: cs => carriagesPaired cs
  | c :: cs => c != '\r' && carriagesPaired cs
  | [] => true

/-- How a character is written in the text of an attribute. A zero must not run into a digit behind
it. -/
def escaped (c : Char) (next : Option Char) : List Char :=
  match c with
  | '\\' => ['\\', '\\']
  | '"' => ['\\', '"']
  | '\n' => ['\\', 'n']
  | '\r' => ['\\', 'r']
  | '\t' => ['\\', 't']
  | '\x00' =>
    if (next.map fun d => '0' ≤ d && d ≤ '7').getD false then "\\x00".toList else ['\\', '0']
  | _ =>
    if Text.isVisible c then [c]
    else "\\u\x7b".toList ++ Nat.toDigits 16 c.toNat ++ ['\x7d']

/-- How a text is written in an attribute, without its quotes. -/
def escapedText : List Char → List Char
  | [] => []
  | c :: cs => escaped c cs.head? ++ escapedText cs

/-- The attribute that a documenting comment stands for. An inner one carries a second mark. -/
def documentation? (inner : Bool) (text : List Char) : Option (List Lexeme) :=
  if carriagesPaired text then
    let value := String.ofList ('"' :: escapedText text ++ ['"'])
    some <| [.token (.alone '#')] ++ (if inner then [.token (.alone '!')] else []) ++
      [.opening .bracket, .token (.word "doc"), .token (.alone '='), .token (.literal value),
        .closing .bracket]
  else none

/-- The comment at the front of a text, and what follows it. -/
def comment? (cs : List Char) : Option (List Lexeme × List Char) := do
  if begins "//!" cs then
    let (text, rest) := lineComment (cs.drop 3)
    return (← documentation? true text, rest)
  else if begins "///" cs && !begins "////" cs then
    let (text, rest) := lineComment (cs.drop 3)
    return (← documentation? false text, rest)
  else if begins "//" cs then
    return ([], (lineComment cs).2)
  else if begins "/**/" cs then
    return ([], cs.drop 4)
  else if begins "/*!" cs then
    let (text, rest) ← blockComment? 1 (cs.drop 2)
    return (← documentation? true (text.drop 1), rest)
  else if begins "/**" cs && !begins "/***" cs then
    let (text, rest) ← blockComment? 1 (cs.drop 2)
    return (← documentation? false (text.drop 1), rest)
  else
    let (_, rest) ← blockComment? 1 (cs.drop 2)
    return ([], rest)

/-- Whether a comment starts here. -/
def beginsComment (cs : List Char) : Bool := begins "//" cs || begins "/*" cs

/-! ### Marks and words -/

/-- Whether a punctuation mark stands at the front. -/
def beginsMark (cs : List Char) : Bool :=
  !beginsComment cs && (cs.head?.map "~!@#$%^&*-=+|;:,<.>/?'".toList.contains).getD false

/-- What follows a word that may be raw. A raw word is none that stands for a place. -/
def afterName? (cs : List Char) : Option (List Char) := do
  if begins "r#" cs then
    let rest ← afterWord? (cs.drop 2)
    let raw := (cs.drop 2).take (cs.length - 2 - rest.length)
    if ["_", "super", "self", "Self", "crate"].contains (String.ofList raw) then none else rest
  else afterWord? cs

/-- The mark at the front, and what follows it. An apostrophe belongs to the name behind it, and is
none if the name turns out to be a character. -/
def mark? : List Char → Option (Token × List Char)
  | '\'' :: cs => do
    let rest ← afterName? cs
    if begins "'" rest || (begins "#" rest && !begins "r#" cs) then none
    else return (.mark '\'' true, cs)
  | c :: cs => if beginsMark (c :: cs) then some (.mark c (beginsMark cs), cs) else none
  | [] => none

/-- What words cannot begin with, because literals do. -/
def literalFronts : List String :=
  ["r\"", "r#\"", "r##", "b\"", "b'", "br\"", "br#", "c\"", "cr\"", "cr#"]

/-- The token at the front outside of brackets, and what follows it. -/
def token? (cs : List Char) : Option (Token × List Char) :=
  let text (rest : List Char) := String.ofList (cs.take (cs.length - rest.length))
  match afterLiteral? cs with
  | some rest => some (.literal (text rest), rest)
  | none =>
    match mark? cs with
    | some found => some found
    | none =>
      if literalFronts.any (begins · cs) then none
      else (afterName? cs).map fun rest => (.word (text rest), rest)

/-! ### Lexemes -/

/-- The lexemes of what stands at the front, and what follows it. -/
def piece? (cs : List Char) : Option (List Lexeme × List Char) :=
  match cs with
  | [] => none
  | c :: rest =>
    if isGap c then some ([], rest)
    else if beginsComment cs then comment? cs
    else
      match Delimiter.opened? c, Delimiter.closed? c with
      | some d, _ => some ([.opening d], rest)
      | _, some d => some ([.closing d], rest)
      | none, none => (token? cs).map fun (t, rest) => ([.token t], rest)

/-- The lexemes of a text. -/
def lexemes? (cs : List Char) : Option (List Lexeme) :=
  match cs with
  | [] => some []
  | c :: rest => do
    let (found, after) ← piece? (c :: rest)
    if after.length < rest.length + 1 then return found ++ (← lexemes? after) else none
termination_by cs.length

/-! ### Nesting -/

/-- Nests lexemes. `outer` are the groups that are open, each with the tokens in front of it, and
`found` the tokens of the innermost one, both from the last to the first. -/
def nest? (outer : List (Delimiter × List Token)) (found : List Token) :
    List Lexeme → Option (List Token)
  | [] => if outer.isEmpty then some found.reverse else none
  | .token t :: ls => nest? outer (t :: found) ls
  | .opening d :: ls => nest? ((d, found) :: outer) [] ls
  | .closing d :: ls =>
    match outer with
    | [] => none
    | (opened, before) :: outer =>
      if opened = d then nest? outer (.group d found.reverse :: before) ls else none

/-- The tokens of a text, if it can be cut into tokens and its brackets match. -/
def tokens? (cs : List Char) : Option (List Token) := (lexemes? cs).bind (nest? [] [])

end AlgebraEditor.Code
