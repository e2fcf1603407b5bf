/-!
# Tokens of code

Code is a list of tokens, in which whatever stands between brackets is one token. `write` gives the
text of tokens, from which blanks may be taken out only where they do not part two words.
-/

namespace AlgebraEditor.Code

/-- A kind of brackets. -/
inductive Delimiter where
  | parenthesis
  | bracket
  | brace
  deriving DecidableEq

namespace Delimiter

def opening : Delimiter → Char
  | parenthesis => '('
  | bracket => '['
  | brace => '\x7b'

def closing : Delimiter → Char
  | parenthesis => ')'
  | bracket => ']'
  | brace => '\x7d'

/-- What messages call the brackets. -/
def name : Delimiter → String
  | parenthesis => "parentheses"
  | bracket => "square brackets"
  | brace => "curly braces"

/-- The brackets that a character opens. -/
def opened? (c : Char) : Option Delimiter :=
  if c == '(' then some parenthesis
  else if c == '[' then some bracket
  else if c == '\x7b' then some brace
  else none

/-- The brackets that a character closes. -/
def closed? (c : Char) : Option Delimiter :=
  if c == ')' then some parenthesis
  else if c == ']' then some bracket
  else if c == '\x7d' then some brace
  else none

end Delimiter

/-- A piece of code. -/
inductive Token where
  /-- A name or a keyword. -/
  | word (text : String)
  /-- A punctuation mark. It is joint if another mark follows at once. -/
  | mark (c : Char) (joint : Bool)
  | literal (text : String)
  | group (d : Delimiter) (inside : List Token)

/-- A mark that nothing is joined to. -/
def Token.alone (c : Char) : Token := .mark c false

/-- The marks that a text is made of. -/
def Token.marks : List Char → List Token
  | [] => []
  | [c] => [.alone c]
  | c :: cs => .mark c true :: marks cs

mutual

/-- The text of a token, with the blank that may be needed behind it. -/
def Token.write : Token → List Char
  | .word text | .literal text => text.toList ++ [' ']
  | .mark c joint => if joint then [c] else [c, ' ']
  | .group d inside => d.opening :: Token.writeAll inside ++ [d.closing, ' ']

/-- The text of tokens in order. -/
def Token.writeAll : List Token → List Char
  | [] => []
  | t :: ts => t.write ++ writeAll ts

end

end AlgebraEditor.Code
