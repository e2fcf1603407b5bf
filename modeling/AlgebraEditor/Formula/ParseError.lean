import AlgebraEditor.Formula.Token

/-!
# Parse errors

An error has a cause and the span of the text that is to blame, and its texts follow from the
cause. What is shown about it follows from both.
-/

namespace AlgebraEditor.Formula

/-- A range of bytes of the text, the end not included. -/
structure Span where
  start : Nat
  stop : Nat
  deriving DecidableEq

/-- Why a text is not an expression. -/
inductive ParseCause where
  | unknownCharacter (found : List Char)
  | unexpectedEnd
  | expectedEnd
  | unexpectedToken (found : List Char)
  | expectedExpression
  | integerTooLarge
  deriving DecidableEq

/-- Why a text is not an expression, and where. -/
structure ParseError where
  cause : ParseCause
  span : Span
  deriving DecidableEq

namespace ParseCause

/-- The cause's name. -/
def name : ParseCause → String
  | unknownCharacter _ => "UnknownCharacter"
  | unexpectedEnd => "UnexpectedEof"
  | expectedEnd => "ExpectedEof"
  | unexpectedToken _ => "UnexpectedToken"
  | expectedExpression => "ExpectedExpr"
  | integerTooLarge => "IntegerTooLarge"

/-- The headline of a report. -/
def message : ParseCause → String
  | unknownCharacter found => "unknown character `" ++ String.ofList found ++ "`"
  | unexpectedEnd => "unexpected end of input"
  | expectedEnd => "expected end of input"
  | unexpectedToken found => "unexpected token: `" ++ String.ofList found ++ "`"
  | expectedExpression => "expected an expression"
  | integerTooLarge => "integer is too large"

/-- The text beside the blamed span. -/
def label : ParseCause → String
  | unknownCharacter _ => "this character is not part of the notation"
  | unexpectedEnd => "you might need to add another expression here"
  | expectedEnd => "I could not understand the remaining expression here"
  | unexpectedToken _ => "here"
  | expectedExpression => "I expected to see an expression here"
  | integerTooLarge => "this integer"

/-- A hint on how to go on, if there is one. -/
def help? : ParseCause → Option String
  | unknownCharacter _ =>
    some ("expressions may only contain integers, single-letter variables, and " ++
      "+ - * / ^ ( ) [ ] \x7b \x7d")
  | expectedEnd => some "check for an unmatched closing bracket"
  | integerTooLarge => some ("integers must be at most " ++ toString (UInt64.size - 1))
  | unexpectedEnd | unexpectedToken _ | expectedExpression => none

end ParseCause

/-- What is shown about an error in a text. -/
structure Diagnosis where
  headline : String
  /-- Where the report starts. -/
  start : Nat
  /-- Spans of the text, and what is written beside them. -/
  labels : List (Span × String)
  hint? : Option String
  deriving DecidableEq

/-- What is shown about a parse error. -/
def ParseError.diagnosis (e : ParseError) : Diagnosis where
  headline := e.cause.message
  start := e.span.start
  labels := [(e.span, e.cause.label)]
  hint? := e.cause.help?

end AlgebraEditor.Formula
