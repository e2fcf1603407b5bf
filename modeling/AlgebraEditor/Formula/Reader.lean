import AlgebraEditor.Arena.Edit
import AlgebraEditor.Formula.ParseError

/-!
# Reading tokens

A reader goes through the tokens of a text. What is read off it may add elements to an arena, and
may end with a parse error; then the reader stays where it is, and so does what was added.
-/

namespace AlgebraEditor.Formula

/-- The tokens of a text, and how many of them are consumed. -/
structure Reader where
  tokens : List Token
  cursor : Nat
  deriving DecidableEq

/-- What is read off a reader while elements are added to an arena. -/
abbrev Reading := ExceptT ParseError (StateT Reader Edit)

/-- The span of a token. -/
def tokenSpan (t : Token) : Span := ⟨t.start, t.stop⟩

namespace Reader

/-- A reader at the start of a text. -/
def ofText (cs : List Char) : Except ParseError Reader :=
  match tokenize cs with
  | .error (found, start) =>
    .error ⟨.unknownCharacter found, ⟨start, start + byteCount found⟩⟩
  | .ok tokens => .ok ⟨tokens, 0⟩

/-- The empty span at the end of the text. -/
def endSpan (r : Reader) : Span :=
  (r.tokens.getLast?.map fun t => ⟨t.stop, t.stop⟩).getD ⟨0, 0⟩

/-- The next token, which is not consumed. -/
def current? (r : Reader) : Option Token := r.tokens[r.cursor]?

/-- The span of the next token, or the end of the text. -/
def span (r : Reader) : Span := (r.current?.map tokenSpan).getD r.endSpan

/-- The reader behind the next token. -/
def advance (r : Reader) : Reader := { r with cursor := r.cursor + 1 }

/-- Consumes the next token. -/
def next (r : Reader) : Except ParseError (Token × Reader) :=
  match r.current? with
  | none => .error ⟨.unexpectedEnd, r.span⟩
  | some t => .ok (t, r.advance)

/-- The tokens that are not consumed. -/
def rest (r : Reader) : List Token := r.tokens.drop r.cursor

end Reader

namespace Reading

/-- What the reading ends with when it starts at a reader, and the reader that it leaves. -/
def startAt {α : Type} (x : Reading α) (r : Reader) : Edit (Except ParseError α × Reader) :=
  x.run.run r

/-- Ends with a fault. -/
def fault {α : Type} (f : Fault) : Reading α := liftM (throw f : Edit α)

/-- Consumes the next token. -/
def token : Reading Token := do
  match (← get).next with
  | .error e => throw e
  | .ok (t, r) =>
    set r
    return t

end Reading

end AlgebraEditor.Formula
