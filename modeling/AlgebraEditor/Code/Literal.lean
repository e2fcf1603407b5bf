import AlgebraEditor.Text.Identifier

/-!
# Literals

Where a literal at the front of a text ends: quoted texts, raw texts, single characters and
numbers. Each scan gives what stands behind the literal, or nothing if none is there. A literal may
carry a suffix, which has the form of a word.
-/

namespace AlgebraEditor.Code

open Text (startsIdentifier continuesIdentifier)

/-- What follows the word at the front, if there is one. -/
def afterWord? : List Char → Option (List Char)
  | c :: cs => if startsIdentifier c then some (cs.dropWhile continuesIdentifier) else none
  | [] => none

/-- What follows a suffix, or the text itself if it starts with none. -/
def afterSuffix (cs : List Char) : List Char := (afterWord? cs).getD cs

/-! ### Quoted texts -/

/-- What a quoted text stands for, which decides what may stand in it. -/
inductive Quoted where
  | characters
  | bytes
  /-- Bytes that end with a zero, so that there is none inside. -/
  | terminated
  deriving DecidableEq

/-- Whether a character may stand in a quoted text as itself. -/
def Quoted.admits : Quoted → Char → Bool
  | characters, _ => true
  | bytes, c => c.toNat < 128
  | terminated, c => c != '\x00'

/-- How far the scan of a quoted text has come. -/
inductive QuotedState where
  | plain
  /-- A carriage return, which a line feed must follow. -/
  | carriage
  /-- A backslash. -/
  | escape
  | hexHigh
  | hexLow (high : Char)
  /-- A code point in braces that has not been opened. -/
  | codeOpening
  | code (value digits : Nat)
  /-- The blanks behind a line end that was escaped. -/
  | blanks
  /-- A carriage return among these. -/
  | blankCarriage
  /-- The closing quote has been read. -/
  | closed
  deriving DecidableEq

/-- The value of a hexadecimal digit. -/
def hexValue? (c : Char) : Option Nat :=
  if c.isDigit then some (c.toNat - 48)
  else if 'a' ≤ c && c ≤ 'f' then some (c.toNat - 87)
  else if 'A' ≤ c && c ≤ 'F' then some (c.toNat - 55)
  else none

/-- The state after the character behind a backslash. -/
def Quoted.afterEscape (q : Quoted) (c : Char) : Option QuotedState :=
  if c == 'x' then some .hexHigh
  else if ['n', 'r', 't', '\\', '\'', '"'].contains c then some .plain
  else if c == '0' then if q = .terminated then none else some .plain
  else if c == 'u' then if q = .bytes then none else some .codeOpening
  else if c == '\n' then some .blanks
  else if c == '\r' then some .blankCarriage
  else none

/-- The state after one more character of a quoted text. -/
def Quoted.next (q : Quoted) (s : QuotedState) (c : Char) : Option QuotedState :=
  match s with
  | .plain => plain
  | .carriage => if c == '\n' then some .plain else none
  | .escape => q.afterEscape c
  | .hexHigh =>
    if q = .characters then if '0' ≤ c && c ≤ '7' then some (.hexLow c) else none
    else if (hexValue? c).isSome then some (.hexLow c) else none
  | .hexLow high =>
    if (hexValue? c).isSome && !(q = .terminated && high == '0' && c == '0') then some .plain
    else none
  | .codeOpening => if c == '\x7b' then some (.code 0 0) else none
  | .code value digits =>
    if c == '_' then if 0 < digits then some s else none
    else if c == '\x7d' then
      if 0 < digits && Nat.isValidChar value && !(q = .terminated && value = 0) then some .plain
      else none
    else if digits = 6 then none
    else (hexValue? c).map fun d => .code (16 * value + d) (digits + 1)
  | .blanks =>
    if c == ' ' || c == '\t' || c == '\n' then some .blanks
    else if c == '\r' then some .blankCarriage
    else plain
  | .blankCarriage => if c == '\n' then some .blanks else none
  | .closed => none
where
  plain : Option QuotedState :=
    if c == '"' then some .closed
    else if c == '\r' then some .carriage
    else if c == '\\' then some .escape
    else if q.admits c then some .plain else none

/-- What follows a quoted text of which the opening quote and perhaps more has been read. -/
def Quoted.after? (q : Quoted) : QuotedState → List Char → Option (List Char)
  | .closed, cs => some (afterSuffix cs)
  | _, [] => none
  | s, c :: cs => (q.next s c).bind (q.after? · cs)

/-- What follows an escape of which the backslash has been read. -/
def Quoted.afterEscape? (q : Quoted) : QuotedState → List Char → Option (List Char)
  | .plain, cs => some cs
  | .blanks, _ | .blankCarriage, _ | _, [] => none
  | s, c :: cs => (q.next s c).bind (q.afterEscape? · cs)

/-- What follows a raw text of which the opening has been read. It ends with a quote and the given
number of signs. -/
def Quoted.afterRaw? (q : Quoted) (signs : Nat) : List Char → Option (List Char)
  | [] => none
  | '"' :: cs =>
    if (List.replicate signs '#').isPrefixOf cs then some (afterSuffix (cs.drop signs))
    else q.afterRaw? signs cs
  | '\r' :: '\n' :: cs => q.afterRaw? signs cs
  | c :: cs => if c != '\r' && q.admits c then q.afterRaw? signs cs else none

/-- What follows a text behind its letters: quoted at once, or raw. -/
def Quoted.literal? (q : Quoted) (raw : Bool) (cs : List Char) : Option (List Char) :=
  if raw then
    let signs := (cs.takeWhile (· == '#')).length
    match cs.drop signs with
    | '"' :: rest => if signs ≤ 255 then q.afterRaw? signs rest else none
    | _ => none
  else
    match cs with
    | '"' :: rest => q.after? .plain rest
    | _ => none

/-- What follows a single character in quotes of which the opening quote has been read. -/
def Quoted.single? (q : Quoted) (cs : List Char) : Option (List Char) := do
  let rest ← match cs with
    | '\\' :: rest => q.afterEscape? .escape rest
    | c :: rest => if q = .bytes && 128 ≤ c.toNat then none else some rest
    | [] => none
  match rest with
  | '\'' :: rest => return afterSuffix rest
  | _ => none

/-! ### Numbers -/

/-- What follows the suffix of a number. Nothing more of a word may stand there. -/
def afterNumber? (cs : List Char) : Option (List Char) :=
  match afterSuffix cs with
  | [] => some []
  | c :: rest => if continuesIdentifier c then none else some (c :: rest)

def isDigitOrLine (c : Char) : Bool := c.isDigit || c == '_'

/-- What follows an exponent whose letter has been read, perhaps with its sign and digits. There is
at most one sign, in front of at least one digit. -/
def afterExponent? (signed valued : Bool) : List Char → Option (List Char)
  | [] => if valued then some [] else none
  | c :: cs =>
    if c == '+' || c == '-' then
      if valued then some (c :: cs) else if signed then none else afterExponent? true valued cs
    else if c.isDigit then afterExponent? signed true cs
    else if c == '_' then afterExponent? signed valued cs
    else if valued then some (c :: cs) else none

/-- What follows a fraction or an exponent behind digits. An exponent without digits is a suffix,
unless there is no point before it. -/
def afterFraction? : List Char → Option (List Char)
  | '.' :: cs =>
    if (cs.head?.map fun c => c == '.' || startsIdentifier c).getD false then none
    else
      let rest := cs.dropWhile isDigitOrLine
      match rest with
      | c :: exponent =>
        if c == 'e' || c == 'E' then some ((afterExponent? false false exponent).getD rest)
        else some rest
      | [] => some []
  | c :: cs => if c == 'e' || c == 'E' then afterExponent? false false cs else none
  | [] => none

/-- What follows a number with a fraction or an exponent. -/
def afterFloat? (cs : List Char) : Option (List Char) :=
  if (cs.head?.map Char.isDigit).getD false then
    (afterFraction? (cs.dropWhile isDigitOrLine)).bind afterNumber?
  else none

/-- What follows the digits of a base, if there is at least one. A decimal digit that is too large
spoils the number, a letter that is too large ends it. -/
def afterDigits? (base : Nat) (found : Bool) : List Char → Option (List Char)
  | [] => if found then some [] else none
  | c :: cs =>
    if c == '_' then if found || base != 10 then afterDigits? base found cs else none
    else
      match hexValue? c with
      | some d =>
        if d < base then afterDigits? base true cs
        else if c.isDigit then none
        else if found then some (c :: cs) else none
      | none => if found then some (c :: cs) else none

/-- The base that the front of a number gives, and the number behind that. -/
def baseOf : List Char → Nat × List Char
  | '0' :: 'x' :: cs => (16, cs)
  | '0' :: 'o' :: cs => (8, cs)
  | '0' :: 'b' :: cs => (2, cs)
  | cs => (10, cs)

/-- What follows a whole number. -/
def afterInteger? (cs : List Char) : Option (List Char) :=
  (afterDigits? (baseOf cs).1 false (baseOf cs).2).bind afterNumber?

/-- What follows the literal at the front, if there is one. -/
def afterLiteral? (cs : List Char) : Option (List Char) :=
  let quoted := match cs with
    | '"' :: _ => Quoted.characters.literal? false cs
    | 'r' :: rest => Quoted.characters.literal? true rest
    | 'b' :: 'r' :: rest => Quoted.bytes.literal? true rest
    | 'b' :: '\'' :: rest => Quoted.bytes.single? rest
    | 'b' :: rest => Quoted.bytes.literal? false rest
    | 'c' :: 'r' :: rest => Quoted.terminated.literal? true rest
    | 'c' :: rest => Quoted.terminated.literal? false rest
    | '\'' :: rest => Quoted.characters.single? rest
    | _ => none
  quoted <|> afterFloat? cs <|> afterInteger? cs

/-! ### Values -/

/-- Whether a text can be the suffix of a number. -/
def isSuffix : List Char → Bool
  | [] => true
  | c :: cs => startsIdentifier c && cs.all continuesIdentifier

/-- Whether what stands behind the letter of an exponent makes it one, rather than a suffix. -/
def isExponent (valued : Bool) : List Char → Bool
  | [] => valued
  | c :: cs =>
    if c == '_' then isExponent valued cs
    else if c == '+' || c == '-' then true
    else if c.isDigit then isExponent true cs
    else valued && startsIdentifier c && cs.all continuesIdentifier

/-- The value of the digits at the front, and what is behind them. -/
def digitsValue? (base value : Nat) (found : Bool) : List Char → Option (Nat × List Char)
  | [] => if found then some (value, []) else none
  | c :: cs =>
    if c == '_' then digitsValue? base value found cs
    else if c == '.' && base = 10 then none
    else if (c == 'e' || c == 'E') && base = 10 then
      if isExponent false cs then none else if found then some (value, c :: cs) else none
    else
      match hexValue? c with
      | some d =>
        if d < base then digitsValue? base (base * value + d) true cs
        else if c.isDigit then none
        else if found then some (value, c :: cs) else none
      | none => if found then some (value, c :: cs) else none

/-- The value and the suffix of a whole number. -/
def integerValue? (cs : List Char) : Option (Nat × List Char) :=
  if (cs.head?.map Char.isDigit).getD false then
    (digitsValue? (baseOf cs).1 0 false (baseOf cs).2).filter (isSuffix ·.2)
  else none

end AlgebraEditor.Code
