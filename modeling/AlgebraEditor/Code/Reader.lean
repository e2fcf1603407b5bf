import AlgebraEditor.Code.Lexer

/-!
# Reading tokens

A reader takes tokens from the front of its input, or refuses it and says why. What it takes is
kept as the code that it has read; a reader may keep something else instead, where code has a
preferred form. Readers that call each other in a circle do so through a `Grammar`.
-/

namespace AlgebraEditor.Code

/-! ### Refusals -/

/-- Why code is refused. -/
inductive Refusal where
  /-- None of these stands here, at the end or not. -/
  | wanted (what : List String) (atEnd : Bool)
  /-- This punctuation mark does not stand here. -/
  | missing (mark : String)
  /-- A rule beyond that is broken. -/
  | broken (rule : String)
  /-- Tokens remain in brackets after what belongs there. -/
  | unread (d : Delimiter)
  /-- The code is nested more deeply than the grammar goes. -/
  | tooDeep
  deriving DecidableEq

/-- What messages call a mark or a keyword. -/
def quoted (text : String) : String := "`" ++ text ++ "`"

/-- What the compiler reports. -/
def Refusal.message : Refusal → String
  | wanted what atEnd =>
    match what with
    | [] => if atEnd then "unexpected end of input" else "unexpected token"
    | _ =>
      (if atEnd then "unexpected end of input, " else "") ++
        match what with
        | [one] => "expected " ++ one
        | [one, other] => "expected " ++ one ++ " or " ++ other
        | _ => "expected one of: " ++ ", ".intercalate what
  | missing mark => "expected " ++ quoted mark
  | broken rule => rule
  | unread d => "unexpected token, expected " ++ quoted (String.singleton d.closing)
  | tooDeep => "code is nested too deeply"

/-! ### Input -/

/-- What a reader works on. -/
structure Input where
  /-- The tokens up to the end of the group. -/
  rest : List Token
  /-- The code that was read in this group, from the last token to the first. -/
  taken : List Token
  /-- The first brackets in which tokens were left unread. -/
  unread : Option Delimiter

/-- The input at the front of tokens. -/
def Input.ofTokens (ts : List Token) : Input := ⟨ts, [], none⟩

/-- What an expression turned out to be, as far as it decides what may follow. -/
inductive Form where
  /-- A range, which binds nothing to its right. -/
  | range
  | comparison
  /-- What ends with its block, as a loop does. -/
  | block
  /-- A call of a macro with its arguments in braces. -/
  | bracedCall
  | other
  deriving DecidableEq

/-- What a type turned out to be. -/
inductive TypeForm where
  /-- A single name, perhaps with arguments in angle brackets. -/
  | name
  | path
  /-- One bound without a keyword in front. -/
  | bound
  | parenthesized
  | other
  deriving DecidableEq

/-- What a pattern turned out to be. -/
inductive PatternForm where
  /-- A range of which one end is open. -/
  | openRange
  | other
  deriving DecidableEq

/-- A reader that calls no other. -/
abbrev Step := StateT Input (Except Refusal)

/-- The readers through which others call each other in a circle. -/
structure Grammar where
  /-- An expression. The flag says whether a path in front of braces is a structure. -/
  expression : Bool → Step Form
  /-- An expression where a statement may begin. -/
  leading : Step Form
  /-- What operators stand between. -/
  operand : Bool → Step Form
  /-- The operators behind an expression that bind at least as tightly as given. -/
  operations : Form → Bool → Nat → Step Form
  /-- A type. The flag says whether several bounds may be joined by `+`. -/
  type : Bool → Step TypeForm
  /-- Arguments in angle brackets. The answer says whether there are any. -/
  arguments : Step Bool
  /-- The declaration of a generic parameter. -/
  parameter : Step Unit
  /-- The named fields of a structure, in braces. -/
  fields : Step Unit
  /-- A pattern without alternatives. -/
  pattern : Step PatternForm
  /-- The statements of a block. -/
  statements : Step Unit
  /-- An item of a module. -/
  item : Step Unit
  /-- What an import names. The flag says whether it may begin at the root. -/
  imports : Bool → Step Unit

abbrev Reader := ReaderT Grammar Step

namespace Reader

def expression (structures : Bool) : Reader Form := do (← read).expression structures
def leading : Reader Form := do (← read).leading
def operand (structures : Bool) : Reader Form := do (← read).operand structures
def operations (left : Form) (structures : Bool) (tightness : Nat) : Reader Form := do
  (← read).operations left structures tightness
def typeForm (joined : Bool) : Reader TypeForm := do (← read).type joined
def type : Reader Unit := do discard (typeForm true)
def arguments : Reader Bool := do (← read).arguments
def parameter : Reader Unit := do (← read).parameter
def fields : Reader Unit := do (← read).fields
def patternForm : Reader PatternForm := do (← read).pattern
def statements : Reader Unit := do (← read).statements
def item : Reader Unit := do (← read).item
def imports (rooted : Bool) : Reader Unit := do (← read).imports rooted

end Reader

/-! ### Looking ahead -/

/-- What is behind the first token. An apostrophe and its name are looked at as one. -/
def behind : List Token → List Token
  | .mark '\'' true :: .word _ :: ts => ts
  | _ :: ts => ts
  | [] => []

/-- Whether marks that are joined stand at the front. -/
def startWithMarks : List Char → List Token → Bool
  | [c], .mark d _ :: _ => c == d
  | c :: cs, .mark d joint :: ts => c == d && joint && startWithMarks cs ts
  | _, _ => false

/-- Whether a keyword or a mark stands at the front. -/
def startWith (text : String) (ts : List Token) : Bool :=
  if (text.toList.head?.map Text.startsIdentifier).getD false then
    match ts with
    | .word w :: _ => w == text
    | _ => false
  else startWithMarks text.toList ts

def startWithGroup (d : Delimiter) : List Token → Bool
  | .group d' _ :: _ => d = d'
  | _ => false

/-- The words that are kept for the language. -/
def keywords : List String := [
  "_", "abstract", "as", "async", "await", "become", "box", "break", "const", "continue", "crate",
  "do", "dyn", "else", "enum", "extern", "false", "final", "fn", "for", "if", "impl", "in", "let",
  "loop", "macro", "match", "mod", "move", "mut", "override", "priv", "pub", "ref", "return", "Self",
  "self", "static", "struct", "super", "trait", "true", "try", "type", "typeof", "unsafe", "unsized",
  "use", "virtual", "where", "while", "yield"]

def startWithWord : List Token → Bool
  | .word _ :: _ => true
  | _ => false

/-- Whether a word that is no keyword stands at the front. -/
def startWithName : List Token → Bool
  | .word w :: _ => !keywords.contains w
  | _ => false

def startWithLifetime : List Token → Bool
  | .mark '\'' true :: .word _ :: _ => true
  | _ => false

/-- The text of the number or other literal at the front, with its sign if it is negative, and
how many tokens it has. -/
def literalAt? : List Token → Option (String × Nat)
  | .literal text :: _ => some (text, 1)
  | .word "true" :: _ => some ("true", 1)
  | .word "false" :: _ => some ("false", 1)
  | .mark '-' _ :: .literal text :: _ =>
    if (text.toList.head?.map Char.isDigit).getD false then some ("-" ++ text, 2) else none
  | _ => none

def startWithLiteral (ts : List Token) : Bool := (literalAt? ts).isSome

/-- The digits of a literal that is a number, without its sign. -/
def unsigned (text : String) : List Char := text.toList.dropWhile (· == '-')

/-- Whether a literal is a whole number. -/
def isInteger (text : String) : Bool := (integerValue? (unsigned text)).isSome

/-- Whether a literal is a number with a fraction or an exponent. -/
def isFloat (text : String) : Bool :=
  ((unsigned text).head?.map Char.isDigit).getD false && !isInteger text

/-- Whether a literal is a text in quotes. -/
def isText (text : String) : Bool :=
  text.startsWith "\"" || text.startsWith "r"

namespace Reader

/-- Whether the tokens ahead satisfy a test. -/
def ahead (test : List Token → Bool) : Reader Bool := return test (← get).rest

def atEnd : Reader Bool := ahead List.isEmpty

def sees (text : String) : Reader Bool := ahead (startWith text)

def seesGroup (d : Delimiter) : Reader Bool := ahead (startWithGroup d)

/-- Whether one of the texts stands at the front. -/
def seesAny (texts : List String) : Reader Bool := ahead fun ts => texts.any (startWith · ts)

/-- The tokens behind what a reader accepts here. Nothing is taken. -/
def past? {α : Type} (r : Reader α) : Reader (Option (List Token)) := fun g s =>
  .ok ((r g s).toOption.map fun (_, t) => t.rest, s)

/-- Takes what a reader accepts, and says whether there was any. -/
def attempt {α : Type} (r : Reader α) : Reader Bool := do
  try
    discard r
    return true
  catch _ => return false

/-! ### Refusing -/

/-- Refuses what stands here, for want of one of these. -/
def want {α : Type} (what : List String) : Reader α := do
  throw (.wanted what (← atEnd))

/-- Refuses what stands here, because it breaks a rule. -/
def broken {α : Type} (rule : String) : Reader α := throw (.broken rule)

/-! ### Taking -/

/-- Keeps code as if it had been read. -/
def emit (ts : List Token) : Reader Unit :=
  modify fun s => { s with taken := ts.reverse ++ s.taken }

/-- Takes tokens without keeping them. -/
def skip (n : Nat) : Reader Unit := modify fun s => { s with rest := s.rest.drop n }

/-- Takes tokens and keeps them. -/
def take (n : Nat) : Reader Unit :=
  modify fun s => { s with rest := s.rest.drop n, taken := (s.rest.take n).reverse ++ s.taken }

/-- How many tokens a keyword or a mark has. -/
def width (text : String) : Nat :=
  if (text.toList.head?.map Text.startsIdentifier).getD false then 1 else text.length

/-- Takes a keyword or a mark. -/
def accept (text : String) : Reader Unit := do
  if ← sees text then take (width text)
  else if (text.toList.head?.map Text.startsIdentifier).getD false then want [quoted text]
  else throw (.missing text)

/-- Takes a keyword or a mark if it stands here, and says whether it did. -/
def accept? (text : String) : Reader Bool := do
  if ← sees text then
    take (width text)
    return true
  else return false

/-- Takes a word that is no keyword. -/
def name : Reader Unit := do
  match (← get).rest with
  | .word w :: _ =>
    if keywords.contains w then want ["identifier, found keyword " ++ quoted w] else take 1
  | _ => want ["identifier"]

/-- Takes any word. -/
def anyWord : Reader Unit := do
  if ← ahead startWithWord then take 1 else want ["ident"]

def lifetime : Reader Unit := do
  if ← ahead startWithLifetime then take 2 else want ["lifetime"]

def lifetime? : Reader Bool := do
  if ← ahead startWithLifetime then
    take 2
    return true
  else return false

def literal : Reader Unit := do
  match literalAt? (← get).rest with
  | some (_, n) => take n
  | none => want ["literal"]

/-- The code that a reader reads, which is not kept. -/
def captured {α : Type} (r : Reader α) : Reader (α × List Token) := do
  let before := (← get).taken
  modify fun s => { s with taken := [] }
  let x ← r
  let code := (← get).taken.reverse
  modify fun s => { s with taken := before }
  return (x, code)

/-- Reads, and keeps the tokens as they stand there. -/
def verbatim {α : Type} (r : Reader α) : Reader α := do
  let before := (← get).rest
  let (x, _) ← captured r
  emit (before.take (before.length - (← get).rest.length))
  return x

/-- Takes a group, of which a reader reads the inside. -/
def group {α : Type} (d : Delimiter) (r : Reader α) : Reader α := do
  let s ← get
  match s.rest with
  | .group d' inside :: rest =>
    if d' = d then
      set { s with rest := inside, taken := [] }
      let x ← r
      let t ← get
      set {
        rest
        taken := .group d t.taken.reverse :: s.taken
        unread := t.unread <|> if t.rest.isEmpty then none else some d : Input }
      return x
    else want [d.name]
  | _ => want [d.name]

/-- Takes a group as it stands there. -/
def anyGroup : Reader Delimiter := do
  match (← get).rest with
  | .group d _ :: _ =>
    take 1
    return d
  | _ => want ["delimiter"]

/-! ### Repeating -/

/-- As many turns as there can be if each takes a token, and one more. -/
def turns : Reader (List Unit) := return List.replicate ((← get).rest.length + 1) ()

/-- Reads up to the end of the group, with a comma between two and perhaps one at the end. -/
def commaSeparated (r : Reader Unit) : Reader Unit := do
  for _ in ← turns do
    if ← atEnd then break
    r
    if ← atEnd then break
    accept ","

/-- Reads a whole group of tokens, and gives the code that was read. -/
def run {α : Type} (g : Grammar) (r : Reader α) (ts : List Token) :
    Except Refusal (α × List Token) := do
  let (x, s) ← (r g).run (.ofTokens ts)
  match s.unread with
  | some d => throw (.unread d)
  | none => if s.rest.isEmpty then return (x, s.taken.reverse) else throw (.wanted [] false)

end Reader

end AlgebraEditor.Code
