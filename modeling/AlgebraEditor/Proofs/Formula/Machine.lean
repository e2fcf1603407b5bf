import AlgebraEditor.Formula.Operator
import AlgebraEditor.Formula.Reader
import AlgebraEditor.Term

/-!
# Reading one token at a time

What a reader recurses into and reduces in place can be followed token by token, over terms. The
state is the chain of operands of the innermost open group, what is expected next, and the chains of
the groups around it; a chain is reduced class by class where its group is closed. Reading stops at
the first token that cannot follow. Here is what the grammar is compared with, and what is shown to
be read off a text in every arena.
-/

namespace AlgebraEditor.Formula

/-! ### Chains -/

/-- An operand and the operator in front of it, which for the first one is the sign of the
expression. -/
abbrev Item := Operator × Term

/-- Joins pairs at the operators of a class from the left: `first` with the operands that follow
it, and likewise behind every other operator. -/
def joinPairs (c : OperatorClass) (join : Term → Term → Term) :
    Term → List Item → Term × List Item
  | first, [] => (first, [])
  | first, (op, t) :: rest =>
    if op.opClass = c then joinPairs c join (join first t) rest
    else
      let (joined, tail) := joinPairs c join t rest
      (first, (op, joined) :: tail)

/-- Splits off the run that begins with `first` and continues at operators of a class, and joins
the runs behind it. -/
def joinRuns (c : OperatorClass) (join : List Term → Term) :
    Term → List Item → List Term × List Item
  | first, [] => ([first], [])
  | first, (op, t) :: rest =>
    let (run, tail) := joinRuns c join t rest
    if op.opClass = c then (first :: run, tail) else ([first], (op, join run) :: tail)

/-- An operand as a term of a sum. -/
def Item.signed (item : Item) : Term := item.2.signed (item.1 = .subtract)

/-- The expression that a chain writes: powers, then fractions, then products, then the sum. -/
def reduce : List Item → Term
  | [] => .sumOf []
  | (sign, first) :: rest =>
    let (base, rest) := joinPairs .power .power first rest
    let (factor, rest) := joinPairs .quotient .fraction base rest
    let (factors, rest) := joinRuns .product .productOf factor rest
    .sumOf (((sign, .productOf factors) :: rest).map Item.signed)

/-! ### States -/

/-- What may come next. -/
inductive Expecting where
  /-- The sign of an expression, or its first operand. -/
  | sign
  /-- An operand behind the given operator. -/
  | operand (op : Operator)
  /-- An operator, the end of the group, or an operand that multiplies. -/
  | operator
  deriving DecidableEq

/-- A group around the one being read: its operands so far, latest first, and the operator in
front of the inner group. -/
structure Enclosing where
  items : List Item
  op : Operator

/-- How far an expression is read. Operands are kept latest first, and groups innermost first. -/
structure ParseState where
  expecting : Expecting
  items : List Item
  enclosing : List Enclosing

/-- How reading ends. -/
inductive Outcome where
  /-- The expression ends in front of the rest of the tokens. -/
  | parsed (t : Term) (rest : List Token)
  /-- There is no token to blame at the end of the text. -/
  | failed (cause : ParseCause) (blamed : Option Token)

namespace ParseState

/-- The state at the start of an expression. -/
def initial : ParseState := ⟨.sign, [], []⟩

/-- The expression that the operands read so far make. -/
def reduced (s : ParseState) : Term := reduce s.items.reverse

/-- Reads a token as an operand, or as the bracket that opens one. -/
def readOperand (s : ParseState) (op : Operator) (t : Token) : Except ParseCause ParseState :=
  match t.kind with
  | .letter => .ok ⟨.operator, (op, .symbol (String.ofList t.text)) :: s.items, s.enclosing⟩
  | .number =>
    let value := Nat.ofDigitChars 10 t.text 0
    if value < UInt64.size then .ok ⟨.operator, (op, .integer (.ofNat value)) :: s.items, s.enclosing⟩
    else .error .integerTooLarge
  | .opening => .ok ⟨.sign, [], ⟨s.items, op⟩ :: s.enclosing⟩
  | _ => .error (.unexpectedToken t.text)

/-- What a token does to the state. There is no next state when the expression ends before it. -/
def step (s : ParseState) (t : Token) : Except ParseCause (Option ParseState) :=
  match s.expecting with
  | .sign =>
    match t.kind with
    | .plus => .ok (some { s with expecting := .operand .add })
    | .minus => .ok (some { s with expecting := .operand .subtract })
    | _ => some <$> s.readOperand .add t
  | .operand op => some <$> s.readOperand op t
  | .operator =>
    match Operator.ofToken? t.kind with
    | some op => .ok (some { s with expecting := .operand op })
    | none =>
      if t.kind.startsAtom then some <$> s.readOperand .multiply t
      else match s.enclosing with
        | [] => .ok none
        | around :: enclosing =>
          if t.kind = .closing then
            .ok (some ⟨.operator, (around.op, s.reduced) :: around.items, enclosing⟩)
          else .error (.unexpectedToken t.text)

/-- Ends reading where the tokens end. -/
def finish (s : ParseState) : Outcome :=
  if s.expecting = .operator ∧ s.enclosing = [] then .parsed s.reduced []
  else .failed .unexpectedEnd none

/-- Reads one expression from the tokens. -/
def run (s : ParseState) : List Token → Outcome
  | [] => s.finish
  | t :: rest =>
    match s.step t with
    | .ok (some next) => next.run rest
    | .ok none => .parsed s.reduced (t :: rest)
    | .error cause => .failed cause (some t)

end ParseState

/-! ### Texts -/

/-- Where the last token stops. -/
def lastStop (tokens : List Token) : Nat := (tokens.getLast?.map (·.stop)).getD 0

/-- The expression that was read and the tokens behind it, or the error. Where there is no token to
blame, it is about the end of the text. -/
def Outcome.answer (textEnd : Nat) : Outcome → Except ParseError (Term × List Token)
  | .parsed t rest => .ok (t, rest)
  | .failed cause blamed => .error ⟨cause, (blamed.map tokenSpan).getD ⟨textEnd, textEnd⟩⟩

/-- Nothing may stand behind the expression. -/
def complete (textEnd : Nat) : Term × List Token → Except ParseError Term
  | (t, []) => .ok t
  | (_, extra :: _) => .error ⟨.expectedEnd, ⟨extra.start, textEnd⟩⟩

/-- The expression that takes up all the tokens. -/
def parseTokens (tokens : List Token) : Except ParseError Term :=
  (ParseState.initial.run tokens).answer (lastStop tokens) >>= complete (lastStop tokens)

/-- The expression that a text writes. -/
def parse (cs : List Char) : Except ParseError Term := do
  parseTokens (← Reader.ofText cs).tokens

end AlgebraEditor.Formula
