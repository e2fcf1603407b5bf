import AlgebraEditor.Formula.Reduction

/-!
# Parsing

An expression is an optional sign and then atoms, with operators between them or written next to each
other; an atom is a letter, a number or an expression in brackets. Each atom is added to the arena as
it is read, and each expression is reduced where it ends. After a parse error the elements added so
far stay in the arena, owned by nothing else.
-/

namespace AlgebraEditor

namespace Formula.Reading

/-- Reads an atom, where `expression` reads what stands in brackets. -/
def atom (expression : Reading Handle) : Reading Handle := do
  let t ← token
  match t.kind with
  | .letter => Edit.symbol (String.ofList t.text)
  | .number =>
    let value := Nat.ofDigitChars 10 t.text 0
    if value < UInt64.size then Edit.integer (.ofNat value)
    else throw ⟨.integerTooLarge, tokenSpan t⟩
  | .opening =>
    let inner ← expression
    let close ← token
    if close.kind = .closing then return inner
    else throw ⟨.unexpectedToken close.text, tokenSpan close⟩
  | _ => throw ⟨.unexpectedToken t.text, tokenSpan t⟩

/-- Consumes the sign of an expression, if it has one. A `-` subtracts from a zero that is not
written. -/
def sign : Reading (List Operand × List Operator) := do
  let r ← get
  match r.current?.map Lexeme.kind with
  | some .plus =>
    set r.advance
    return ([], [])
  | some .minus =>
    set r.advance
    return ([.zero], [.subtract])
  | _ => return ([], [])

/-- The operator in front of the next atom, if there is one. It is consumed unless it is left out. -/
def operator? : Reading (Option Operator) := do
  let r ← get
  let some t := r.current? | return none
  match Operator.ofToken? t.kind with
  | some op =>
    set r.advance
    return some op
  | none => return if t.kind.startsAtom then some .multiply else none

/-- Reads operators and the atoms behind them, as long as there are any, in fewer rounds than given. -/
def chain (expression : Reading Handle) : Nat → List Operand → List Operator →
    Reading (List Operand × List Operator)
  | 0, _, _ => fault .endlessText
  | rounds + 1, operands, ops => do
    let some op ← operator? | return (operands, ops)
    let h ← atom expression
    chain expression rounds (operands ++ [.element h]) (ops ++ [op])

/-- Reads an expression in which brackets are nested less deep than `depth`. -/
def expression : Nat → Reading Handle
  | 0 => fault .endlessText
  | depth + 1 => do
    let start := (← get).span
    let (zero, signs) ← sign
    let first ← atom (expression depth)
    let rounds := (← get).rest.length + 1
    let (operands, ops) ← chain (expression depth) rounds (zero ++ [.element first]) signs
    let r ← get
    let stop := (r.tokens[r.cursor - 1]?.map (·.stop)).getD start.stop
    reduce ⟨start.start, stop⟩ operands ops

/-- Reads an expression that takes up all the tokens. -/
def whole : Reading Handle := do
  let h ← expression ((← get).rest.length + 1)
  let r ← get
  if r.cursor = r.tokens.length then return h
  else throw ⟨.expectedEnd, ⟨r.span.start, r.endSpan.stop⟩⟩

end Formula.Reading

/-- Reads one expression that takes up all the tokens, and answers with its element and the reader
behind what was consumed. -/
def Formula.Reader.parseAll (r : Reader) : Edit (Except ParseError Handle × Reader) :=
  Reading.whole.startAt r

/-- Adds the expression that a text writes, owned by nothing. -/
def Edit.plantText (text : List Char) : Edit (Except Formula.ParseError Handle) := do
  match Formula.Reader.ofText text with
  | .error e => return .error e
  | .ok r => return (← r.parseAll).1

end AlgebraEditor
