import AlgebraEditor.Code.Generics
import AlgebraEditor.Code.Pattern

/-!
# Expressions

An expression is made of operands with operators between them. How far an operator reaches is
decided by how tightly it binds; what an expression turned out to be decides what may follow it.
-/

namespace AlgebraEditor.Code

/-! ### Operators -/

/-- How tightly operators bind, from the loosest on. -/
inductive Tightness where
  | loosest | assignment | range | disjunction | conjunction | binding | comparison | bitwiseOr
  | bitwiseXor | bitwiseAnd | shift | sum | product | cast
  deriving DecidableEq

/-- The place in the order of tightness. -/
def Tightness.rank (t : Tightness) : Nat := t.ctorIdx

/-- The operators between two operands. Where one begins with another, the longer one is first. -/
def binaryOperators : List (String × Tightness) := [
  ("+=", .assignment), ("-=", .assignment), ("*=", .assignment), ("/=", .assignment),
  ("%=", .assignment), ("^=", .assignment), ("&=", .assignment), ("|=", .assignment),
  ("<<=", .assignment), (">>=", .assignment), ("&&", .conjunction), ("||", .disjunction),
  ("<<", .shift), (">>", .shift), ("==", .comparison), ("<=", .comparison), ("!=", .comparison),
  (">=", .comparison), ("+", .sum), ("-", .sum), ("*", .product), ("/", .product), ("%", .product),
  ("^", .bitwiseXor), ("&", .bitwiseAnd), ("|", .bitwiseOr), ("<", .comparison), (">", .comparison)]

/-- The operator between two operands that stands at the front. -/
def binaryOperator? (ts : List Token) : Option (String × Tightness) :=
  binaryOperators.find? fun (text, _) => startWith text ts

/-- Whether an assignment stands at the front, rather than the arrow of a match. -/
def startWithAssignment (ts : List Token) : Bool := startWith "=" ts && !startWith "=>" ts

/-- How tightly what stands at the front binds, if it is an operator. -/
def tightnessAhead (ts : List Token) : Tightness :=
  match binaryOperator? ts with
  | some (_, tightness) => tightness
  | none =>
    if startWithAssignment ts then .assignment
    else if startWith ".." ts then .range
    else if startWith "as" ts then .cast
    else .loosest

/-! ### Looking ahead -/

/-- Whether a range has no end here. -/
def endsRange (structures : Bool) (ts : List Token) : Bool :=
  ts.isEmpty || startWith "." ts && !startWith ".." ts || !structures && startWithGroup .brace ts ||
    [",", ";", "?", "=>", "=", "+", "/", "%", "^", ">", "<=", "!=", "-=", "*=", "&=", "|=", "<<=",
      "as"].any (startWith · ts)

/-- Whether an expression stands at the front. -/
def startWithExpression (ts : List Token) : Bool :=
  startWithWord ts && !startWith "as" ts || startWithGroup .parenthesis ts ||
    startWithGroup .bracket ts || startWithGroup .brace ts || startWithLiteral ts ||
    startWith "!" ts && !startWith "!=" ts ||
    startWith "-" ts && !startWith "-=" ts && !startWith "->" ts ||
    startWith "*" ts && !startWith "*=" ts || startWith "|" ts && !startWith "|=" ts ||
    startWith "&" ts && !startWith "&=" ts || startWith ".." ts || startWithAngle ts ||
    startWith "::" ts || startWithLifetime ts || startWith "#" ts

/-- Whether a closure stands at the front. -/
def startWithClosure (ts : List Token) : Bool :=
  let second := behind ts
  startWith "|" ts || startWith "move" ts || startWith "static" ts ||
    startWith "for" ts && startWithParameters second ||
    startWith "const" ts && !startWithGroup .brace second ||
    startWith "async" ts && (startWith "|" second || startWith "move" second)

/-- Whether a block stands at the front that is run later. -/
def startWithDeferredBlock (ts : List Token) : Bool :=
  let second := behind ts
  startWith "async" ts &&
    (startWithGroup .brace second || startWith "move" second && startWithGroup .brace (behind second))

/-- Whether an access to a member stands at the front. -/
def startWithAccess (ts : List Token) : Bool := startWith "." ts && !startWith ".." ts

namespace Reader

/-! ### Operators -/

/-- What stands to the right of an operator. -/
def rightOperand (structures : Bool) (tightness : Tightness) : Reader Unit := do
  let mut form ← operand structures
  for _ in ← turns do
    let before := (← get).rest
    let next := tightnessAhead before
    if !(tightness.rank < next.rank || next = tightness && tightness = .assignment) then return
    form ← operations form structures next.rank
    let after := (← get).rest
    if after.length = before.length then return

/-- A range from its mark on. -/
def rangeEnd (structures : Bool) : Reader Unit := do
  let closed ← rangeMark false
  if closed || !(← ahead (endsRange structures)) then rightOperand structures .range

/-- What must not follow a cast. -/
def checkCast : Reader Unit := do
  let ts := (← get).rest
  let second := behind ts
  let third := behind second
  let followed (what : String) : Reader Unit := broken ("casts cannot be followed by " ++ what)
  if startWithAccess ts then
    if startWith "await" second then followed "`.await`"
    else if startWithName second && (startWithGroup .parenthesis third || startWith "::" third) then
      followed "a method call"
    else followed "a field access"
  else if startWith "?" ts then followed "`?`"
  else if startWithGroup .bracket ts then followed "indexing"
  else if startWithGroup .parenthesis ts then followed "a function call"

/-- One operator behind an expression, with what it applies to. -/
def operation? (left : Form) (structures : Bool) (base : Nat) : Reader (Option Form) := do
  let ts := (← get).rest
  if left = .range then return none
  match binaryOperator? ts with
  | some (text, tightness) =>
    if tightness.rank < base then return none
    if tightness = .comparison && left = .comparison then
      broken "comparison operators cannot be chained"
    accept text
    rightOperand structures tightness
    return some (if tightness = .comparison then .comparison else .other)
  | none =>
    if base ≤ Tightness.assignment.rank && startWithAssignment ts then
      accept "="
      rightOperand structures .assignment
      return some .other
    else if base ≤ Tightness.range.rank && startWith ".." ts then
      rangeEnd structures
      return some .range
    else if startWith "as" ts then
      take 1
      discard <| typeForm false
      checkCast
      return some .other
    else return none

/-- The operators behind an expression that bind at least as tightly as given. -/
def anyOperations (left : Form) (structures : Bool) (base : Nat) : Reader Form := do
  let mut left := left
  for _ in ← turns do
    match ← operation? left structures base with
    | some form => left := form
    | none => break
  return left

/-! ### Members and calls -/

/-- Arguments of a call. -/
def values : Reader Unit := group .parenthesis (commaSeparated (discard (expression true)))

/-- Numbers of fields that were written as one number with a point. The answer says whether a
member has to follow. -/
def indices (text : String) : Reader Bool := do
  let parts := (text.splitOn ".").dropLast
  let last := ((text.splitOn ".").getLast?).getD ""
  for part in parts do
    emit [← index part, .alone '.']
  if last.isEmpty then return true
  emit [← index last]
  return false

/-- A member by its name or number, or a call of a method. -/
def namedMember : Reader Unit := do
  if ← accept? "await" then return
  let named ← member
  let marked := named && (← sees "::")
  if marked then discard arguments
  if marked then values
  else if named && (← seesGroup .parenthesis) then values

/-- A member behind its point. -/
def memberAccess : Reader Unit := do
  accept "."
  match literalAt? (← get).rest with
  | some (text, n) =>
    if isFloat text then
      let pending ← indices text
      skip n
      if pending then namedMember
    else namedMember
  | none => namedMember

/-- Calls, members and the like behind an expression. -/
def trailed (form : Form) : Reader Form := do
  let mut form := form
  for _ in ← turns do
    let ts := (← get).rest
    if startWithGroup .parenthesis ts then values
    else if startWithAccess ts && form ≠ .range then memberAccess
    else if startWithGroup .bracket ts then group .bracket (discard (expression true))
    else if startWith "?" ts && form ≠ .range then take 1
    else break
    form := .other
  return form

/-- A value of which the place is taken. -/
def reference (structures : Bool) : Reader Form := do
  accept "&"
  let isRaw ← ahead fun ts =>
    startWith "raw" ts && (startWith "mut" (behind ts) || startWith "const" (behind ts))
  if isRaw then take 1
  if !(← accept? "mut") && isRaw then accept "const"
  discard <| operand structures
  return .other

/-! ### Atoms -/

/-- The fields of a structure, perhaps with the value that gives all others. -/
def fieldValues : Reader Unit := do
  for _ in ← turns do
    if ← atEnd then return
    if ← accept? ".." then
      if !(← atEnd) then discard <| expression true
      return
    attributes
    let named ← member
    if !named || (← sees ":") then
      accept ":"
      discard <| expression true
    if ← atEnd then return
    accept ","

/-- A path, a call of a macro or a structure. -/
def pathExpression (structures : Bool) : Reader Form := do
  let form ← qualifiedPath false
  if !form.isQualified && form.isPlain &&
      (← ahead fun ts => startWith "!" ts && !startWith "!=" ts) then
    accept "!"
    return if (← anyGroup) = .brace then .bracedCall else .other
  if structures && (← seesGroup .brace) then group .brace fieldValues
  return .other

/-- The parameters of a closure between its bars. -/
def closureParameters : Reader Unit := do
  for _ in ← turns do
    if ← sees "|" then return
    attributes
    discard patternForm
    if ← accept? ":" then type
    if ← sees "|" then return
    accept ","

def closure (structures : Bool) : Reader Form := do
  discard binder?
  for w in ["const", "static", "async", "move"] do discard <| accept? w
  accept "|"
  closureParameters
  accept "|"
  if ← accept? "->" then
    type
    plainBlock
  else discard <| expression structures
  return .other

def arrayExpression : Reader Form := do
  group .bracket do
    if ← atEnd then return
    discard <| expression true
    if ← accept? ";" then discard <| expression true
    else if ← accept? "," then commaSeparated (discard (expression true))
    else if !(← atEnd) then want [quoted ",", quoted ";"]
  return .other

/-- A binding that may fail, as a condition. -/
def letExpression (structures : Bool) : Reader Form := do
  accept "let"
  discard alternatives
  accept "="
  discard <| operations (← operand structures) structures Tightness.comparison.rank
  return .other

def ifExpression : Reader Form := do
  for _ in ← turns do
    accept "if"
    discard <| expression false
    plainBlock
    if !(← accept? "else") then break
    if ← seesGroup .brace then
      plainBlock
      break
    if !(← sees "if") then want [quoted "if", "curly braces"]
  return .block

def whileLoop : Reader Form := do
  accept "while"
  discard <| expression false
  block
  return .block

def forLoop : Reader Form := do
  accept "for"
  discard alternatives
  accept "in"
  discard <| expression false
  block
  return .block

/-- A keyword in front of a block. -/
def markedBlock (word : String) : Reader Form := do
  accept word
  block
  return .block

def plainMarkedBlock (word : String) : Reader Form := do
  accept word
  plainBlock
  return .block

/-- A loop or a block behind its label. -/
def labeled : Reader Form := do
  lifetime
  accept ":"
  if ← sees "while" then whileLoop
  else if ← sees "for" then forLoop
  else if ← sees "loop" then markedBlock "loop"
  else if ← seesGroup .brace then
    block
    return .block
  else want ["loop or block expression"]

/-- An arm of a match. A comma has to follow unless its expression is a block. -/
def arm : Reader Unit := do
  attributes
  discard alternatives
  if ← accept? "if" then discard <| expression true
  accept "=>"
  let form ← leading
  if form = .block || (← atEnd) then discard <| accept? "," else accept ","

def matchExpression : Reader Form := do
  accept "match"
  discard <| expression false
  group .brace do
    innerAttributes
    for _ in ← turns do
      if ← atEnd then return
      arm
  return .block

/-- An expression where a statement may begin. One that is a block ends there, unless its value is
used at once. -/
def leadingExpression : Reader Form := do
  attributes
  let ts := (← get).rest
  let second := behind ts
  let form ←
    if startWith "if" ts then ifExpression
    else if startWith "while" ts then whileLoop
    else if startWith "for" ts && !startWithParameters second then forLoop
    else if startWith "loop" ts then markedBlock "loop"
    else if startWith "match" ts then matchExpression
    else if startWith "try" ts && startWithGroup .brace second then plainMarkedBlock "try"
    else if startWith "unsafe" ts then markedBlock "unsafe"
    else if startWith "const" ts && startWithGroup .brace second then markedBlock "const"
    else if startWithGroup .brace ts then do
      block
      pure .block
    else if startWithLifetime ts then labeled
    else operand true
  if form ≠ .block then operations form true Tightness.loosest.rank
  else if ← ahead fun ts => startWithAccess ts || startWith "?" ts then
    operations (← trailed form) true Tightness.loosest.rank
  else return form

/-- An expression behind a word, if there is one. -/
def valueIf : Reader Unit := do
  if ← ahead startWithExpression then discard <| expression true

def breakExpression (structures : Bool) : Reader Form := do
  accept "break"
  if ← ahead fun ts => startWithLifetime ts && startWith ":" (behind ts) then
    discard <| expression true
    broken "parentheses required"
  discard lifetime?
  if structures || !(← seesGroup .brace) then valueIf
  return .other

/-- A word of the compiler itself, with arguments that are not looked into. -/
def compilerCall : Reader Form := do
  take 1
  accept "#"
  name
  group .parenthesis do take (← get).rest.length
  return .other

/-- An expression that begins with a word, if it does. -/
def wordExpression? (structures : Bool) : Reader (Option Form) := do
  let ts := (← get).rest
  let answer (r : Reader Form) : Reader (Option Form) := some <$> r
  if startWith "break" ts then answer (breakExpression structures)
  else if startWith "continue" ts then
    take 1
    discard lifetime?
    return some .other
  else if startWith "return" ts || startWith "yield" ts then
    take 1
    valueIf
    return some .other
  else if startWith "become" ts then
    take 1
    discard <| expression true
    return some .other
  else if startWith "let" ts then answer (letExpression structures)
  else if startWith "if" ts then answer ifExpression
  else if startWith "while" ts then answer whileLoop
  else if startWith "for" ts then answer forLoop
  else if startWith "loop" ts then answer (markedBlock "loop")
  else if startWith "match" ts then answer matchExpression
  else if startWith "unsafe" ts then answer (markedBlock "unsafe")
  else if startWith "const" ts then answer (markedBlock "const")
  else if startWith "_" ts then
    take 1
    return some .other
  else return none

/-- An expression without operators around it. -/
def atom (structures : Bool) : Reader Form := do
  let ts := (← get).rest
  let second := behind ts
  if startWithLiteral ts then
    literal
    return .other
  else if startWithDeferredBlock ts then
    take 1
    discard <| accept? "move"
    plainBlock
    return .other
  else if startWith "try" ts && startWithGroup .brace second then plainMarkedBlock "try"
  else if startWithClosure ts then closure structures
  else if startWith "builtin" ts && startWith "#" second then compilerCall
  else if startWithPath ts || startWith "try" ts && (startWith "!" second || startWith "::" second) then
    pathExpression structures
  else if startWithGroup .parenthesis ts then
    values
    return .other
  else if startWithGroup .bracket ts then arrayExpression
  else
    match ← wordExpression? structures with
    | some form => return form
    | none =>
      if startWithGroup .brace ts then
        block
        return .block
      else if startWith ".." ts then
        rangeEnd structures
        return .range
      else if startWithLifetime ts then labeled
      else want ["an expression"]

/-- What operators stand between, with operators in front of it. -/
def anyOperand (structures : Bool) : Reader Form := do
  let attributed := !(← attributeList).isEmpty
  let ts := (← get).rest
  if startWith "&" ts then reference structures
  else if ["*", "!", "-"].any (startWith · ts) then
    take 1
    discard <| operand structures
    return .other
  else
    let form ← trailed (← atom structures)
    if attributed && form = .range then
      broken "attributes are not allowed on range expressions starting with `..`"
    return form

/-- An expression. -/
def anyExpression (structures : Bool) : Reader Form := do
  operations (← operand structures) structures Tightness.loosest.rank

end Reader

end AlgebraEditor.Code
