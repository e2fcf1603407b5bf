import AlgebraEditor.Code.Expression
import AlgebraEditor.Code.Structure

/-!
# Statements

What a block holds. Most expressions have to be followed by a semicolon unless they are the last.
-/

namespace AlgebraEditor.Code

/-- Whether the declaration of an item stands at the front, rather than an expression. -/
def startWithItem (ts : List Token) : Bool :=
  let second := behind ts
  let third := behind second
  ["pub", "extern", "use", "fn", "mod", "type", "struct", "enum", "trait", "impl", "macro"].any
      (startWith · ts) ||
    startWith "crate" ts && !startWith "::" second ||
    startWith "static" ts &&
      (startWith "mut" second ||
        startWithName second &&
          !(startWith "async" second && (startWith "move" third || startWith "|" third))) ||
    startWith "const" ts &&
      !(startWithGroup .brace second || startWith "static" second ||
        startWith "async" second &&
          !(startWith "unsafe" third || startWith "extern" third || startWith "fn" third) ||
        startWith "move" second || startWith "|" second) ||
    startWith "unsafe" ts && !startWithGroup .brace second ||
    startWith "async" ts &&
      (startWith "unsafe" second || startWith "extern" second || startWith "fn" second) ||
    startWith "union" ts && startWithName second ||
    startWith "auto" ts && startWith "trait" second ||
    startWith "default" ts && (startWith "unsafe" second || startWith "impl" second)

/-- Whether a macro that declares an item is called behind its path. -/
def startWithItemCall (ts : List Token) : Bool :=
  startWith "!" ts && (startWithName (behind ts) || startWith "try" (behind ts))

/-- Whether a macro with arguments in braces is called behind its path, and nothing is done with
its value. -/
def startWithBracedCall (ts : List Token) : Bool :=
  let third := behind (behind ts)
  startWith "!" ts && startWithGroup .brace (behind ts) && !startWithAccess third &&
    !startWith "?" third

namespace Reader

/-- What is done if the value of a binding does not match. It cannot follow braces. -/
def otherwise : Reader Unit := do
  match (← get).taken with
  | .group .brace _ :: _ => return
  | _ => if ← accept? "else" then plainBlock

/-- A binding. -/
def letStatement : Reader Unit := do
  accept "let"
  discard patternForm
  if ← accept? ":" then type
  if ← accept? "=" then
    discard <| expression true
    otherwise
  accept ";"

/-- An expression as a statement. The answer says whether a semicolon is still wanting. -/
def expressionStatement : Reader Bool := do
  let form ← leadingExpression
  if ← accept? ";" then return false
  return !([.block, .bracedCall].contains form)

/-- A statement. The answer says whether a semicolon is still wanting. -/
def statement : Reader Bool := do
  attributes
  let behindPath := (← past? plainPath).getD []
  if startWithBracedCall behindPath then
    plainPath
    take 2
    discard <| accept? ";"
    return false
  else if ← sees "let" then
    letStatement
    return false
  else if startWithItemCall behindPath || (← ahead startWithItem) then
    item
    return false
  else expressionStatement

/-- Semicolons that end nothing. -/
def semicolons : Reader Unit := do
  for _ in ← turns do
    if !(← accept? ";") then return

/-- The statements of a block. -/
def anyStatements : Reader Unit := do
  for _ in ← turns do
    semicolons
    if ← atEnd then return
    let unfinished ← statement
    if ← atEnd then return
    if unfinished then broken "unexpected token, expected `;`"

end Reader

end AlgebraEditor.Code
