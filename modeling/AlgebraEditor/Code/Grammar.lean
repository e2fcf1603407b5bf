import AlgebraEditor.Code.Item

/-!
# The grammar of code

`Grammar.ofDepth` ties the readers together. Each circle of readers goes one level down, and code
that is nested more deeply than the levels go is refused. Readers that call each other without
taking a token come at most three in a row, so that no code is nested more deeply than four times
its number of characters.
-/

namespace AlgebraEditor.Code

/-- The grammar that refuses everything. -/
def Grammar.empty : Grammar where
  expression _ := throw .tooDeep
  leading := throw .tooDeep
  operand _ := throw .tooDeep
  operations _ _ _ := throw .tooDeep
  type _ := throw .tooDeep
  arguments := throw .tooDeep
  parameter := throw .tooDeep
  fields := throw .tooDeep
  pattern := throw .tooDeep
  statements := throw .tooDeep
  item := throw .tooDeep
  imports _ := throw .tooDeep

/-- The declaration of a parameter as it is kept. -/
def Reader.keptParameter : Reader Unit := do
  emit (← Reader.anyParameter false).2.written

/-- The grammar of code that is nested up to a depth. A level is made only when it is used. -/
def Grammar.ofDepth : Nat → Grammar
  | 0 => .empty
  | depth + 1 => {
      expression := fun structures s => Reader.anyExpression structures (ofDepth depth) s
      leading := fun s => Reader.leadingExpression (ofDepth depth) s
      operand := fun structures s => Reader.anyOperand structures (ofDepth depth) s
      operations := fun left structures base s =>
        Reader.anyOperations left structures base (ofDepth depth) s
      type := fun joined s => Reader.anyType joined (ofDepth depth) s
      arguments := fun s => Reader.angledArguments (ofDepth depth) s
      parameter := fun s => Reader.keptParameter (ofDepth depth) s
      fields := fun s => (discard Reader.fieldNames : Reader Unit) (ofDepth depth) s
      pattern := fun s => Reader.anyPattern (ofDepth depth) s
      statements := fun s => Reader.anyStatements (ofDepth depth) s
      item := fun s => Reader.anyItem (ofDepth depth) s
      imports := fun rooted s => Reader.anyImports rooted (ofDepth depth) s }

/-- The grammar that goes deep enough for a text. -/
def Grammar.ofText (cs : List Char) : Grammar := .ofDepth (4 * (cs.length + 1))

end AlgebraEditor.Code
