import AlgebraEditor.Code.Grammar

/-!
# Items that reports are derived for

The parts of a Rust structure, enumeration or union that matter for deriving an implementation, and
how they are read from its code. Text that is no such item is refused.
-/

namespace AlgebraEditor.Diagnostic

open Code (Token Reader)

/-- What kind of item is given. -/
inductive Shape where
  | structure (body : Code.Body)
  | enumeration
  | union

/-- What an item declares behind its attributes. -/
structure Declaration where
  name : List Token
  parameters : List (Reader.Part Code.Parameter)
  /-- What is asked of the parameters behind `where`. -/
  demands : List Token
  shape : Shape

/-- The item that an implementation is derived for. -/
structure Item where
  attributes : List Code.Attribute
  declaration : Declaration
  /-- The grammar that the item was read by, which goes deep enough for all code in it. -/
  grammar : Code.Grammar

/-- Reads a name and parameters, and the shape and what is asked by a reader. -/
def namedDeclaration (rest : Reader (Shape × List Token)) : Reader Declaration := do
  let (_, name) ← Reader.captured Reader.name
  let parameters ← Reader.parameters
  let (shape, demands) ← rest
  return ⟨name, parameters, demands, shape⟩

/-- Reads what an item declares behind its attributes. -/
def anyDeclaration : Reader Declaration := do
  discard Reader.visibility
  if ← Reader.accept? "struct" then
    namedDeclaration do
      let (body, demands) ← Reader.structureBody
      return (.structure body, demands)
  else if ← Reader.accept? "enum" then
    namedDeclaration do return (.enumeration, ← Reader.enumerationBody)
  else if ← Reader.accept? "union" then
    namedDeclaration do return (.union, ← Reader.unionBody)
  else Reader.want (["struct", "enum", "union"].map Code.quoted)

/-- The item that a text is, if it is one. -/
def Item.ofText? (cs : List Char) : Option Item := do
  let grammar := Code.Grammar.ofText cs
  let whole : Reader Item := return ⟨← Reader.attributeList, ← anyDeclaration, grammar⟩
  let (item, _) ← (Reader.run grammar whole (← Code.tokens? cs)).toOption
  return item

end AlgebraEditor.Diagnostic
