import AlgebraEditor.Code.Reader

/-!
# Attributes

An attribute stands in square brackets behind `#` and says something about what follows it. One
with `#!` stands inside of what it speaks about.
-/

namespace AlgebraEditor.Code

/-- What an attribute gives behind its path. -/
inductive AttributeContent where
  | nothing
  /-- Tokens in brackets, which are left to whoever asks for the attribute. -/
  | arguments (inside : List Token)
  /-- An expression behind an equals sign. -/
  | value

/-- An attribute. -/
structure Attribute where
  path : List Token
  content : AttributeContent

/-- Whether a word that plain paths are made of stands at the front. -/
def startWithPlace (ts : List Token) : Bool :=
  startWithName ts || ["super", "self", "Self", "crate"].any (startWith · ts)

namespace Reader

/-- A path without arguments. -/
def plainPath : Reader Unit := do
  discard <| accept? "::"
  if ← ahead startWithPlace then take 1 else name
  for _ in ← turns do
    if !(← accept? "::") then return
    if ← ahead startWithPlace then take 1 else want ["path segment after `::`"]

/-- What an attribute is called. -/
def attributePath : Reader Unit := do
  if ← sees "unsafe" then take 1 else plainPath

/-- A value, which is a literal if nothing follows that. -/
def attributeValue : Reader Unit := do
  if ← ahead fun ts => (literalAt? ts).map Prod.snd == some ts.length then literal
  else if ← ahead fun ts => startWith "#" ts && startWithGroup .bracket (behind ts) then
    broken "unexpected attribute inside of attribute"
  else discard (expression true)

def attributeContent : Reader AttributeContent := do
  match (← get).rest with
  | .group _ inside :: _ =>
    take 1
    return .arguments inside
  | ts =>
    if startWith "=" ts && !startWith "==" ts && !startWith "=>" ts then
      accept "="
      attributeValue
      return .value
    else return .nothing

/-- An attribute from its square brackets on. -/
def bracketedAttribute : Reader Attribute :=
  group .bracket do
    let (_, path) ← captured attributePath
    emit path
    return ⟨path, ← attributeContent⟩

/-- The attributes of what follows. -/
def attributeList : Reader (List Attribute) := do
  let mut found := []
  for _ in ← turns do
    if !(← accept? "#") then break
    found := found ++ [← bracketedAttribute]
  return found

def attributes : Reader Unit := discard attributeList

/-- The attributes of what they stand in. -/
def innerAttributes : Reader Unit := do
  for _ in ← turns do
    if !(← ahead fun ts => startWith "#" ts && startWith "!" (behind ts)) then return
    take 2
    discard bracketedAttribute

/-- Braces around statements, which may begin with attributes of the block. -/
def block : Reader Unit :=
  group .brace do
    innerAttributes
    statements

/-- Braces around statements alone. -/
def plainBlock : Reader Unit := group .brace statements

end Reader

end AlgebraEditor.Code
