import AlgebraEditor.Code.Generics

/-!
# Structures

The bodies of structures, enumerations and unions: their fields, variants and visibility.
-/

namespace AlgebraEditor.Code

/-- The body of a structure. -/
inductive Body where
  | unit
  /-- Fields with these names. -/
  | named (names : List Token)
  | tuple

namespace Reader

/-- A place in parentheses from which something is visible, if it is one. -/
def visibilityPlace : Reader Unit := do
  if ← ahead fun ts => match ts with
    | .group _ inside :: _ =>
      inside.length == 1 && ["crate", "self", "super"].any (startWith · inside)
    | _ => false then take 1
  else if ← ahead fun ts => match ts with
    | .group _ inside :: _ => startWith "in" inside
    | _ => false then
    group .parenthesis do
      take 1
      plainPath

/-- From where something is visible, if that is given. The answer says whether it is. -/
def visibility : Reader Bool := do
  if !(← accept? "pub") then return false
  if ← seesGroup .parenthesis then visibilityPlace
  return true

/-- The type of a field. A nameless field may hold fields of its own. -/
def fieldType (nameless : Bool) : Reader Unit := do
  let nested ← ahead fun ts =>
    nameless && (startWith "struct" ts || startWith "union" ts && startWithGroup .brace (behind ts))
  if nested then
    verbatim do
      take 1
      fields
  else type

/-- A field with its name. -/
def namedField : Reader (List Token) := do
  attributes
  discard visibility
  let nameless ← sees "_"
  let (_, found) ← captured do
    if nameless then take 1 else name
  emit found
  accept ":"
  fieldType nameless
  return found

/-- The names of fields in braces. -/
def fieldNames : Reader (List Token) := do
  group .brace do
    let mut names := []
    for _ in ← turns do
      if ← atEnd then break
      names := names ++ (← namedField)
      if ← atEnd then break
      accept ","
    return names

/-- The types of fields in parentheses. -/
def tupleFields : Reader Unit :=
  group .parenthesis <| commaSeparated do
    attributes
    discard visibility
    type

/-- A structure behind its parameters, and what is asked of these. -/
def structureBody : Reader (Body × List Token) := do
  let asked ← sees "where"
  let inFront ← demandCode
  if !asked && (← seesGroup .parenthesis) then
    tupleFields
    let asked ← sees "where"
    let demands ← demandCode
    if ← accept? ";" then return (.tuple, demands)
    else want ((if asked then [] else [quoted "where"]) ++ [quoted ";"])
  else if ← seesGroup .brace then return (.named (← fieldNames), inFront)
  else if ← accept? ";" then return (.unit, inFront)
  else want ((if asked then [] else [quoted "where", "parentheses"]) ++ ["curly braces", quoted ";"])

/-- A variant of an enumeration. From where it is visible is not kept. -/
def variant : Reader Unit := do
  attributes
  discard <| captured visibility
  name
  if ← seesGroup .brace then discard fieldNames
  else if ← seesGroup .parenthesis then tupleFields
  if ← accept? "=" then discard <| expression true

/-- An enumeration behind its parameters, and what is asked of these. -/
def enumerationBody : Reader (List Token) := do
  let demands ← demandCode
  group .brace (commaSeparated variant)
  return demands

/-- A union behind its parameters, and what is asked of these. -/
def unionBody : Reader (List Token) := do
  let demands ← demandCode
  discard fieldNames
  return demands

end Reader

end AlgebraEditor.Code
