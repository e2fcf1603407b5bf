import AlgebraEditor.Code.Attribute

/-!
# Paths

A path is made of words with `::` between them. A word may carry arguments in angle brackets; in an
expression these are marked by another `::`, for else they could not be told from comparisons.
-/

namespace AlgebraEditor.Code

/-- What a path turned out to be. -/
structure PathForm where
  /-- Whether it starts with a type in angle brackets. -/
  isQualified : Bool
  /-- Whether it is one word, perhaps with arguments. -/
  isSingle : Bool
  /-- Whether no word has arguments. -/
  isPlain : Bool
  /-- Whether the last word lacks arguments. -/
  endsBare : Bool

/-- Whether arguments in parentheses stand at the front, perhaps marked by `::`. -/
def startWithCall (ts : List Token) : Bool :=
  startWithGroup .parenthesis ts ||
    startWith "::" ts && startWithGroup .parenthesis (behind (behind ts))

/-- Whether a type begins with arguments in angle brackets. -/
def startWithAngle (ts : List Token) : Bool :=
  startWith "<" ts && !startWith "<=" ts && !startWith "<<=" ts

namespace Reader

/-! ### What is read apart and arranged -/

/-- A part of what stands in angle brackets. -/
structure Part (α : Type) where
  value : α
  isLifetime : Bool
  /-- Whether a comma follows. -/
  comma : Bool

/-- Parts in the order in which they are written, lifetimes before all others. A comma parts the
two kinds even if the last lifetime had none. -/
def arranged {α : Type} (code : α → List Token) (parts : List (Part α)) : List Token :=
  let written (p : Part α) := code p.value ++ if p.comma then [.alone ','] else []
  let lifetimes := parts.filter (·.isLifetime)
  let others := parts.filter (!·.isLifetime)
  let parted := (lifetimes.getLast?.map (·.comma)).getD true || others.isEmpty
  lifetimes.flatMap written ++ (if parted then [] else [.alone ',']) ++ others.flatMap written

/-- Reads parts up to a closing angle bracket. `separator` reads what stands between two. -/
def parts {α : Type} (part : Reader (Bool × α)) (separator : Reader Unit) :
    Reader (List (Part α)) := do
  let mut found := []
  for _ in ← turns do
    if ← sees ">" then break
    let (isLifetime, value) ← part
    if ← sees ">" then
      found := found ++ [⟨value, isLifetime, false⟩]
      break
    discard <| captured separator
    found := found ++ [⟨value, isLifetime, true⟩]
  return found

/-- Reads parts of code in angle brackets and keeps them in order. Says how many they are. -/
def angled (part : Reader Bool) (separator : Reader Unit) : Reader Nat := do
  accept "<"
  let found ← parts (captured part) separator
  emit (arranged id found)
  accept ">"
  return found.length

/-! ### Paths -/

/-- The arguments of a word, if it has any: whether there are brackets, and whether they hold
something. -/
def argumentsIf (present : Bool) : Reader (Bool × Bool) := do
  if present then return (true, ← arguments) else return (false, false)

/-- A word of a path with its arguments: whether there are brackets, and whether they hold
something. -/
def segment (inType : Bool) : Reader (Bool × Bool) := do
  if ← seesAny ["super", "self", "crate", "try"] then
    take 1
    return (false, false)
  if ← sees "Self" then take 1 else name
  let bare ← ahead startWithAngle
  let marked ← ahead fun ts => startWith "::" ts && startWith "<" (behind (behind ts))
  argumentsIf (inType && bare || marked)

/-- The words of a path behind the first ones. -/
def pathRest (inType : Bool) (form : PathForm) : Reader PathForm := do
  let mut form := form
  for _ in ← turns do
    if !(← ahead fun ts =>
      startWith "::" ts && !startWithGroup .parenthesis (behind (behind ts))) then break
    accept "::"
    let (brackets, filled) ← segment inType
    form := ⟨form.isQualified, false, form.isPlain && !brackets, !filled⟩
  return form

/-- A path that starts with a word. -/
def path (inType : Bool) : Reader PathForm := do
  let rooted ← accept? "::"
  let (brackets, filled) ← segment inType
  pathRest inType ⟨false, !rooted, !brackets, !filled⟩

/-- The words behind the type that a path starts with. -/
def qualifiedRest (inType : Bool) : Reader PathForm := do
  let mut bare := true
  for _ in ← turns do
    let (_, filled) ← segment inType
    bare := !filled
    if !(← accept? "::") then break
  return ⟨true, false, false, bare⟩

/-- A path that may start with a type, and perhaps with what that is seen as. -/
def qualifiedPath (inType : Bool) : Reader PathForm := do
  if ← accept? "<" then
    type
    if ← accept? "as" then discard <| path true
    accept ">"
    accept "::"
    qualifiedRest inType
  else path inType

end Reader

end AlgebraEditor.Code
