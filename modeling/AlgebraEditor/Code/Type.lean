import AlgebraEditor.Code.Bound

/-!
# Types

Of a type it matters where it ends, and whether it is a path or a bound, for then more may follow.
-/

namespace AlgebraEditor.Code.Reader

/-- Bounds of a type whose name is hidden. One of them is a trait. -/
def objectBounds (joined : Bool) : Reader Unit := do
  if !(← bounds joined ⟨false, false⟩).contains .trait then
    broken "at least one trait is required for an object type"

/-- A path as a type. Arguments in parentheses may follow a word that has no others. -/
def typePath : Reader PathForm := do
  let mut form ← qualifiedPath true
  for _ in ← turns do
    if !(form.endsBare && (← ahead startWithCall)) then break
    form := ⟨form.isQualified, false, false, false⟩
    if ← callArguments then form ← pathRest true form
  return form

/-- A path as a type, or as a call of a macro, or as the first bound of a hidden type. -/
def namedType (isBound joined : Bool) : Reader TypeForm := do
  let form ← typePath
  if form.isQualified then return .other
  if form.isPlain && (← ahead fun ts => startWith "!" ts && !startWith "!=" ts) then
    accept "!"
    discard anyGroup
    return .other
  if joined && (← sees "+") then
    for _ in ← turns do
      if !(← accept? "+") then break
      if !(← ahead (startWithBound ⟨false, false⟩)) then break
      discard <| bound ⟨false, false⟩
    return .other
  return if isBound then .bound else if form.isSingle then .name else .path

/-- What parentheses hold that are not empty: one type, or the types of a tuple. -/
def insideParentheses : Reader (Option TypeForm) := do
  let form ← typeForm true
  if ← accept? "," then
    commaSeparated type
    return none
  else return some form

/-- A type in parentheses, a tuple, or bounds of which the first one stands in parentheses. -/
def parenthesizedType (joined : Bool) (inside : List Token) : Reader TypeForm := do
  if inside.isEmpty then
    take 1
    return .other
  if startWithLifetime inside then
    group .parenthesis (objectBounds true)
    return .parenthesized
  if startWith "?" inside then
    discard <| group .parenthesis (traitBound ⟨false, false⟩)
    if ← sees "+" then
      moreBounds
      return .other
    else return .bound
  match ← group .parenthesis insideParentheses with
  | none => return .other
  | some form =>
    if joined && (← sees "+") && [.name, .path, .bound].contains form then
      moreBounds
      return .other
    else return .parenthesized

/-- How a function is called from elsewhere, if it is given. -/
def callingConvention? : Reader Unit := do
  if ← accept? "extern" then
    if ← ahead fun ts => ((literalAt? ts).map fun (text, _) => isText text).getD false then take 1

/-- Whether a name or a blank one stands at the front. -/
def startWithNameOrBlank (ts : List Token) : Bool := startWithName ts || startWith "_" ts

/-- Whether the rest of the arguments is left open. -/
def startWithOpenEnd (ts : List Token) : Bool :=
  startWith "..." ts ||
    startWithNameOrBlank ts && startWith ":" (behind ts) && startWith "..." (behind (behind ts))

/-- An argument of a function type, which may have a name. -/
def functionArgument (first : Bool) : Reader Unit := do
  let changing ← ahead fun ts => first && startWith "mut" ts && startWith "self" (behind ts)
  if changing then take 1
  let named ← ahead fun ts =>
    (startWithNameOrBlank ts || first && startWith "self" ts) && startWith ":" (behind ts) &&
      !startWith "::" (behind ts)
  if named then take 2
  if changing && !named then accept "self" else type

/-- The arguments of a function type. -/
def functionArguments : Reader Unit := do
  let mut first := true
  for _ in ← turns do
    if ← atEnd then return
    attributes
    if ← ahead startWithOpenEnd then
      if !(← sees "...") then take 2
      accept "..."
      discard <| accept? ","
      return
    functionArgument first
    first := false
    if ← atEnd then return
    accept ","

def functionType : Reader TypeForm := do
  discard <| accept? "unsafe"
  callingConvention?
  accept "fn"
  group .parenthesis functionArguments
  discard <| result? false
  return .other

/-- A type in square brackets, perhaps with a length. -/
def arrayType : Reader TypeForm :=
  group .bracket do
    type
    if ← accept? ";" then discard <| expression true
    return .other

def pointerType : Reader TypeForm := do
  accept "*"
  if !(← accept? "const") && !(← accept? "mut") then want [quoted "const", quoted "mut"]
  discard <| typeForm false
  return .other

def referenceType : Reader TypeForm := do
  accept "&"
  discard lifetime?
  discard <| accept? "mut"
  discard <| typeForm false
  return .other

def objectType (joined : Bool) : Reader TypeForm := do
  if ← ahead fun ts => startWith "*" (behind ts) then
    verbatim do
      take 2
      objectBounds joined
  else
    accept "dyn"
    objectBounds joined
  return .other

/-- A hidden type of which only bounds are known. -/
def hiddenType (joined : Bool) : Reader TypeForm := do
  accept "impl"
  if !(← bounds joined ⟨true, true⟩).contains .trait then
    broken "at least one trait must be specified"
  return .other

/-- Whether a path stands at the front. -/
def startWithPath (ts : List Token) : Bool :=
  startWithPlace ts || startWith "::" ts || startWith "<" ts

/-- A type behind the names that it introduces. -/
def boundType (joined : Bool) : Reader TypeForm := do
  if ← seesAny ["fn", "unsafe", "extern"] then functionType
  else if ← ahead startWithPlace then namedType true joined
  else want <| "identifier" ::
    ["fn", "unsafe", "extern", "super", "self", "Self", "crate"].map quoted

/-- A type. -/
def anyType (joined : Bool) : Reader TypeForm := do
  if ← binder? then boundType joined
  else
    match (← get).rest with
    | .group .parenthesis inside :: _ => parenthesizedType joined inside
    | .group .bracket _ :: _ => arrayType
    | ts =>
      if ["fn", "unsafe", "extern"].any (startWith · ts) then functionType
      else if startWithPath ts then namedType false joined
      else if startWith "dyn" ts then objectType joined
      else if startWith "*" ts then pointerType
      else if startWith "&" ts then referenceType
      else if startWith "impl" ts then hiddenType joined
      else if startWith "!" ts || startWith "_" ts then
        take 1
        return .other
      else if startWithLifetime ts then
        objectBounds true
        return .other
      else
        want <| [quoted "for", "parentheses"] ++ ["fn", "unsafe", "extern"].map quoted ++
          ["identifier", quoted "::", quoted "<", quoted "dyn", "square brackets", quoted "*",
            quoted "&", quoted "!", quoted "impl", quoted "_", "lifetime"]

end AlgebraEditor.Code.Reader
