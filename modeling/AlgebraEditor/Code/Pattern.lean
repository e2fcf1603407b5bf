import AlgebraEditor.Code.Type

/-!
# Patterns

What values are matched against.
-/

namespace AlgebraEditor.Code

/-- Whether a range of patterns ends here. -/
def endsRangePattern (ts : List Token) : Bool :=
  ts.isEmpty || ["|", "=", ",", ";", "if"].any (startWith · ts) ||
    startWith ":" ts && !startWith "::" ts

/-- Whether a pattern begins with a path that is more than a name. -/
def startWithPathPattern (ts : List Token) : Bool :=
  let second := behind ts
  startWithName ts &&
      (["::", "!", ".."].any (startWith · second) || startWithGroup .brace second ||
        startWithGroup .parenthesis second) ||
    startWith "self" ts && startWith "::" second ||
    ["::", "<", "Self", "super", "crate"].any (startWith · ts)

namespace Reader

/-! ### Numbers of fields -/

/-- The token of a field's number. -/
def index (text : String) : Reader Token := do
  match integerValue? (unsigned text) with
  | none => broken "expected integer literal"
  | some (n, suffix) =>
    if !suffix.isEmpty then broken "expected unsuffixed integer"
    else if text.startsWith "-" then broken "invalid digit found in string"
    else if UInt32.size ≤ n then broken "number too large to fit in target type"
    else return .literal (String.ofList (Nat.toDigits 10 n))

/-- The name or the number of a field. The answer says whether it is a name. -/
def member : Reader Bool := do
  if ← ahead startWithName then
    take 1
    return true
  match literalAt? (← get).rest with
  | some (text, n) =>
    if isInteger text then
      emit [← index text]
      skip n
      return false
    else want ["identifier", "integer"]
  | none => want ["identifier", "integer"]

/-! ### Ranges -/

/-- The mark of a range. The answer says whether its end belongs to it. An older form of the mark
is accepted in patterns. -/
def rangeMark (inPattern : Bool) : Reader Bool := do
  if ← accept? "..=" then return true
  else if ← sees "..." then
    if inPattern then
      skip 3
      emit (Token.marks "..=".toList)
      return true
    else want [quoted "..="]
  else if ← accept? ".." then return false
  else want [quoted "..", quoted "..="]

def constantBlock : Reader Unit := do
  accept "const"
  block

/-- An end of a range. The answer says whether there is one. -/
def rangeBound : Reader Bool := do
  if ← ahead endsRangePattern then return false
  if ← ahead startWithLiteral then literal
  else if ← ahead fun ts => startWithPath ts || startWith "self" ts then
    discard <| qualifiedPath false
  else if ← sees "const" then constantBlock
  else want <| ["literal", "identifier"] ++
    ["::", "<", "self", "Self", "super", "crate", "const"].map quoted
  return true

/-- A range behind its start. The answer says whether its end is open. -/
def rangePatternRest : Reader Bool := do
  let closed ← rangeMark true
  let bounded ← rangeBound
  if closed && !bounded then want ["range upper bound"]
  return !bounded

/-- A range that follows, if there is one. -/
def rangePattern? : Reader PatternForm := do
  if ← sees ".." then
    return if ← rangePatternRest then .openRange else .other
  else return .other

/-- A range without a start, or the mark for the rest. -/
def startlessRange : Reader PatternForm := do
  let closed ← rangeMark false
  let bounded ← rangeBound
  if closed && !bounded then want ["range upper bound"]
  return if bounded then .openRange else .other

/-! ### Patterns in groups -/

/-- Patterns of which one has to match. -/
def alternatives : Reader PatternForm := do
  let mut several ← accept? "|"
  let form ← patternForm
  for _ in ← turns do
    if !(← ahead fun ts => startWith "|" ts && !startWith "||" ts && !startWith "|=" ts) then break
    take 1
    discard patternForm
    several := true
  return if several then .other else form

/-- The pattern of a field. -/
def fieldPattern : Reader Unit := do
  let mut marked := false
  for w in ["box", "ref", "mut"] do
    if ← accept? w then marked := true
  if marked then name
  else
    let named ← member
    if !named || (← sees ":") then
      accept ":"
      discard alternatives

/-- The patterns of named fields, perhaps with a mark for the rest. -/
def fieldPatterns : Reader Unit := do
  for _ in ← turns do
    if ← atEnd then return
    attributes
    if ← accept? ".." then return
    fieldPattern
    if ← atEnd then return
    accept ","

/-- A pattern that begins with a path: a structure, a constant, a range or a call of a macro. -/
def pathPattern : Reader PatternForm := do
  let form ← qualifiedPath false
  if !form.isQualified && form.isPlain &&
      (← ahead fun ts => startWith "!" ts && !startWith "!=" ts) then
    accept "!"
    discard anyGroup
    return .other
  if ← seesGroup .brace then
    group .brace fieldPatterns
    return .other
  else if ← seesGroup .parenthesis then
    group .parenthesis (commaSeparated (discard alternatives))
    return .other
  else rangePattern?

/-- A name to which what matches is bound. -/
def namePattern : Reader PatternForm := do
  discard <| accept? "ref"
  discard <| accept? "mut"
  if !(← accept? "self") then name
  if ← accept? "@" then discard patternForm
  return .other

/-- The pattern of an element. A range with an open end has to stand in parentheses. -/
def elementPattern : Reader Unit := do
  if (← alternatives) = .openRange then
    broken "range pattern is not allowed unparenthesized inside slice pattern"

/-- A pattern without alternatives. -/
def anyPattern : Reader PatternForm := do
  let ts := (← get).rest
  if startWithPathPattern ts then pathPattern
  else if startWith "_" ts then
    take 1
    return .other
  else if startWith "box" ts then
    verbatim do
      take 1
      discard patternForm
    return .other
  else if startWith "-" ts || startWithLiteral ts || startWith "const" ts then
    discard rangeBound
    rangePattern?
  else if startWithName ts || ["ref", "mut", "self"].any (startWith · ts) then namePattern
  else if startWith "&" ts then
    take 1
    discard <| accept? "mut"
    discard patternForm
    return .other
  else if startWithGroup .parenthesis ts then
    group .parenthesis (commaSeparated (discard alternatives))
    return .other
  else if startWithGroup .bracket ts then
    group .bracket (commaSeparated elementPattern)
    return .other
  else if startWith ".." ts && !startWith "..." ts then startlessRange
  else
    want <| ["identifier", quoted "::", quoted "<", quoted "_", "literal"] ++
      ["const", "ref", "mut", "&"].map quoted ++ ["parentheses", "square brackets"] ++
      (if startWith ".." ts then [] else [quoted ".."]) ++ [quoted "const"]

end Reader

end AlgebraEditor.Code
