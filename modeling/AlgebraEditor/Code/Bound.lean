import AlgebraEditor.Code.Path

/-!
# Bounds

What a type is asked to satisfy: traits, and lifetimes that it outlives. Several bounds are joined
by `+`.
-/

namespace AlgebraEditor.Code

/-- What a bound turned out to be. -/
inductive BoundForm where
  | lifetime
  /-- The names that a hidden type may use. -/
  | captures
  | trait
  deriving DecidableEq

/-- Where a bound stands, as far as it decides what is allowed there. -/
structure BoundPlace where
  /-- Whether it may say what names a hidden type uses. -/
  captures : Bool
  /-- Whether a trait may be asked for at compile time. -/
  constant : Bool

/-- Whether a further bound stands at the front. -/
def startWithBound (p : BoundPlace) (ts : List Token) : Bool :=
  startWithWord ts || startWith "::" ts || startWith "?" ts || startWithLifetime ts ||
    startWithGroup .parenthesis ts || p.constant && startWithGroup .bracket ts

namespace Reader

/-- The names that are introduced for what follows, if there are any. They keep their order. -/
def binder? : Reader Bool := do
  if !(← accept? "for") then return false
  accept "<"
  for _ in ← turns do
    if ← sees ">" then break
    parameter
    if ← sees ">" then break
    accept ","
  accept ">"
  return true

/-- What a call answers with, if it is given, and what type that turned out to be. -/
def result? (joined : Bool) : Reader (Option TypeForm) := do
  if ← accept? "->" then return some (← typeForm joined) else return none

/-- Takes back empty angle brackets, and the mark in front of them. -/
def dropEmptyArguments : Reader Unit := modify fun s =>
  match s.taken with
  | .mark '>' _ :: .mark '<' _ :: .mark ':' _ :: .mark ':' _ :: before => { s with taken := before }
  | .mark '>' _ :: .mark '<' _ :: before => { s with taken := before }
  | _ => s

/-- Arguments in parentheses with a result. A mark in front of them is dropped. The answer says
whether another word of the path may follow, which needs a result that ends by itself. -/
def callArguments : Reader Bool := do
  dropEmptyArguments
  if ← sees "::" then skip 2
  group .parenthesis (commaSeparated type)
  match ← result? false with
  | none | some .parenthesized => return true
  | some _ => return false

/-- Whether a trait is asked for at compile time. -/
def constantMark (p : BoundPlace) : Reader Bool := do
  if ← seesGroup .bracket then
    group .bracket (accept "const")
    if p.constant then return true else broken "`[const]` is not allowed here"
  else if ← accept? "const" then
    if p.constant then return true else broken "`const` is not allowed here"
  else return false

/-- A trait as a bound. The answer says whether it is asked for at compile time. -/
def traitBound (p : BoundPlace) : Reader Bool := do
  let bound ← binder?
  let constant ← constantMark p
  let maybe ← accept? "?"
  let bound ← if maybe && !bound then binder? else pure bound
  let form ← path true
  if form.endsBare && (← ahead startWithCall) then discard callArguments
  if maybe && bound then broken "`for<...>` binder not allowed with `?` trait polarity modifier"
  return constant

/-- A name that a hidden type may use. -/
def capturedName : Reader Bool := do
  if ← lifetime? then return true
  else if (← ahead startWithName) || (← sees "Self") then
    take 1
    return false
  else want ["lifetime", "identifier", quoted ">"]

/-- What a hidden type may use. -/
def captures (p : BoundPlace) : Reader Unit := do
  accept "use"
  discard <| angled capturedName do
    if !(← accept? ",") then want [quoted ",", quoted ">"]
  if !p.captures then broken "`use<...>` precise capturing syntax is not allowed here"

/-- A bound. One that is asked for at compile time is kept as it stands there. -/
def bound (p : BoundPlace) : Reader BoundForm := do
  if ← lifetime? then return .lifetime
  if ← sees "use" then
    captures p
    return .captures
  let before := (← get).rest
  let (constant, code) ← captured <|
    if startWithGroup .parenthesis before then group .parenthesis (traitBound p) else traitBound p
  let after := (← get).rest
  emit (if constant then before.take (before.length - after.length) else code)
  return .trait

/-- Bounds, of which there is at least one. -/
def bounds (joined : Bool) (p : BoundPlace) : Reader (List BoundForm) := do
  let mut found := []
  for _ in ← turns do
    found := found ++ [← bound p]
    if !joined then break
    if !(← accept? "+") then break
    if !(← ahead (startWithBound p)) then break
  return found

/-- Bounds behind a colon, up to what ends them. -/
def boundsUntil (ends : List Token → Bool) : Reader Unit := do
  for _ in ← turns do
    if ← ahead ends then return
    discard <| bound ⟨false, true⟩
    if !(← accept? "+") then return

/-- Bounds of a lifetime, up to what ends them. -/
def lifetimesUntil (ends : List Token → Bool) : Reader Unit := do
  for _ in ← turns do
    if ← ahead ends then return
    lifetime
    if !(← accept? "+") then return

/-- Further bounds, each behind a `+`. -/
def moreBounds : Reader Unit := do
  for _ in ← turns do
    if !(← accept? "+") then return
    discard <| bound ⟨false, false⟩

/-! ### Arguments in angle brackets -/

/-- A constant as an argument: a literal, a name or a block. -/
def constant : Reader Unit := do
  if ← ahead startWithLiteral then literal
  else if ← ahead startWithName then take 1
  else if ← seesGroup .brace then block
  else want ["literal", "identifier", "curly braces"]

/-- Whether a constant stands here that cannot be a type. -/
def seesConstant : Reader Bool := ahead fun ts => startWithLiteral ts || startWithGroup .brace ts

/-- An argument. A single name may also stand for an associated item, with its value or bounds. -/
def argument : Reader Bool := do
  if ← ahead fun ts => startWithLifetime ts && !startWith "+" (behind ts) then
    lifetime
    return true
  if ← seesConstant then constant
  else if (← typeForm true) = .name then
    if ← accept? "=" then
      if ← seesConstant then constant else type
    else if ← accept? ":" then
      boundsUntil fun ts => startWith "," ts || startWith ">" ts
  return false

/-- The arguments of a word of a path. The answer says whether there are any. -/
def angledArguments : Reader Bool := do
  discard <| accept? "::"
  return 0 < (← angled argument (accept ","))

end Reader

end AlgebraEditor.Code
