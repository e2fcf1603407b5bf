import AlgebraEditor.Code.Type

/-!
# Generic parameters

A declaration introduces parameters in angle brackets and may ask more of them behind `where`.
-/

namespace AlgebraEditor.Code

/-- A generic parameter. -/
structure Parameter where
  /-- The declaration up to a default. -/
  declared : List Token
  /-- The default, with its equals sign. -/
  fallback : List Token
  /-- The parameter where it is used. -/
  used : List Token

/-- The whole declaration. -/
def Parameter.written (p : Parameter) : List Token := p.declared ++ p.fallback

/-- Whether parameters in angle brackets stand at the front, rather than a path that starts with a
type. -/
def startWithParameters (ts : List Token) : Bool :=
  let second := behind ts
  let third := behind second
  startWith "<" ts &&
    (startWith ">" second || startWith "#" second || startWith "const" second ||
      (startWithLifetime second || startWithName second) &&
        (startWith ">" third || startWith "," third || startWith ":" third && !startWith "::" third ||
          startWith "=" third))

/-- Whether the bounds of a parameter end here. -/
def endsParameter (ts : List Token) : Bool :=
  ts.isEmpty || startWith "," ts || startWith ">" ts

/-- Whether what is asked behind `where` ends here. -/
def endsDemand (ts : List Token) : Bool :=
  ts.isEmpty || startWithGroup .brace ts || startWith "," ts || startWith ";" ts ||
    startWith ":" ts && !startWith "::" ts || startWith "=" ts

namespace Reader

/-- Keeps what a reader reads only if there is something behind the first token. -/
def unlessEmpty (r : Reader Unit) : Reader Unit := do
  let (_, code) ← captured r
  if 1 < code.length then emit code

/-- Bounds behind a colon, if there is one. -/
def boundsIf (bounds : Reader Unit) : Reader Unit := do
  if ← sees ":" then
    unlessEmpty do
      accept ":"
      bounds

def lifetimeParameter : Reader Parameter := do
  let (_, used) ← captured lifetime
  let (_, asked) ← captured (boundsIf (lifetimesUntil endsParameter))
  return ⟨used ++ asked, [], used⟩

/-- A type, perhaps with bounds and a default. -/
def typeParameter : Reader Parameter := do
  let (_, used) ← captured name
  let (_, asked) ← captured <| boundsIf <| boundsUntil fun ts => endsParameter ts || startWith "=" ts
  let (_, fallback) ← captured do
    if ← accept? "=" then type
  return ⟨used ++ asked, fallback, used⟩

/-- A constant with its type, perhaps with a default. -/
def constantParameter : Reader Parameter := do
  let (_, mark) ← captured (accept "const")
  let (_, used) ← captured name
  let (_, asked) ← captured do
    accept ":"
    type
  let (_, fallback) ← captured do
    if ← accept? "=" then constant
  return ⟨mark ++ used ++ asked, fallback, used⟩

/-- A parameter, and whether it is a lifetime. Among parameters of a declaration one may be
nameless. -/
def anyParameter (declaration : Bool) : Reader (Bool × Parameter) := do
  let (_, attributes) ← captured attributes
  let isLifetime ← ahead startWithLifetime
  let parameter ←
    if isLifetime then lifetimeParameter
    else if ← ahead startWithName then typeParameter
    else if ← sees "const" then constantParameter
    else if declaration && (← sees "_") then
      skip 1
      pure ⟨[.word "_"], [], [.word "_"]⟩
    else if declaration then want ["lifetime", "identifier", quoted "const"]
    else want ["identifier", "lifetime", quoted "const"]
  return (isLifetime, { parameter with declared := attributes ++ parameter.declared })

/-- The parameters of a declaration, which are not kept. -/
def parameters : Reader (List (Part Parameter)) := do
  if !(← sees "<") then return []
  let (found, _) ← captured do
    accept "<"
    let found ← parts (anyParameter true) (accept ",")
    accept ">"
    return found
  return found

/-- Parameters in angle brackets, or nothing if there are none. -/
def bracketed (code : Parameter → List Token) (parameters : List (Part Parameter)) : List Token :=
  if parameters.isEmpty then []
  else .alone '<' :: arranged code parameters ++ [.alone '>']

/-- The parameters of a declaration. -/
def keptParameters : Reader Unit := do
  emit (bracketed Parameter.written (← parameters))

/-- What is asked of a lifetime or a type behind `where`. -/
def demand : Reader Unit := do
  if ← ahead fun ts => startWithLifetime ts && startWith ":" (behind ts) then
    lifetime
    accept ":"
    lifetimesUntil fun ts => endsDemand ts || startWith ":" ts
  else
    discard binder?
    type
    accept ":"
    boundsUntil endsDemand

/-- What is asked behind `where`, one by one. -/
def demandList : Reader Unit := do
  accept "where"
  if ← ahead startWithParameters then
    broken "generic parameters on `where` clauses are reserved for future use"
  for _ in ← turns do
    if ← ahead endsDemand then return
    demand
    if !(← accept? ",") then return

/-- What is asked of parameters behind `where`, which is kept and answered. It is nothing if no
`where` stands here or nothing is behind it. -/
def demandCode : Reader (List Token) := do
  if ← sees "where" then
    let (_, code) ← captured (unlessEmpty demandList)
    emit code
    return code
  else return []

def demands : Reader Unit := discard demandCode

end Reader

end AlgebraEditor.Code
