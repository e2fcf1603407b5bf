import AlgebraEditor.Code.Statement

/-!
# Items

What a module declares: functions, types, constants, traits and the like.
-/

namespace AlgebraEditor.Code.Reader

/-! ### Functions -/

/-- The words in front of a function. -/
def functionMarks (foreign : Bool) : Reader Unit := do
  discard <| accept? "const"
  discard <| accept? "async"
  if !(foreign && (← accept? "safe")) then discard <| accept? "unsafe"
  callingConvention?

/-- Whether a function stands behind some tokens. -/
def declaresFunction (foreign : Bool) (ts : List Token) : Reader Bool := fun g s =>
  .ok (((functionMarks foreign g { s with rest := ts }).toOption.map fun (_, t) =>
    startWith "fn" t.rest).getD false, s)

/-- The value that a method belongs to. -/
def receiver : Reader Unit := do
  let referred ← accept? "&"
  if referred then discard lifetime?
  discard <| accept? "mut"
  accept "self"
  if !referred then
    if ← accept? ":" then type

/-- A comma behind the last of all arguments. -/
def lastComma : Reader Unit := do
  if !(← atEnd) then accept ","

/-- The arguments of a function. A type alone stands for an argument without a name. -/
def declaredArguments : Reader Unit := do
  let mut first := true
  let mut received := false
  for _ in ← turns do
    if ← atEnd then return
    attributes
    if ← accept? "..." then return ← lastComma
    if ← attempt receiver then
      if received then broken "unexpected second method receiver"
      if !first then broken "unexpected method receiver"
      received := true
    else if ← ahead fun ts => startWithName ts && startWith "<" (behind ts) then
      emit [.word "_", .alone ':']
      type
    else
      discard patternForm
      accept ":"
      if ← accept? "..." then return ← lastComma
      type
    first := false
    if ← atEnd then return
    accept ","

/-- A function up to its body. -/
def signature (foreign : Bool) : Reader Unit := do
  functionMarks foreign
  accept "fn"
  name
  keptParameters
  group .parenthesis declaredArguments
  discard <| result? true
  demands

/-- A function, perhaps without a body. -/
def function (foreign : Bool) : Reader Unit := do
  signature foreign
  if !(← accept? ";") then block

/-! ### Constants and types -/

/-- A name or a blank one. `others` is what else could stand here. -/
def nameOrBlank (others : List String) : Reader Unit := do
  if ← ahead startWithNameOrBlank then take 1 else want (["identifier", quoted "_"] ++ others)

/-- A constant, perhaps without a value. -/
def constantItem (others : List String) : Reader Unit := do
  accept "const"
  nameOrBlank others
  keptParameters
  accept ":"
  type
  if ← accept? "=" then discard <| expression true
  demands
  accept ";"

def staticItem : Reader Unit := do
  accept "static"
  discard <| accept? "mut"
  name
  if ← accept? ":" then type
  else if !(← sees "=") then accept ":"
  if ← accept? "=" then discard <| expression true
  accept ";"

/-- Bounds that are joined by `+`, up to what ends them. -/
def joinedBounds (ends : List Token → Bool) : Reader Unit := do
  for _ in ← turns do
    if ← ahead ends then return
    discard <| bound ⟨false, true⟩
    if ← ahead ends then return
    accept "+"

/-- A name for a type. The flags say where more may be asked of its parameters. -/
def typeItem (beforeDefinition behindDefinition : Bool) : Reader Unit := do
  accept "type"
  name
  keptParameters
  if ← accept? ":" then joinedBounds fun ts => ["where", "=", ";"].any (startWith · ts)
  let asked ← sees "where"
  if beforeDefinition then demands
  if ← accept? "=" then type
  if behindDefinition && !(beforeDefinition && asked) then demands
  accept ";"

/-- A structure, an enumeration or a union, by its keyword. -/
def dataItem (keyword : String) (body : Reader Unit) : Reader Unit := do
  accept keyword
  name
  keptParameters
  body

/-! ### Macros -/

/-- A call of a macro as an item. It may give a name to what it declares. -/
def callItem (named : Bool) : Reader Unit := do
  plainPath
  accept "!"
  if named && (← ahead fun ts => startWithName ts || startWith "try" ts) then take 1
  if (← anyGroup) ≠ .brace then accept ";"

/-- Whether an item starts with a path here. -/
def startWithItemPath (ts : List Token) : Bool :=
  startWithName ts || ["self", "super", "crate", "::"].any (startWith · ts)

/-- What an item may start with if it starts with a path. -/
def itemPathNames : List String :=
  "identifier" :: ["self", "super", "crate", "::"].map quoted

/-- The declaration of a macro. -/
def macroItem : Reader Unit := do
  accept "macro"
  name
  if ← seesGroup .parenthesis then
    take 1
    if ← seesGroup .brace then take 1 else want ["curly braces"]
  else if ← seesGroup .brace then take 1
  else want ["parentheses", "curly braces"]

/-! ### Traits and implementations -/

/-- Items in braces. -/
def itemsOf (r : Reader Unit) : Reader Unit :=
  group .brace do
    innerAttributes
    for _ in ← turns do
      if ← atEnd then return
      r

/-- An item of a trait. -/
def traitMember : Reader Unit := do
  attributes
  let visible ← visibility
  let replaceable ← accept? "default"
  let ts := (← get).rest
  if ← declaresFunction false ts then
    signature false
    if ← seesGroup .brace then block
    else if !(← accept? ";") then want ["curly braces", quoted ";"]
  else if startWith "const" ts then
    constantItem (["async", "unsafe", "extern", "fn"].map quoted)
  else if startWith "type" ts then typeItem false true
  else if !visible && !replaceable && startWithItemPath ts then callItem false
  else want <| ["fn", "const", "type"].map quoted ++
    if visible || replaceable then [] else itemPathNames

/-- A trait behind its parameters. -/
def traitBody : Reader Unit := do
  unlessEmpty do
    if ← accept? ":" then
      joinedBounds fun ts => startWith "where" ts || startWithGroup .brace ts
  demands
  itemsOf traitMember

/-- A trait, or a name for bounds. -/
def traitItem : Reader Unit := do
  accept "trait"
  name
  keptParameters
  if ← accept? "=" then
    joinedBounds fun ts => startWith "where" ts || startWith ";" ts
    demands
    accept ";"
  else if ← ahead fun ts => startWithGroup .brace ts || startWith ":" ts || startWith "where" ts then
    traitBody
  else want ["curly braces", quoted ":", quoted "where", quoted "="]

/-- A trait with words in front of it. -/
def markedTrait : Reader Unit := do
  discard <| accept? "unsafe"
  discard <| accept? "auto"
  accept "trait"
  name
  keptParameters
  traitBody

/-- An item of an implementation. -/
def implementationMember : Reader Unit := do
  attributes
  let visible ← visibility
  let replaceable ← ahead fun ts => startWith "default" ts && !startWith "!" (behind ts)
  if replaceable then take 1
  let ts := (← get).rest
  if ← declaresFunction false ts then function false
  else if startWith "const" ts then constantItem []
  else if startWith "type" ts then typeItem false true
  else if !visible && !replaceable && startWithItemPath ts then callItem false
  else want <| (if replaceable then [] else [quoted "default"]) ++
    ["fn", "const", "type"].map quoted ++ if visible || replaceable then [] else itemPathNames

/-- Whether an implementation is for use at compile time. -/
def constantImplementation : Reader Unit := do
  if ← ahead fun ts => startWith "?" ts && startWith "const" (behind ts) then take 2
  else discard <| accept? "const"

def implementation : Reader Unit := do
  discard <| accept? "default"
  discard <| accept? "unsafe"
  accept "impl"
  if ← ahead startWithParameters then keptParameters
  constantImplementation
  let negative ← ahead fun ts => startWith "!" ts && !startWithGroup .brace (behind ts)
  if negative then take 1
  type
  if ← accept? "for" then type
  else if negative then broken "inherent impls cannot be negative"
  demands
  itemsOf implementationMember

/-! ### Modules and imports -/

def moduleItem : Reader Unit := do
  discard <| accept? "unsafe"
  accept "mod"
  if !(← accept? "try") then name
  if ← seesGroup .brace then itemsOf item
  else if !(← accept? ";") then want [quoted ";", "curly braces"]

/-- An item that is defined elsewhere. -/
def foreignMember : Reader Unit := do
  attributes
  let visible ← visibility
  let ts := (← get).rest
  if ← declaresFunction true ts then
    signature true
    if ← seesGroup .brace then block else accept ";"
  else if startWith "static" ts || ["unsafe", "safe"].any (startWith · ts) &&
      startWith "static" (behind ts) then
    if !startWith "static" ts then take 1
    staticItem
  else if startWith "type" ts then typeItem true true
  else if !visible && startWithItemPath ts then callItem false
  else want <| ["fn", "static", "type"].map quoted ++ if visible then [] else itemPathNames

/-- Items that are defined elsewhere. -/
def foreignItems : Reader Unit := do
  discard <| accept? "unsafe"
  if !(← sees "extern") then accept "extern"
  callingConvention?
  itemsOf foreignMember

/-- Another name for something, if it is given. -/
def otherName? : Reader Unit := do
  if ← accept? "as" then
    if ← ahead startWithNameOrBlank then take 1 else want ["identifier or underscore"]

/-- What is named together in braces. -/
def importGroup (rooted : Bool) : Reader Unit :=
  group .brace <| commaSeparated do
    let marked ← if rooted then accept? "::" else pure false
    imports (rooted && !marked)

/-- What an import names. -/
def anyImports (rooted : Bool) : Reader Unit := do
  let mut rooted := rooted
  for _ in ← turns do
    if ← ahead fun ts =>
      startWithName ts || ["self", "super", "crate", "try"].any (startWith · ts) then
      take 1
      if !(← accept? "::") then return ← otherName?
      rooted := false
    else if ← accept? "*" then return
    else if ← seesGroup .brace then return ← importGroup rooted
    else want <| ["identifier"] ++ ["self", "super", "crate", "try", "*"].map quoted ++
      ["curly braces"]

def useItem : Reader Unit := do
  accept "use"
  let marked ← accept? "::"
  imports (!marked)
  accept ";"

/-- The import of a whole library. -/
def libraryItem : Reader Unit := do
  accept "extern"
  accept "crate"
  if !(← accept? "self") then name
  otherName?
  accept ";"

/-- What begins with `extern` and is no function. `ts` are the tokens from there on. -/
def externItem (ts : List Token) : Reader Unit := do
  let second := behind ts
  if startWith "crate" second then
    discard visibility
    libraryItem
  else if startWithGroup .brace second then foreignItems
  else
    match literalAt? second with
    | some (text, n) =>
      if isText text && startWithGroup .brace (second.drop n) then foreignItems
      else if isText text then throw (.wanted ["curly braces"] (second.drop n).isEmpty)
      else throw (.wanted [quoted "crate", "curly braces", "string literal"] false)
    | none => throw (.wanted [quoted "crate", "curly braces", "string literal"] second.isEmpty)

/-- What begins with `unsafe` and is no function. `ts` are the tokens from there on. -/
def unsafeItem (ts : List Token) : Reader Unit := do
  let second := behind ts
  if startWith "trait" second || startWith "auto" second && startWith "trait" (behind second) then
    discard visibility
    markedTrait
  else if startWith "impl" second then
    discard visibility
    implementation
  else if startWith "extern" second then foreignItems
  else if startWith "mod" second then
    discard visibility
    moduleItem
  else throw (.wanted (["trait", "auto", "impl", "extern", "mod"].map quoted) second.isEmpty)

/-- What an item declares, by the word that it begins with, if it begins with one. -/
def wordItem? (ts : List Token) : Option (Reader Unit) :=
  if startWith "use" ts then some useItem
  else if startWith "static" ts then some staticItem
  else if startWith "const" ts then some (constantItem [])
  else if startWith "mod" ts then some moduleItem
  else if startWith "type" ts then some (typeItem true false)
  else if startWith "struct" ts then some (dataItem "struct" (discard structureBody))
  else if startWith "enum" ts then some (dataItem "enum" (discard enumerationBody))
  else if startWith "union" ts && startWithName (behind ts) then
    some (dataItem "union" (discard unionBody))
  else if startWith "trait" ts then some traitItem
  else if startWith "auto" ts && startWith "trait" (behind ts) then some markedTrait
  else if startWith "impl" ts || startWith "default" ts && !startWith "!" (behind ts) then
    some implementation
  else if startWith "macro" ts then some macroItem
  else none

/-- An item of a module. -/
def anyItem : Reader Unit := do
  attributes
  match ← past? visibility with
  | none => discard visibility
  | some ts =>
    if ← declaresFunction false ts then
      discard visibility
      function false
    else if startWith "extern" ts then externItem ts
    else if startWith "unsafe" ts then unsafeItem ts
    else
      match wordItem? ts with
      | some r =>
        discard visibility
        r
      | none =>
        let visible ← sees "pub"
        if !visible && startWithItemPath ts then callItem true
        else
          throw <| .wanted (["fn", "extern", "use", "static", "const", "unsafe", "mod", "type",
            "struct", "enum", "union", "trait", "auto", "impl", "default", "macro"].map quoted ++
            if visible then [] else itemPathNames) ts.isEmpty

end AlgebraEditor.Code.Reader
