import AlgebraEditor.Diagnostic.Item

/-!
# Derived error reports

A struct that describes an error carries an attribute `error` with the texts of its report. From
these a Rust implementation that builds the report is derived. `derive` either answers with the
code or says what is wrong with the item; the attribute is looked at before the shape of the item.
-/

namespace AlgebraEditor.Diagnostic

open Code (Token Reader Grammar Input Refusal AttributeContent)

/-- Why no implementation can be derived. -/
inductive DeriveError where
  | missingAttribute
  /-- The attribute stands for itself. -/
  | missingArguments
  /-- The attribute has a value. -/
  | valueInsteadOfArguments
  | unknownTag
  | repeatedTag
  | missingMessage
  | tupleStruct
  | notAStruct
  /-- The tags are not written as they should be. -/
  | refused (r : Refusal)
  deriving DecidableEq

/-- What the compiler reports. -/
def DeriveError.message : DeriveError → String
  | missingAttribute => "missing `#[error(message = ...)]` attribute"
  | missingArguments => "expected attribute arguments in parentheses: #[error(...)]"
  | valueInsteadOfArguments => "expected parentheses: #[error(...)]"
  | unknownTag => "expected `message`, `labels` or `help`"
  | repeatedTag => "this tag is given twice"
  | missingMessage => "the `message` tag is required"
  | tupleStruct => "`ErrorKind` cannot be derived for tuple structs, name the fields instead"
  | notAStruct => "`ErrorKind` can only be derived for structs"
  | refused r => r.message

/-! ### Texts of a report -/

/-- A tag of the attribute. -/
inductive Tag where
  | message
  | labels
  | help
  deriving DecidableEq

/-- The tag that a path names, if it does. -/
def Tag.ofPath? : List Token → Option Tag
  | [.word "message"] => some message
  | [.word "labels"] => some labels
  | [.word "help"] => some help
  | _ => none

/-- The expressions of the tags that were given so far. -/
structure GivenTags where
  message : Option (List Token)
  labels : Option (List Token)
  help : Option (List Token)

def GivenTags.none : GivenTags := ⟨.none, .none, .none⟩

/-- The expression of a tag, if it was given. -/
def GivenTags.get? (given : GivenTags) : Tag → Option (List Token)
  | .message => given.message
  | .labels => given.labels
  | .help => given.help

/-- The tags with one more expression. -/
def GivenTags.put (given : GivenTags) (code : List Token) : Tag → GivenTags
  | .message => { given with message := code }
  | .labels => { given with labels := code }
  | .help => { given with help := code }

/-- The expressions that a report is built from. -/
structure ReportTexts where
  message : List Token
  labels : Option (List Token)
  help : Option (List Token)

/-- Reads the path of a tag, which may hold keywords. -/
def tagPath : Reader Unit := do
  discard <| Reader.accept? "::"
  if ← Reader.ahead Code.startWithWord then Reader.anyWord
  else if ← Reader.atEnd then Reader.want ["nested attribute"]
  else if ← Reader.ahead Code.startWithLiteral then
    Reader.broken "unexpected literal in nested attribute, expected ident"
  else Reader.broken "unexpected token in nested attribute, expected ident"
  for _ in ← Reader.turns do
    if !(← Reader.accept? "::") then return
    Reader.anyWord

/-- Reads the equals sign and the expression of a tag. -/
def tagValue : Reader Unit := do
  Reader.accept "="
  discard <| Reader.expression true

/-- Reads the comma behind a tag, if it is not the last one. -/
def tagEnd : Reader Unit := do
  if !(← Reader.atEnd) then Reader.accept ","

/-- Lets a reader go on. -/
def proceed {α : Type} (g : Grammar) (r : Reader α) (s : Input) : Except DeriveError (α × Input) :=
  (r g s).mapError .refused

/-- Reads one tag. Its name is checked first, then that it is new, then its value. -/
def readTag (g : Grammar) (given : GivenTags) (s : Input) :
    Except DeriveError (GivenTags × Input) := do
  let ((_, path), s) ← proceed g (Reader.captured tagPath) s
  let some tag := Tag.ofPath? path | throw .unknownTag
  if (given.get? tag).isSome then throw .repeatedTag
  let ((_, code), s) ← proceed g (Reader.captured tagValue) s
  let (_, s) ← proceed g tagEnd s
  return (given.put (code.drop 1) tag, s)

/-- Reads tags up to the end. Each takes a token, so that the input allows for as many turns. -/
def readTags (g : Grammar) (given : GivenTags) (s : Input) :
    List Token → Except DeriveError (GivenTags × Input)
  | [] => return (given, s)
  | _ :: turns => do
    if s.rest.isEmpty then return (given, s)
    let (given, s) ← readTag g given s
    readTags g given s turns

/-- The tags that tokens give. No brackets in them may be left half read. -/
def tagsOf (g : Grammar) (ts : List Token) : Except DeriveError GivenTags := do
  let (given, s) ← readTags g .none (.ofTokens ts) ts
  match s.unread with
  | some d => throw (.refused (.unread d))
  | none => return given

/-- The texts in the first attribute with the path `error`. -/
def reportTexts (item : Item) : Except DeriveError ReportTexts := do
  let isError (a : Code.Attribute) : Bool := match a.path with
    | [.word "error"] => true
    | _ => false
  let some found := item.attributes.find? isError | throw .missingAttribute
  match found.content with
  | .nothing => throw .missingArguments
  | .value => throw .valueInsteadOfArguments
  | .arguments inside =>
    let given ← tagsOf item.grammar inside
    let some message := given.message | throw .missingMessage
    return ⟨message, given.labels, given.help⟩

/-! ### Generated code -/

/-- Texts with commas between them. -/
def commaSeparated (texts : List (List Char)) : List Char := List.intercalate [','] texts

/-- The statement that brings the named fields into scope. -/
def fieldBinding (name : List Char) : Shape → Except DeriveError (List Char)
  | .structure .unit => .ok []
  | .structure (.named fields) =>
    .ok ("#[allow(unused_variables)] let ".toList ++ name ++ ['\x7b'] ++
      commaSeparated (fields.map Token.write) ++ "\x7d = self;".toList)
  | .structure .tuple => .error .tupleStruct
  | .enumeration | .union => .error .notAStruct

/-- The code up to the body of the method. -/
def methodHead (d : Declaration) : List Char :=
  "impl ".toList ++ Token.writeAll (Reader.bracketed Code.Parameter.declared d.parameters) ++
    " mathedit_error::ErrorKind for ".toList ++ Token.writeAll d.name ++
    Token.writeAll (Reader.bracketed Code.Parameter.used d.parameters) ++
    Token.writeAll d.demands ++
    ("\x7b fn build_report<'a>(&self, src_id: &'a str, spans: &[std::ops::Range<usize>],)" ++
      "-> ariadne::Report<'_, (&'a str, std::ops::Range<usize>)> \x7b").toList

/-- The statements that make the labels. Without texts for them there is one empty label. -/
def labelStatements (labels : Option (List Char)) : List Char :=
  "let offset = spans.first().map_or(0, |span| span.start); let labels = ".toList ++
    labels.getD "[\"\"]".toList ++
    (".into_iter().enumerate().filter_map(|(i, text)| \x7b " ++
      "let span = spans.get(i).or_else(|| spans.last())?.clone(); " ++
      "let label = ariadne::Label::new((src_id, span)).with_color(mathedit_error::EXPR); " ++
      "let text = text.to_string(); " ++
      "Some(if text.is_empty() \x7b label \x7d else \x7b label.with_message(text) \x7d) \x7d)" ++
      ".collect::<Vec<_>>();").toList

/-- The statements that make the report and answer with it. -/
def reportStatements (message : List Char) (help : Option (List Char)) : List Char :=
  ("let mut report = " ++
    "ariadne::Report::build(ariadne::ReportKind::Error, src_id, offset).with_message(").toList ++
    message ++ ").with_labels(labels);".toList ++
    (match help with
      | some text => "report.set_help(".toList ++ text ++ ");".toList
      | none => []) ++
    "report.finish() \x7d \x7d".toList

/-- The implementation derived for an item. -/
def derive (item : Item) : Except DeriveError (List Char) := do
  let texts ← reportTexts item
  let d := item.declaration
  let binding ← fieldBinding (Token.writeAll d.name) d.shape
  return methodHead d ++ binding ++ labelStatements (texts.labels.map Token.writeAll) ++
    reportStatements (Token.writeAll texts.message) (texts.help.map Token.writeAll)

end AlgebraEditor.Diagnostic
