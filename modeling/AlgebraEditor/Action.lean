import AlgebraEditor.Law.Basic

/-!
# Actions

An action is a rule with a name and a key, and a way to apply the rule to the selected elements.
Running an action answers with the elements to select afterwards, or with nothing if no
application of the rule did anything.
-/

namespace AlgebraEditor

/-- How a rule is applied to the selected elements. -/
inductive Application where
  /-- To every element on its own. -/
  | each (rule : ElementRule)
  /-- To the only element. -/
  | only (rule : ElementRule)
  /-- To exactly `count` children of one parent. -/
  | exactly (count : Nat) (rule : SiblingRule)
  /-- To every group of two or more children of one parent. -/
  | groups (rule : SiblingRule)

/-- The application's name as listings show it. -/
def Application.name : Application → String
  | each _ => "Single"
  | only _ => "SingleStrict"
  | exactly count _ => "Fixed(" ++ toString count ++ ")"
  | groups _ => "Grouped"

/-- A named change of the selected elements, bound to a key. -/
structure Action where
  name : String
  key : String
  application : Application

namespace Action

/-- Applies a step to every input in turn. The answer says whether any application did something,
and holds the elements of every input: what the step answered, or those that `unchanged` gives. -/
def pass {α : Type} (step : α → Edit (Option (List Handle))) (unchanged : α → List Handle) :
    List α → Edit (Bool × List Handle)
  | [] => return (false, [])
  | x :: rest => do
    let result ← step x
    let (done, later) ← pass step unchanged rest
    return (result.isSome || done, result.getD (unchanged x) ++ later)

/-- The elements of a pass that did something. -/
def ifDone : Bool × List Handle → Option (List Handle)
  | (done, hs) => if done then some hs else none

/-- The parent that all elements have in common, if they have one. -/
def commonParent? (a : Arena) : List Handle → Except Fault (Option Handle)
  | [] => return none
  | hs@(first :: _) => do
    let some parent ← a.parent first | return none
    if ← hs.allM fun h => return (← a.parent h) = some parent then return some parent
    return none

/-- Adds an element to the group of its parent. -/
def addToGroup (parent : Option Handle) (h : Handle) :
    List (Option Handle × List Handle) → List (Option Handle × List Handle)
  | [] => [(parent, [h])]
  | (p, group) :: rest =>
    if p = parent then (p, group ++ [h]) :: rest else (p, group) :: addToGroup parent h rest

/-- The elements grouped by parent. Groups come in the order of their first elements, and keep the
order of the others. -/
def groupByParent (a : Arena) (hs : List Handle) :
    Except Fault (List (Option Handle × List Handle)) :=
  hs.foldlM (fun groups h => return addToGroup (← a.parent h) h groups) []

/-- Applies a rule to a group of two or more children. -/
def runGroup (rule : SiblingRule) : Option Handle × List Handle → Edit (Option (List Handle))
  | (some parent, h :: k :: rest) => rule parent (h :: k :: rest)
  | _ => return none

/-- Runs the action on the selected elements. -/
def run (action : Action) (selected : List Handle) : Edit (Option (List Handle)) :=
  match action.application with
  | .each rule => return ifDone (← pass rule (fun h => [h]) selected)
  | .only rule =>
    match selected with
    | [h] => rule h
    | _ => return none
  | .exactly count rule => do
    if selected.length ≠ count then return none
    let some parent ← Edit.inspect (commonParent? · selected) | return none
    rule parent selected
  | .groups rule => do
    let groups ← Edit.inspect (groupByParent · selected)
    return ifDone (← pass (runGroup rule) (·.2) groups)

end Action

end AlgebraEditor
