import AlgebraEditor.Arena.Walk

/-!
# Selections

A selection is one element, or a run of neighbouring siblings in child order. `resolve` turns any
list of handles into one: it drops what is repeated or lies inside something else that is given,
and a run of all children stands for their parent.
-/

namespace AlgebraEditor

/-- The selected elements, in child order. There is always one. -/
structure Selection where
  first : Handle
  rest : List Handle
  deriving DecidableEq

/-- Why a list of handles cannot be selected. -/
inductive SelectError where
  | empty | detached | differentParents | notAdjacent
  deriving DecidableEq

namespace SelectError

/-- All errors. -/
def all : List SelectError := [empty, detached, differentParents, notAdjacent]

/-- The error's name. -/
def name : SelectError → String
  | empty => "Empty"
  | detached => "Detached"
  | differentParents => "DifferentParents"
  | notAdjacent => "NotAdjacent"

/-- What the user is told. -/
def message : SelectError → String
  | empty => "cannot select nothing"
  | detached => "cannot select an element that is not part of the expression"
  | differentParents => "the selected elements do not have the same parent"
  | notAdjacent => "the selected elements are not next to each other"

end SelectError

/-- Towards the first or the last sibling. -/
inductive Direction where
  | previous | next
  deriving DecidableEq

/-- The position next to one of `count` positions, if there is one. -/
def Direction.step : Direction → Nat → Nat → Option Nat
  | previous, 0, _ => none
  | previous, i + 1, _ => some i
  | next, i, count => if i + 1 < count then some (i + 1) else none

/-- A computation on an arena that a select error may end. -/
abbrev Select := ExceptT SelectError (Except Fault)

namespace Selection

/-- The selected elements, in child order. -/
def toList (s : Selection) : List Handle := s.first :: s.rest

/-- The last selected element. -/
def last (s : Selection) : Handle := s.rest.getLastD s.first

/-- The selection of one element. -/
def single (h : Handle) : Selection := ⟨h, []⟩

/-- The selection of the whole expression. -/
def ofRoot (a : Arena) : Selection := single a.root

/-! ### Resolving a request -/

/-- Inserts an element into a list in reverse document order, in front of what does not come after
it. -/
def insertReversed (a : Arena) (h : Handle) : List Handle → Except Fault (List Handle)
  | [] => return [h]
  | last :: before => do
    if (← a.documentOrder h last) = .lt then return last :: (← insertReversed a h before)
    return h :: last :: before

/-- The elements in document order. Elements that the order does not tell apart keep theirs. -/
def sortByDocument (a : Arena) (hs : List Handle) : Except Fault (List Handle) :=
  return (← hs.foldlM (fun sorted h => insertReversed a h sorted) []).reverse

/-- Drops elements that equal the one before. -/
def dropRepeated : List Handle → List Handle
  | [] => []
  | [h] => [h]
  | h :: k :: rest => if h = k then dropRepeated (k :: rest) else h :: dropRepeated (k :: rest)

/-- Whether an element can be part of a selection. -/
def isSelectable (a : Arena) (h : Handle) : Except Fault Bool := do
  if !a.contains h then return false
  a.isReachable h

/-- Whether all elements can be part of a selection. -/
def areSelectable (a : Arena) (hs : List Handle) : Except Fault Bool := hs.allM (isSelectable a)

/-- The elements that do not lie inside another one. -/
def outermost (a : Arena) (hs : List Handle) : Except Fault (List Handle) :=
  hs.filterM fun h => do return !(← hs.anyM fun other => a.isAncestorOf other h)

/-- Whether each number is the successor of the one before. -/
def isConsecutive : List Nat → Bool
  | [] | [_] => true
  | i :: j :: rest => i + 1 == j && isConsecutive (j :: rest)

/-- The selection of two or more outermost elements in document order. -/
def ofSiblings (a : Arena) (first : Handle) (rest : List Handle) : Select Selection := do
  let parent ← a.parent first
  if ← rest.anyM fun h => return (← a.parent h) ≠ parent then throw .differentParents
  let some parent := parent | throwThe Fault .severalTops
  let siblings ← a.children parent
  let some positions := (first :: rest).mapM (siblings.idxOf? ·)
    | throwThe Fault (.childrenNotListed parent)
  if !isConsecutive positions then throw .notAdjacent
  if (first :: rest).length = siblings.length then return single parent
  return ⟨first, rest⟩

/-- The selection that a list of handles asks for. -/
def resolve (a : Arena) (hs : List Handle) : Select Selection := do
  if hs.isEmpty then throw .empty
  if !(← areSelectable a hs) then throw .detached
  match ← outermost a (dropRepeated (← sortByDocument a hs)) with
  | [] => throwThe Fault .nothingOutermost
  | [only] => return single only
  | first :: rest => ofSiblings a first rest

/-! ### Moving -/

/-- The sibling next to an element. -/
def sibling? (a : Arena) (h : Handle) (d : Direction) : Except Fault (Option Handle) := do
  let some parent ← a.parent h | return none
  let siblings ← a.children parent
  let some position := siblings.idxOf? h | return none
  return (d.step position siblings.length).bind (siblings[·]?)

/-- Selects the first child of the first selected element. Leaves stay selected. -/
def toChild (s : Selection) (a : Arena) : Select Selection := do
  match ← a.children s.first with
  | [] => return s
  | child :: _ => resolve a [child]

/-- Selects the parent of the first selected element. What has no parent stays selected. -/
def toParent (s : Selection) (a : Arena) : Select Selection := do
  match ← a.parent s.first with
  | none => return s
  | some parent => resolve a [parent]

/-- Selects the sibling before the first selected element or after the last one, if there is
one. -/
def toSibling (s : Selection) (a : Arena) (d : Direction) : Select Selection := do
  match ← sibling? a (match d with | .previous => s.first | .next => s.last) d with
  | none => return s
  | some sibling => resolve a [sibling]

/-- Selects the outermost sibling of the first selected element in a direction. -/
def toOutermostSibling (s : Selection) (a : Arena) (d : Direction) : Select Selection := do
  let some parent ← a.parent s.first | return s
  let siblings ← a.children parent
  match (match d with | .previous => siblings.head? | .next => siblings.getLast?) with
  | none => return s
  | some sibling => resolve a [sibling]

end Selection

end AlgebraEditor
