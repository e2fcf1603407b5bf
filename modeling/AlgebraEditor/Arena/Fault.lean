import AlgebraEditor.Arena.Element

/-!
# Faults

A fault says why an operation on an arena was given something it must not be given. Its message is
a list of pieces, so that whoever shows it decides how handles are written.
-/

namespace AlgebraEditor

/-- A misuse of an arena, with the elements involved. -/
inductive Fault where
  /-- The handle names no stored element. -/
  | stale (handle : Handle)
  /-- Following children or parents from the element never ends. -/
  | endless (handle : Handle)
  /-- The elements have different topmost ancestors. -/
  | unrelated (a b : Handle)
  | rootAdded (container : Handle)
  | alreadyOwned (child owner : Handle)
  | insideItself (child : Handle)
  | notAddedThere (child container : Handle)
  | alreadyUsed (child : Handle) (kind : Kind) (owner : Handle)
  | rootCopied
  | childNotFound (child container : Handle)
  | replacedWithoutParent (handle : Handle)
  | insertedIntoNonList (handle : Handle) (kind : Kind)
  | indexTooLarge (index count : Nat)
  | removedFromNonList (handle : Handle) (kind : Kind)
  | removedWithoutParent (list : Handle)
  | notRemovable (child list : Handle)
  | notAChild (child parent : Handle)
  /-- The wrapper that should hold the expression is of another kind. -/
  | rootIsNot (kind : Kind)
  | rootOwned (parent : Handle)
  | reachedTwice (handle : Handle)
  | rootInside (handle : Handle)
  | listTooShort (kind : Kind) (list : Handle) (count : Nat)
  | parentMismatch (child holder : Handle) (recorded : Option Handle)
  /-- A list that must have a first child has none. -/
  | emptyList
  | childrenNotListed (parent : Handle)
  | nothingOutermost
  | severalTops
  | anchorElsewhere (anchor moved : Handle)
  | outOfBounds (index count : Nat)
  | rangeTooLong (stop count : Nat)
  | zeroOutsideSum
  | operandsLeft (count : Nat)
  /-- Reading a text never ends. -/
  | endlessText
  deriving DecidableEq

/-- A part of a message. -/
inductive MessagePiece where
  | text (s : String)
  | handle (h : Handle)
  deriving DecidableEq

namespace Fault

/-- The opening of messages about states that were ruled out beforehand. -/
def unreachablePreamble : String := "internal error: entered unreachable code: "

open MessagePiece in
/-- The message of a fault. -/
def message : Fault → List MessagePiece
  | stale h => [text "stale element handle ", handle h]
  | endless h => [text "the elements around ", handle h, text " never end"]
  | unrelated a b => [handle a, text " and ", handle b, text " are not part of the same tree"]
  | rootAdded container => [text "cannot add the root element to ", handle container]
  | alreadyOwned child owner =>
    [text "cannot add ", handle child, text " to two places, it is already a child of ",
      handle owner]
  | insideItself child => [text "cannot add ", handle child, text " inside itself"]
  | notAddedThere child container =>
    [text "cannot remove ", handle child, text " from ", handle container,
      text ", it has not been added there"]
  | alreadyUsed child kind owner =>
    [text "cannot use ", handle child, text (" as a " ++ kind.name ++ ", it is already a child of "),
      handle owner]
  | rootCopied => [text "the root element cannot be copied"]
  | childNotFound child container =>
    [text "child element ", handle child, text " not found in ", handle container]
  | replacedWithoutParent h => [text "cannot replace ", handle h, text ", it has no parent"]
  | insertedIntoNonList h kind =>
    [text "cannot insert into ", handle h, text (", it is a " ++ kind.name ++ ", not a list")]
  | indexTooLarge index count =>
    [text ("invalid index " ++ toString index ++ " for a list of " ++ toString count ++ " children")]
  | removedFromNonList h kind =>
    [text "cannot remove children from ", handle h,
      text (", it is a " ++ kind.name ++ ", not a list")]
  | removedWithoutParent list =>
    [text "cannot remove children from ", handle list, text ", it has no parent"]
  | notRemovable child list =>
    [text "cannot remove ", handle child, text ", it is not a child of ", handle list]
  | notAChild child parent => [handle child, text " is not a child of ", handle parent]
  | rootIsNot kind => [text (unreachablePreamble ++ "root wrapper holds " ++ kind.name)]
  | rootOwned parent => [text "root element has a parent ", handle parent]
  | reachedTwice h => [handle h, text " is reachable through two containers"]
  | rootInside h => [text "root wrapper ", handle h, text " found inside the tree"]
  | listTooShort kind list count =>
    [text (kind.name ++ " "), handle list, text (" has " ++ toString count ++ " children")]
  | parentMismatch child holder recorded =>
    [handle child, text " is held by ", handle holder, text " but records "] ++
      (match recorded with
        | some h => [text "Some(", handle h, text ")"]
        | none => [text "None"]) ++
      [text " as its parent"]
  | emptyList => [text "index out of bounds: the len is 0 but the index is 0"]
  | childrenNotListed parent => [handle parent, text " does not list all of its children"]
  | nothingOutermost => [text (unreachablePreamble ++ "filtering cannot remove every element")]
  | severalTops => [text (unreachablePreamble ++ "two parentless elements in one tree")]
  | anchorElsewhere anchor moved =>
    [text "grow anchor ", handle anchor, text " is not a sibling of ", handle moved]
  | outOfBounds index count =>
    [text ("index out of bounds: the len is " ++ toString count ++ " but the index is " ++
      toString index)]
  | rangeTooLong stop count =>
    [text ("range end index " ++ toString stop ++ " out of range for slice of length " ++
      toString count)]
  | zeroOutsideSum => [text "synthetic zero used outside of a sum"]
  | operandsLeft count =>
    [text ("operands left after reducing all operators: " ++ toString count)]
  | endlessText => [text "the text never ends"]

end Fault

end AlgebraEditor
