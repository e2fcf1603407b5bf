import AlgebraEditor.Arena.Reading
import AlgebraEditor.Arena.Walk

/-!
# Editing an arena

Every element is owned by at most one container. The edits here keep both directions of that
relation, from the container's slot to the child and from the child to its parent, in step; what
would break it is a fault, and a fault keeps the arena as it was when the fault arose.
-/

namespace AlgebraEditor

/-- A change of an arena that answers with a value or ends with a fault. -/
abbrev Edit := EStateM Fault Arena

namespace Edit

/-- Reads the arena. -/
def inspect {α : Type} (read : Arena → Except Fault α) : Edit α := fun a =>
  match read a with
  | .ok x => .ok x a
  | .error fault => .error fault a

/-- The container that owns an element. -/
def parentOf (h : Handle) : Edit (Option Handle) := inspect (·.parent h)

/-- What an element is. -/
def kindOf (h : Handle) : Edit Kind := inspect (·.kind h)

/-- The children of an element. -/
def childrenOf (h : Handle) : Edit (List Handle) := inspect (·.children h)

/-- What an element negates, if it is a negation. -/
def negatedOf (h : Handle) : Edit (Option Handle) := inspect (·.negated? h)

/-- Stores a node at a new place. -/
def store (n : Node) : Edit Handle := do
  let a ← get
  set (a.push n)
  return a.next

/-! ### Ownership -/

/-- Refuses a child that the container must not own: the root, an owned element, or one that the
container lies in. -/
def checkAttachable (container child : Handle) : Edit Unit := do
  if child = (← get).root then throw (.rootAdded container)
  if let some owner ← parentOf child then throw (.alreadyOwned child owner)
  if child = container then throw (.insideItself child)
  if ← inspect (·.isAncestorOf child container) then throw (.insideItself child)

/-- Records the container as the owner of the child. -/
def attach (container child : Handle) : Edit Unit := do
  checkAttachable container child
  modify (·.modify child fun n => { n with parent := some container })

/-- Clears the owner of the child, which must be the container. -/
def detach (container child : Handle) : Edit Unit := do
  if (← parentOf child) ≠ some container then throw (.notAddedThere child container)
  modify (·.modify child fun n => { n with parent := none })

/-! ### New elements -/

/-- Stores an element that owns the children in its slots, and is owned by nothing. -/
def create (e : Element) : Edit Handle := do
  let h ← store ⟨none, e⟩
  e.children.forM (attach h)
  return h

/-- A new symbol. -/
def symbol (name : String) : Edit Handle := create (.symbol name)

/-- A new integer. -/
def integer (value : UInt64) : Edit Handle := create (.integer value)

/-- A new negation. -/
def negation (inner : Handle) : Edit Handle := create (.negation inner)

/-- A new integer, inside a negation if the value is negative. -/
def signedInteger (value : Int) : Edit Handle := do
  let magnitude ← integer (.ofNat value.natAbs)
  if value < 0 then negation magnitude else return magnitude

/-- A new fraction. -/
def fraction (numerator denominator : Handle) : Edit Handle :=
  create (.fraction numerator denominator)

/-- A new power. -/
def power (base exponent : Handle) : Edit Handle := create (.power base exponent)

/-- A list of the given children: its identity if there are none, and a single child as it is. -/
def gather (make : List Handle → Element) (identity : UInt64) : List Handle → Edit Handle
  | [] => integer identity
  | [only] => do
    if let some owner ← parentOf only then throw (.alreadyUsed only (make []).kind owner)
    return only
  | children => create (make children)

/-- A product of the given factors. -/
def product (factors : List Handle) : Edit Handle := gather .product 1 factors

/-- A sum of the given terms. -/
def sum (terms : List Handle) : Edit Handle := gather .sum 0 terms

/-- A copy of an element, down to the given depth. The parts are copied before what holds them. -/
def copyWithin : Nat → Handle → Edit Handle
  | 0, h => throw (.endless h)
  | depth + 1, h => do
    match ← inspect (·.element h) with
    | .symbol name => symbol name
    | .integer value => integer value
    | .negation inner => negation (← copyWithin depth inner)
    | .fraction numerator denominator =>
      let n ← copyWithin depth numerator
      fraction n (← copyWithin depth denominator)
    | .power base exponent =>
      let b ← copyWithin depth base
      power b (← copyWithin depth exponent)
    | .product factors => create (.product (← factors.mapM (copyWithin depth)))
    | .sum terms => create (.sum (← terms.mapM (copyWithin depth)))
    | .root _ => throw .rootCopied

/-- A copy that shares no element with what is copied. -/
def copy (h : Handle) : Edit Handle := do copyWithin (← get).reach h

/-! ### Changing slots -/

/-- Puts `new` into the slot of `container` that holds `old`. -/
def replace (container old new : Handle) : Edit Unit := do
  if old = new then
    if (← parentOf old) ≠ some container then throw (.childNotFound old container)
    return
  if (← parentOf old) ≠ some container then throw (.childNotFound old container)
  if old ∉ (← childrenOf container) then throw (.childNotFound old container)
  checkAttachable container new
  modify (·.modify container fun n => { n with element := n.element.replaceChild old new })
  detach container old
  attach container new

/-- Replaces an element by what `build` makes of it. A placeholder holds the slot meanwhile, so
that `build` may use the element itself. -/
def replaceWith (h : Handle) (build : Handle → Edit Handle) : Edit Handle := do
  let some owner ← parentOf h | throw (.replacedWithoutParent h)
  let placeholder ← integer 0
  replace owner h placeholder
  let new ← build h
  replace owner placeholder new
  return new

/-- Replaces the expression inside the root wrapper, and answers with the old one. -/
def setContent (new : Handle) : Edit Handle := do
  let old ← inspect (·.content)
  replace (← get).root old new
  return old

/-- Inserts a child into a list. -/
def insertChild (list : Handle) (index : Nat) (child : Handle) : Edit Unit := do
  let e ← inspect (·.element list)
  if !e.kind.isList then throw (.insertedIntoNonList list e.kind)
  if e.children.length < index then throw (.indexTooLarge index e.children.length)
  checkAttachable list child
  modify (·.modify list fun n => { n with element := n.element.modifyList (·.insertIdx index child) })
  attach list child

/-- Inserts a child at the end of a list. -/
def appendChild (list child : Handle) : Edit Unit := do
  insertChild list (← childrenOf list).length child

/-- The first handle that cannot be removed from `current`, because it is not there or was asked
for before. -/
def firstNotRemovable (current : List Handle) : List Handle → List Handle → Option Handle
  | _, [] => none
  | before, child :: rest =>
    if child ∉ current ∨ child ∈ before then some child
    else firstNotRemovable current (child :: before) rest

/-- Removes children from a list at once. A list left with one child is replaced by that child,
and an empty one by its identity; the answer is what stands in the list's slot afterwards. -/
def removeChildren (list : Handle) (children : List Handle) : Edit Handle := do
  let kind ← kindOf list
  let some identity := kind.identity? | throw (.removedFromNonList list kind)
  let some owner ← parentOf list | throw (.removedWithoutParent list)
  if let some bad := firstNotRemovable (← childrenOf list) [] children then
    throw (.notRemovable bad list)
  modify (·.modify list fun n =>
    { n with element := n.element.modifyList (·.filter (!children.contains ·)) })
  children.forM (detach list)
  match ← childrenOf list with
  | [] =>
    let value ← integer identity
    replace owner list value
    return value
  | [only] =>
    modify (·.modify list fun n => { n with element := n.element.modifyList fun _ => [] })
    detach list only
    replace owner list only
    return only
  | _ => return list

/-! ### Sweeping -/

/-- Removes every element that is not below the root, and answers with their number. -/
def sweep : Edit Nat := do
  let a ← get
  let kept ← inspect fun a => a.preOrder a.root
  let swept : Arena :=
    { a with places := a.places.mapIdx fun i place => place.filter fun _ => kept.contains ⟨i⟩ }
  set swept
  return a.size - swept.size

end Edit

end AlgebraEditor
