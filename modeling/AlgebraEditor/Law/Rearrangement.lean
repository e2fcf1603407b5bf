import AlgebraEditor.Law.Basic

/-!
# Rearranging lists

Sums and products may be regrouped and reordered. A list in a list of its kind is spliced into its
parent, `a + (b + c) + d` becoming `a + b + c + d`, and two children of a list exchange their
places.
-/

namespace AlgebraEditor.Law

/-! ### Regrouping -/

/-- Inserts children into a list one after the other, the first one at the given index. -/
def insertRun (list : Handle) : Nat → List Handle → Edit Unit
  | _, [] => return
  | index, h :: rest => do
    Edit.insertChild list index h
    insertRun list (index + 1) rest

/-- Puts copies of the children of a list in its place among its siblings. -/
def unnest : ElementRule := fun h => do
  let some parent ← Edit.parentOf h | return none
  let kind ← Edit.kindOf h
  if !kind.isList then return none
  if (← Edit.kindOf parent) ≠ kind then return none
  let some index ← Edit.inspect (·.childIndex parent h) | return none
  match ← (← Edit.childrenOf h).mapM Edit.copy with
  | [] => throw .emptyList
  | first :: rest =>
    Edit.replace parent h first
    insertRun parent (index + 1) rest
    return some (first :: rest)

/-! ### Reordering -/

/-- Exchanges two children of a list. An element cannot be in two slots at once, so both leave
before either comes back. -/
def swap : SiblingRule := fun parent children => do
  let [first, second] := children | return none
  if !(← Edit.kindOf parent).isList then return none
  let firstSlot ← Edit.integer 0
  let secondSlot ← Edit.integer 0
  Edit.replace parent first firstSlot
  Edit.replace parent second secondSlot
  Edit.replace parent firstSlot second
  Edit.replace parent secondSlot first
  return some [first, second]

end AlgebraEditor.Law
