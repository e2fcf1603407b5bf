import AlgebraEditor.Arena.Basic

/-!
# Walks along parents and children

Upwards from an element lie its ancestors, nearest first; downwards lies its subtree, in pre-order.
`documentOrder` compares two elements by where they stand in the pre-order of their topmost
ancestor. In an arena where parents or children run in a circle the walks end with a fault.
-/

namespace AlgebraEditor.Arena

/-- The ancestors of an element within the given number of steps. -/
def climb (a : Arena) : Nat → Handle → Except Fault (List Handle)
  | 0, h => throw (.endless h)
  | steps + 1, h => do
    match ← a.parent h with
    | none => return []
    | some above => return above :: (← climb a steps above)

/-- The ancestors of an element, nearest first. -/
def ancestors (a : Arena) (h : Handle) : Except Fault (List Handle) := climb a a.reach h

/-- Whether a climb from an element meets `target`. It goes no further than that. -/
def climbMeets (a : Arena) (target : Handle) : Nat → Handle → Except Fault Bool
  | 0, h => throw (.endless h)
  | steps + 1, h => do
    match ← a.parent h with
    | none => return false
    | some above =>
      let _ ← a.node above
      if above = target then return true
      climbMeets a target steps above

/-- Whether `ancestor` lies above the element. -/
def isAncestorOf (a : Arena) (ancestor h : Handle) : Except Fault Bool :=
  climbMeets a ancestor a.reach h

/-- Whether the element is the root wrapper or lies below it. -/
def isReachable (a : Arena) (h : Handle) : Except Fault Bool :=
  if h = a.root then return true
  else return (← a.ancestors h).getLast? = some a.root

/-- The subtree of an element, down to the given depth. -/
def descend (a : Arena) : Nat → Handle → Except Fault (List Handle)
  | 0, h => throw (.endless h)
  | depth + 1, h => do
    let below ← (← a.children h).mapM (descend a depth)
    return h :: below.flatten

/-- The element and everything below it; each element comes before its children. -/
def preOrder (a : Arena) (h : Handle) : Except Fault (List Handle) := descend a a.reach h

/-! ### Order -/

/-- The way down to an element from its topmost ancestor, both included. -/
def lineage (a : Arena) (h : Handle) : Except Fault (List Handle) :=
  return (← a.ancestors h).reverse ++ [h]

/-- Compares two positions; no position at all comes first. -/
def comparePositions : Option Nat → Option Nat → Ordering
  | none, none => .eq
  | none, some _ => .lt
  | some _, none => .gt
  | some i, some j => compare i j

/-- Compares two ways down from `common`. An ancestor comes before what lies below it; where the
ways part, the order of the children decides. -/
def compareLineages (a : Arena) (common : Handle) :
    List Handle → List Handle → Except Fault Ordering
  | [], [] => return .eq
  | [], _ :: _ => return .lt
  | _ :: _, [] => return .gt
  | x :: xs, y :: ys =>
    if x = y then compareLineages a x xs ys
    else return comparePositions (← a.childIndex common x) (← a.childIndex common y)

/-- Compares two elements with one topmost ancestor by their place in its pre-order. -/
def documentOrder (a : Arena) (x y : Handle) : Except Fault Ordering := do
  match ← a.lineage x, ← a.lineage y with
  | top :: xs, other :: ys =>
    if top = other then compareLineages a top xs ys else throw (.unrelated x y)
  | _, _ => throw (.unrelated x y)

end AlgebraEditor.Arena
