import AlgebraEditor.Law.Basic

/-!
# Signs and inverses

A sign may stand in front of a product or at one of its factors: the sign of the first negated
factor goes in front, `a*(-b)*c` becoming `-a*b*c`, and the sign in front goes to the first factor.
Two terms of a sum that cancel out, such as `x` and `-x`, are removed.
-/

namespace AlgebraEditor.Law

/-! ### Moving signs -/

/-- Moves the sign of the first negated factor in front of the product. -/
def minusToFront : ElementRule := fun h => do
  let some _ ← Edit.parentOf h | return none
  if (← Edit.kindOf h) ≠ .product then return none
  let factors ← Edit.childrenOf h
  let some factor ← Edit.inspect (firstOfKind? · .negation factors) | return none
  let some inner ← Edit.negatedOf factor | return none
  Edit.replace h factor (← Edit.copy inner)
  let negation ← Edit.replaceWith h Edit.negation
  return some [negation]

/-- Moves the sign in front of a product into its first factor. -/
def minusInside : ElementRule := fun h => do
  let some parent ← Edit.parentOf h | return none
  let some product ← Edit.negatedOf h | return none
  if (← Edit.kindOf product) ≠ .product then return none
  let some first := (← Edit.childrenOf product).head? | throw .emptyList
  let _ ← Edit.replaceWith first Edit.negation
  let copied ← Edit.copy product
  Edit.replace parent h copied
  return some [copied]

/-! ### Cancelling -/

/-- Whether an element is the negation of an equal of `other`. -/
def negates (a : Arena) (negation other : Handle) : Except Fault Bool := do
  match ← a.negated? negation with
  | none => return false
  | some inner => a.equal inner other

/-- Whether one of two elements is the negation of the other. -/
def areOpposite (a : Arena) (x y : Handle) : Except Fault Bool := do
  if ← negates a x y then return true
  negates a y x

/-- The positions beside a position. -/
def besides : Nat → List Nat
  | 0 => [1]
  | i + 1 => [i, i + 2]

/-- The sibling at the lowest position beside one of the removed elements that is not removed
itself. -/
def lowestNeighbor? (siblings removed : List Handle) : Option Handle :=
  let positions := (removed.filterMap (siblings.idxOf? ·)).flatMap besides
  let kept := positions.filter fun i => (siblings[i]?).any (!removed.contains ·)
  kept.min?.bind (siblings[·]?)

/-- Removes two terms of a sum that cancel out. -/
def cancel : SiblingRule := fun parent children => do
  let [first, second] := children | return none
  if (← Edit.kindOf parent) ≠ .sum then return none
  if (← Edit.parentOf parent).isNone then return none
  if !(← Edit.inspect (areOpposite · first second)) then return none
  let neighbor := lowestNeighbor? (← Edit.childrenOf parent) children
  let _ ← Edit.removeChildren parent children
  return some neighbor.toList

end AlgebraEditor.Law
