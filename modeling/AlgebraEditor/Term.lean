import AlgebraEditor.Kind

/-!
# Terms

A term is an expression as a plain value, without places to edit. Parsing produces terms, copying
goes through them, and structural equality compares them. `productOf` and `sumOf` keep lists of
fewer than two children from being built.
-/

namespace AlgebraEditor

/-- An expression. A subtracted part of a sum is a negation among its terms; `root` is the
wrapper around a whole expression. -/
inductive Term where
  | symbol (name : String)
  | integer (value : UInt64)
  | negation (inner : Term)
  | fraction (numerator denominator : Term)
  | power (base exponent : Term)
  | product (factors : List Term)
  | sum (terms : List Term)
  | root (inner : Term)
  deriving Inhabited

namespace Term

/-- The term without its contents. -/
def kind : Term → Kind
  | symbol _ => .symbol
  | integer _ => .integer
  | negation _ => .negation
  | fraction _ _ => .fraction
  | power _ _ => .power
  | product _ => .product
  | sum _ => .sum
  | root _ => .root

/-- The parts of a term, in order. -/
def children : Term → List Term
  | symbol _ | integer _ => []
  | negation inner | root inner => [inner]
  | fraction numerator denominator => [numerator, denominator]
  | power base exponent => [base, exponent]
  | product factors => factors
  | sum terms => terms

/-- The product of the factors: `1` if there are none, and a single factor as it is. -/
def productOf : List Term → Term
  | [] => integer 1
  | [only] => only
  | factors => product factors

/-- The sum of the terms: `0` if there are none, and a single term as it is. -/
def sumOf : List Term → Term
  | [] => integer 0
  | [only] => only
  | terms => sum terms

/-- The term, negated if asked. -/
def signed (negated : Bool) (t : Term) : Term := if negated then negation t else t

mutual

/-- The number of elements of a term. -/
def size : Term → Nat
  | symbol _ | integer _ => 1
  | negation inner | root inner => inner.size + 1
  | fraction numerator denominator => numerator.size + denominator.size + 1
  | power base exponent => base.size + exponent.size + 1
  | product factors => sizes factors + 1
  | sum terms => sizes terms + 1

/-- The number of elements of all terms together. -/
def sizes : List Term → Nat
  | [] => 0
  | t :: ts => t.size + sizes ts

end

mutual

/-- The term as a listing of kinds and leaves, such as `Sum(x,Negation(2))`. -/
def listing : Term → List Char
  | symbol name => name.toList
  | integer value => Nat.toDigits 10 value.toNat
  | negation inner => Kind.negation.name.toList ++ '(' :: listing inner ++ [')']
  | fraction numerator denominator =>
    Kind.fraction.name.toList ++ '(' :: listing numerator ++ ',' :: listing denominator ++ [')']
  | power base exponent =>
    Kind.power.name.toList ++ '(' :: listing base ++ ',' :: listing exponent ++ [')']
  | product factors => Kind.product.name.toList ++ '(' :: listings factors ++ [')']
  | sum terms => Kind.sum.name.toList ++ '(' :: listings terms ++ [')']
  | root inner => Kind.root.name.toList ++ '(' :: listing inner ++ [')']

/-- The listings of several terms, separated by commas. -/
def listings : List Term → List Char
  | [] => []
  | [t] => listing t
  | t :: u :: ts => listing t ++ ',' :: listings (u :: ts)

end

theorem size_pos (t : Term) : 0 < t.size := by
  cases t <;> simp [size]

@[simp] theorem productOf_pair (t u : Term) (ts : List Term) :
    productOf (t :: u :: ts) = product (t :: u :: ts) := rfl

@[simp] theorem sumOf_pair (t u : Term) (ts : List Term) :
    sumOf (t :: u :: ts) = sum (t :: u :: ts) := rfl

end Term

end AlgebraEditor
