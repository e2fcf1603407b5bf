/-!
# Kinds of elements

An element is a leaf, a container with named slots, or a list. Its kind alone decides how tightly
it binds, and so where parentheses go.
-/

namespace AlgebraEditor

/-- How tightly an element binds, from the loosest to the tightest. -/
inductive Precedence where
  | any | term | factor | fraction | exponent | atom
  deriving DecidableEq

namespace Precedence

/-- The position of a level, counted from the loosest. -/
def rank : Precedence → Nat
  | any => 0
  | term => 1
  | factor => 2
  | fraction => 3
  | exponent => 4
  | atom => 5

instance : LE Precedence := ⟨fun p q => p.rank ≤ q.rank⟩

instance : LT Precedence := ⟨fun p q => p.rank < q.rank⟩

instance (p q : Precedence) : Decidable (p ≤ q) := inferInstanceAs (Decidable (p.rank ≤ q.rank))

instance (p q : Precedence) : Decidable (p < q) := inferInstanceAs (Decidable (p.rank < q.rank))

/-- The level's name as tables show it. -/
def name : Precedence → String
  | any => "Any"
  | term => "Term"
  | factor => "Factor"
  | fraction => "Fraction"
  | exponent => "Exp"
  | atom => "Atom"

end Precedence

/-- What an element is, without its contents. -/
inductive Kind where
  | symbol | integer | negation | fraction | power | product | sum | root
  deriving DecidableEq

namespace Kind

/-- All kinds, leaves first. -/
def all : List Kind := [symbol, integer, negation, fraction, power, product, sum, root]

/-- The kind's name as structure listings and messages show it. -/
def name : Kind → String
  | symbol => "Symbol"
  | integer => "IntConstant"
  | negation => "Negation"
  | fraction => "Fraction"
  | power => "Power"
  | product => "Product"
  | sum => "Sum"
  | root => "Root"

/-- A negation is the sign of a term, so it binds as loosely as a sum. -/
def precedence : Kind → Precedence
  | root => .any
  | sum | negation => .term
  | product => .factor
  | fraction => .fraction
  | power => .exponent
  | symbol | integer => .atom

/-- Whether elements of this kind hold any number of children. -/
def isList : Kind → Bool
  | product | sum => true
  | _ => false

/-- Whether elements of this kind hold no children. -/
def isLeaf : Kind → Bool
  | symbol | integer => true
  | _ => false

/-- What a list without children is worth. -/
def identity? : Kind → Option UInt64
  | sum => some 0
  | product => some 1
  | _ => none

/-- The number of kinds that bind more loosely than this one. -/
def looserCount (k : Kind) : Nat := all.countP fun other => other.precedence < k.precedence

theorem isSome_identity? (k : Kind) : k.identity?.isSome = k.isList := by cases k <;> rfl

end Kind

end AlgebraEditor
