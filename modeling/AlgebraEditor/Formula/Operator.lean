import AlgebraEditor.Formula.Token

/-!
# Binary operators

Operators fall into classes that are reduced one after the other, the tightest first. Two classes
join operands in pairs from the left, the other two join whole runs into one list.
-/

namespace AlgebraEditor.Formula

/-- An operator between two operands. -/
inductive Operator where
  | raise | divide | multiply | add | subtract
  deriving DecidableEq

/-- Operators that are reduced together. -/
inductive OperatorClass where
  | power | quotient | product | sum
  deriving DecidableEq

namespace Operator

/-- The operator's name as tables show it. -/
def name : Operator → String
  | raise => "Exp"
  | divide => "Div"
  | multiply => "Mul"
  | add => "Add"
  | subtract => "Sub"

/-- The operator that a token writes. -/
def ofToken? : TokenKind → Option Operator
  | .caret => some raise
  | .slash => some divide
  | .times => some multiply
  | .plus => some add
  | .minus => some subtract
  | _ => none

/-- The class that the operator is reduced with. -/
def opClass : Operator → OperatorClass
  | raise => .power
  | divide => .quotient
  | multiply => .product
  | add | subtract => .sum

end Operator

namespace OperatorClass

/-- The class's name as tables show it. -/
def name : OperatorClass → String
  | power => "Exp"
  | quotient => "Div"
  | product => "Mul"
  | sum => "Term"

/-- The classes in the order in which they are reduced, the tightest first. -/
def reductionOrder : List OperatorClass := [power, quotient, product, sum]

/-- Whether a whole run of the class's operators makes one list. -/
def joinsRuns : OperatorClass → Bool
  | product | sum => true
  | power | quotient => false

end OperatorClass

end AlgebraEditor.Formula
