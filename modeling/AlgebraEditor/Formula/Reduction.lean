import AlgebraEditor.Formula.Operator
import AlgebraEditor.Formula.Reader

/-!
# Reduction of operands

Between two brackets an expression is read as a flat list of operands, with a list of the operators
between them. These lists are reduced class by class: an operator of the class is looked up, or the
whole run that starts with it; its operands are drained from the list, and the new element that they
make takes their place.
-/

namespace AlgebraEditor.Formula

/-- An operand of the expression that is being read. -/
inductive Operand where
  | element (h : Handle)
  /-- The zero that a leading `-` subtracts from. A sum leaves it out. -/
  | zero

/-- The element of an operand. -/
def Operand.handle : Operand → Edit Handle
  | element h => return h
  | zero => throw .zeroOutsideSum

/-- Takes the entries from `first` to `last` out of a list, and answers with them and what is left. -/
def drain {α : Type} (xs : List α) (first last : Nat) : Edit (List α × List α) :=
  if last < xs.length then return (xs.extract first (last + 1), xs.take first ++ xs.drop (last + 1))
  else throw (.rangeTooLong (last + 1) xs.length)

/-- The entry of a list at an index. -/
def entry {α : Type} (xs : List α) (index : Nat) : Edit α :=
  match xs[index]? with
  | some x => return x
  | none => throw (.outOfBounds index xs.length)

/-- Whether the operand at an index of a run is subtracted, by the operators between them. -/
def isSubtracted (ops : List Operator) : Nat → Edit Bool
  | 0 => return false
  | i + 1 => return (← entry ops i) = .subtract

/-- The term that the element at an index of a run is in a sum. -/
def sumTerm (ops : List Operator) (index : Nat) (h : Handle) : Edit Handle := do
  if ← isSubtracted ops index then Edit.negation h else return h

/-- The terms that the operands of a run are in a sum, where the first one has the given index. -/
def sumTerms (ops : List Operator) : Nat → List Operand → Edit (List Handle)
  | _, [] => return []
  | i, .zero :: rest => sumTerms ops (i + 1) rest
  | i, .element h :: rest => do
    let term ← sumTerm ops i h
    return term :: (← sumTerms ops (i + 1) rest)

namespace Reading

/-- Makes one element of the operands of a run and the operators between them. The span is that of the
whole expression. -/
def join (span : Span) (c : OperatorClass) (ops : List Operator) (run : List Operand) :
    Reading Handle := do
  match c with
  | .power => Edit.power (← (← entry run 0).handle) (← (← entry run 1).handle)
  | .quotient => Edit.fraction (← (← entry run 0).handle) (← (← entry run 1).handle)
  | .product =>
    let factors ← (run.mapM (·.handle) : Edit (List Handle))
    Edit.product factors
  | .sum =>
    let terms ← sumTerms ops 0 run
    if terms.isEmpty then throw ⟨.expectedExpression, span⟩
    Edit.sum terms

/-- The last operator that is reduced together with the one at index `first`. -/
def lastOfRun (c : OperatorClass) (ops : List Operator) (first : Nat) : Nat :=
  if c.joinsRuns then first + ((ops.drop first).takeWhile (·.opClass = c)).length - 1 else first

/-- Reduces the operators of a class, in fewer rounds than given. -/
def reduceClass (span : Span) (c : OperatorClass) : Nat → List Operand → List Operator →
    Reading (List Operand × List Operator)
  | 0, _, _ => fault .endlessText
  | rounds + 1, operands, ops =>
    match ops.findIdx? (·.opClass = c) with
    | none => return (operands, ops)
    | some first => do
      let last := lastOfRun c ops first
      let (runOps, ops) ← drain ops first last
      let (run, operands) ← drain operands first (last + 1)
      let result ← join span c runOps run
      reduceClass span c rounds (operands.insertIdx first (.element result)) ops

/-- Reduces the operators of the classes, one class after the other. -/
def reduceClasses (span : Span) : List OperatorClass → List Operand → List Operator →
    Reading (List Operand × List Operator)
  | [], operands, ops => return (operands, ops)
  | c :: classes, operands, ops => do
    let (operands, ops) ← reduceClass span c (ops.length + 1) operands ops
    reduceClasses span classes operands ops

/-- Reduces an expression to one element. -/
def reduce (span : Span) (operands : List Operand) (ops : List Operator) : Reading Handle := do
  let (operands, _) ← reduceClasses span OperatorClass.reductionOrder operands ops
  match operands with
  | [.element h] => return h
  | _ => fault (.operandsLeft operands.length)

end Reading

end AlgebraEditor.Formula
