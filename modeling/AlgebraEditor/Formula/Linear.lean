import AlgebraEditor.Arena.Basic

/-!
# Linear text

An element is written on one line with the fewest parentheses that keep its structure readable.
For `text` the result reads back as the same expression; for `display` exponents are meant to be
raised, and go without parentheses.
-/

namespace AlgebraEditor

/-- What an element is written for. -/
inductive Purpose where
  | text | display
  deriving DecidableEq

namespace Arena

/-- Whether a child goes without parentheses whatever it is: a negation in a sum is written as a
sign, and a raised exponent stands apart. -/
def standsApart (purpose : Purpose) (container : Element) (child : Handle) (kind : Kind) : Bool :=
  match container with
  | .sum _ => kind = .negation
  | .power _ exponent => purpose = .display ∧ exponent = child
  | _ => false

/-- Whether a child needs parentheses inside its parent, which is so if it does not bind more
tightly. -/
def needsParens (a : Arena) (parent child : Handle) (purpose : Purpose) : Except Fault Bool := do
  if (← a.parent child) ≠ some parent then throw (.notAChild child parent)
  let kind ← a.kind child
  let container ← a.element parent
  return !standsApart purpose container child kind &&
    decide (kind.precedence ≤ container.kind.precedence)

/-- The text of a child, which `write` gives, in parentheses if it needs them. -/
def bracketed (a : Arena) (purpose : Purpose) (write : Handle → Except Fault (List Char))
    (parent child : Handle) : Except Fault (List Char) := do
  let parens ← a.needsParens parent child purpose
  let text ← write child
  return if parens then '(' :: text ++ [')'] else text

/-- Terms with their signs, the sign of a later term set off by blanks. -/
def joinSigned : List (Bool × List Char) → List Char
  | [] => []
  | (negated, text) :: rest =>
    (if negated then ['-'] else []) ++ text ++ rest.flatMap fun (negated, text) =>
      [' ', if negated then '-' else '+', ' '] ++ text

/-- A term of a sum: whether it is subtracted, and its text without the sign. -/
def signedTerm (a : Arena) (slot : Handle → Handle → Except Fault (List Char)) (sum term : Handle) :
    Except Fault (Bool × List Char) := do
  match ← a.negated? term with
  | some inner => return (true, ← slot term inner)
  | none => return (false, ← slot sum term)

/-- The text of an element, down to the given depth. -/
def writeWithin (a : Arena) (purpose : Purpose) : Nat → Handle → Except Fault (List Char)
  | 0, h => throw (.endless h)
  | depth + 1, h => do
    let slot := a.bracketed purpose (writeWithin a purpose depth)
    match ← a.element h with
    | .symbol name => return name.toList
    | .integer value => return Nat.toDigits 10 value.toNat
    | .negation inner => return '-' :: (← slot h inner)
    | .fraction numerator denominator =>
      let n ← slot h numerator
      return n ++ '/' :: (← slot h denominator)
    | .power base exponent =>
      let b ← slot h base
      return b ++ '^' :: (← slot h exponent)
    | .product factors => return List.intercalate ['*'] (← factors.mapM (slot h))
    | .sum terms => return joinSigned (← terms.mapM (a.signedTerm slot h))
    | .root inner => slot h inner

/-- The text of an element for the given purpose. -/
def write (a : Arena) (purpose : Purpose) (h : Handle) : Except Fault (List Char) :=
  a.writeWithin purpose a.reach h

end Arena

end AlgebraEditor
