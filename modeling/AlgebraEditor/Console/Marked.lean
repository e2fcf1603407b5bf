import AlgebraEditor.Formula.Linear

/-!
# Marked text

The expression is shown on one line with the selected elements in square brackets. Exponents that
are not leaves stand in braces instead of parentheses.
-/

namespace AlgebraEditor.Arena

/-- What marks the selected elements. -/
structure Marks where
  selected : List Handle

namespace Marks

/-- Whether the element alone is selected. -/
def isSingle (m : Marks) (h : Handle) : Bool := m.selected = [h]

/-- Whether a run of two or more selected elements starts with the element. -/
def opensRun (m : Marks) (h : Handle) : Bool := 1 < m.selected.length ∧ m.selected.head? = some h

/-- Whether a run of two or more selected elements ends with the element. -/
def closesRun (m : Marks) (h : Handle) : Bool :=
  1 < m.selected.length ∧ m.selected.getLast? = some h

/-- The text between the given characters, if asked. -/
def enclosed (asked : Bool) (opening closing : Char) (text : List Char) : List Char :=
  if asked then opening :: text ++ [closing] else text

/-- The text with the brackets of a run that starts or ends here. -/
def inRun (m : Marks) (h : Handle) (text : List Char) : List Char :=
  (if m.opensRun h then ['['] else []) ++ text ++ if m.closesRun h then [']'] else []

/-- A child with its parentheses, and around them its brackets if it alone is selected. -/
def slot (m : Marks) (a : Arena) (write : Handle → Except Fault (List Char))
    (parent child : Handle) : Except Fault (List Char) :=
  return enclosed (m.isSingle child) '[' ']' (← a.bracketed .display write parent child)

/-- An exponent, in braces unless it is a leaf. -/
def exponent (m : Marks) (a : Arena) (write : Handle → Except Fault (List Char))
    (power child : Handle) : Except Fault (List Char) := do
  let leaf := (← a.kind child).isLeaf
  return enclosed (!leaf) '\x7b' '\x7d' (← m.slot a write power child)

/-- A term of a sum: whether it is shown as subtracted, and its text without the sign. The sign of
a selected term, or of the first term of a selected run, stays inside the brackets. -/
def term (m : Marks) (a : Arena) (write : Handle → Except Fault (List Char)) (sum term : Handle) :
    Except Fault (Bool × List Char) := do
  match ← a.negated? term with
  | some inner =>
    if m.opensRun term || m.isSingle term then
      return (false, m.inRun term (← m.slot a write sum term))
    else return (true, m.inRun term (← m.slot a write term inner))
  | none => return (false, m.inRun term (← m.slot a write sum term))

/-- The marked text of an element, down to the given depth. -/
def writeWithin (m : Marks) (a : Arena) : Nat → Handle → Except Fault (List Char)
  | 0, h => throw (.endless h)
  | depth + 1, h => do
    let write := writeWithin m a depth
    match ← a.element h with
    | .symbol name => return name.toList
    | .integer value => return Nat.toDigits 10 value.toNat
    | .negation inner => return '-' :: (← m.slot a write h inner)
    | .fraction numerator denominator =>
      let n ← m.slot a write h numerator
      return n ++ '/' :: (← m.slot a write h denominator)
    | .power base exponent =>
      let b ← m.slot a write h base
      return b ++ '^' :: (← m.exponent a write h exponent)
    | .product factors =>
      let texts ← factors.mapM fun f => return m.inRun f (← m.slot a write h f)
      return List.intercalate ['*'] texts
    | .sum terms => return joinSigned (← terms.mapM (m.term a write h))
    | .root inner => m.slot a write h inner

end Marks

/-- The text of the whole expression with the selected elements marked. -/
def writeMarked (a : Arena) (selected : List Handle) : Except Fault (List Char) := do
  let m : Marks := ⟨selected⟩
  return Marks.enclosed (m.isSingle a.root) '[' ']' (← m.writeWithin a a.reach a.root)

end AlgebraEditor.Arena
