import AlgebraEditor.Arena.Basic
import AlgebraEditor.Term

/-!
# Reading terms off an arena

`term` is the expression that an element denotes, and `equal` compares what two elements, possibly
of different arenas, denote.
-/

namespace AlgebraEditor.Arena

/-- The term of an element, down to the given depth. -/
def readTerm (a : Arena) : Nat → Handle → Except Fault Term
  | 0, h => throw (.endless h)
  | depth + 1, h => do
    match ← a.element h with
    | .symbol name => return .symbol name
    | .integer value => return .integer value
    | .negation inner => return .negation (← readTerm a depth inner)
    | .fraction numerator denominator =>
      let n ← readTerm a depth numerator
      return .fraction n (← readTerm a depth denominator)
    | .power base exponent =>
      let b ← readTerm a depth base
      return .power b (← readTerm a depth exponent)
    | .product factors => return .product (← factors.mapM (readTerm a depth))
    | .sum terms => return .sum (← terms.mapM (readTerm a depth))
    | .root inner => return .root (← readTerm a depth inner)

/-- The term that an element denotes. -/
def term (a : Arena) (h : Handle) : Except Fault Term := a.readTerm a.reach h

/-- Whether two elements denote the same term, down to the given depth. Parts are compared from
the left, and only until two differ. -/
def equalWithin (a b : Arena) : Nat → Handle → Handle → Except Fault Bool
  | 0, h, _ => throw (.endless h)
  | depth + 1, x, y => do
    match ← a.element x, ← b.element y with
    | .symbol name, .symbol other => return name == other
    | .integer value, .integer other => return value == other
    | e, f =>
      if e.kind = f.kind ∧ e.children.length = f.children.length then
        (e.children.zip f.children).allM fun (c, d) => equalWithin a b depth c d
      else return false

/-- Whether an element of one arena denotes the same term as an element of another. -/
def equalAcross (a b : Arena) (x y : Handle) : Except Fault Bool :=
  equalWithin a b (a.reach + b.reach) x y

/-- Whether two elements denote the same term. -/
def equal (a : Arena) (x y : Handle) : Except Fault Bool := equalAcross a a x y

end AlgebraEditor.Arena
