import AlgebraEditor.Arena.Edit

/-!
# Rules

A rule applies a law of algebra to part of an expression. It changes the arena and answers with the
elements to select, or answers with nothing and has then changed nothing.
-/

namespace AlgebraEditor

/-- A rule for one element. -/
abbrev ElementRule := Handle → Edit (Option (List Handle))

/-- A rule for children of one parent, which is given first. -/
abbrev SiblingRule := Handle → List Handle → Edit (Option (List Handle))

namespace Law

/-- The first element of a kind. -/
def firstOfKind? (a : Arena) (kind : Kind) : List Handle → Except Fault (Option Handle)
  | [] => return none
  | h :: rest => do if (← a.kind h) = kind then return some h else firstOfKind? a kind rest

end Law

end AlgebraEditor
