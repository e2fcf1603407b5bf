import AlgebraEditor.Arena.Basic

/-!
# Auditing an arena

`audit` walks the arena from the root wrapper and checks ownership and list lengths. It ends on
every arena, because no element is visited twice.
-/

namespace AlgebraEditor.Arena

/-- Checks one element met on the walk, apart from its having been met before. -/
def auditElement (a : Arena) (h : Handle) (e : Element) : Except Fault Unit := do
  if e.kind = .root ∧ h ≠ a.root then throw (.rootInside h)
  if e.kind.isList ∧ e.children.length < 2 then
    throw (.listTooShort e.kind h e.children.length)
  e.children.forM fun child => do
    let recorded ← a.parent child
    if recorded ≠ some h then throw (.parentMismatch child h recorded)

/-- Visits the waiting elements, and what hangs below them, within the given number of steps. -/
def auditFrom (a : Arena) : Nat → List Handle → List Handle → Except Fault Unit
  | _, _, [] => return
  | 0, _, h :: _ => throw (.endless h)
  | steps + 1, seen, h :: waiting => do
    if h ∈ seen then throw (.reachedTwice h)
    let e ← a.element h
    auditElement a h e
    auditFrom a steps (h :: seen) (e.children.reverse ++ waiting)

/-- Checks that below the root every element is owned by the container that holds it, is held
once, and is neither a list of fewer than two children nor another root. -/
def audit (a : Arena) : Except Fault Unit := do
  if let some owner ← a.parent a.root then throw (.rootOwned owner)
  auditFrom a a.reach [] [a.root]

end AlgebraEditor.Arena
