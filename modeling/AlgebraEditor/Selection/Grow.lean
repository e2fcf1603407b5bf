import AlgebraEditor.Selection.Basic

/-!
# Growing a selection

While a selection grows, one of its ends is an anchor that stays and the other end moves by one
sibling at a time. The ends are remembered together with the selection that the last step made, so
that any other change of the selection makes them forgotten.
-/

namespace AlgebraEditor

/-- The ends of a grown run, and the elements that were selected for it. -/
structure GrownRun where
  anchor : Handle
  moving : Handle
  selected : List Handle
  deriving DecidableEq

/-- Whether moves grow the selection, and the run they have grown. -/
structure Grow where
  active : Bool
  run : Option GrownRun
  deriving DecidableEq

namespace Grow

/-- Moves do not grow the selection. -/
def inactive : Grow := ⟨false, none⟩

/-- From now on moves grow the selection. -/
def begin (g : Grow) : Grow := { g with active := true }

/-- The anchor and the moving end of the next step. They are those of the last step, unless the
selection is another one by now. -/
def ends (g : Grow) (s : Selection) (d : Direction) : Handle × Handle :=
  let fresh := match d with
    | .previous => (s.last, s.first)
    | .next => (s.first, s.last)
  match g.run with
  | some run =>
    if run.selected = s.toList ∧ run.anchor ∈ run.selected then (run.anchor, run.moving) else fresh
  | none => fresh

/-- The elements from one position to another, in whatever order the two are given. -/
def between (siblings : List Handle) (i j : Nat) : List Handle :=
  (siblings.drop (min i j)).take (max i j - min i j + 1)

/-- Moves one sibling in a direction, which grows or shrinks the selection while growing is
active. -/
def step (g : Grow) (s : Selection) (a : Arena) (d : Direction) : Select (Grow × Selection) := do
  if !g.active then return (g, ← s.toSibling a d)
  let (anchor, moving) := g.ends s d
  let some moved ← Selection.sibling? a moving d | return (g, s)
  let siblings ← match ← a.parent moved with
    | some parent => a.children parent
    | none => pure []
  match siblings.idxOf? anchor, siblings.idxOf? moved with
  | some i, some j =>
    let grown ← Selection.resolve a (between siblings i j)
    return ({ g with run := some ⟨anchor, moved, grown.toList⟩ }, grown)
  | _, _ => throwThe Fault (.anchorElsewhere anchor moved)

end Grow

end AlgebraEditor
