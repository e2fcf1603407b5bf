import AlgebraEditor.Arena.Fault

/-!
# Arenas

An arena is a growing array of places. A place holds a node, or nothing once its element was swept
away; places are never used again, so a handle to a swept element stays stale. `get?` is the view
through which everything else is stated: `get?_push_self`, `get?_push_of_ne` and `get?_modify` say
what the two writes do to it.
-/

namespace AlgebraEditor

/-- An element together with the container that owns it. -/
structure Node where
  parent : Option Handle
  element : Element
  deriving DecidableEq

/-- Places for elements, one of which is the wrapper of the whole expression. -/
structure Arena where
  places : Array (Option Node)
  root : Handle

namespace Arena

/-- The arena of the expression `0`. -/
def zero : Arena where
  places := #[some ⟨none, .root ⟨1⟩⟩, some ⟨some ⟨0⟩, .integer 0⟩]
  root := ⟨0⟩

/-- The node at a handle, if one is stored there. -/
def get? (a : Arena) (h : Handle) : Option Node := a.places[h.index]?.join

/-- Whether an element is stored at the handle. -/
def contains (a : Arena) (h : Handle) : Bool := (a.get? h).isSome

/-- The number of stored elements, attached or not. -/
def size (a : Arena) : Nat := a.places.countP Option.isSome

/-- A number of steps that no walk along distinct places exceeds. -/
def reach (a : Arena) : Nat := a.places.size + 1

/-- The handle that the next new element gets. -/
def next (a : Arena) : Handle := ⟨a.places.size⟩

/-- The arena with one more place. -/
def push (a : Arena) (n : Node) : Arena := { a with places := a.places.push (some n) }

/-- The arena with the node at a handle changed. -/
def modify (a : Arena) (h : Handle) (f : Node → Node) : Arena :=
  { a with places := a.places.modify h.index (Option.map f) }

/-! ### Reading one element -/

/-- The node at a handle. -/
def node (a : Arena) (h : Handle) : Except Fault Node :=
  match a.get? h with
  | some n => .ok n
  | none => .error (.stale h)

/-- The element at a handle. -/
def element (a : Arena) (h : Handle) : Except Fault Element := return (← a.node h).element

/-- What the element at a handle is. -/
def kind (a : Arena) (h : Handle) : Except Fault Kind := return (← a.element h).kind

/-- The container that owns the element at a handle. -/
def parent (a : Arena) (h : Handle) : Except Fault (Option Handle) := return (← a.node h).parent

/-- The children of the element at a handle, in slot order. -/
def children (a : Arena) (h : Handle) : Except Fault (List Handle) :=
  return (← a.element h).children

/-- The position of a child among the children of `parent`. -/
def childIndex (a : Arena) (parent child : Handle) : Except Fault (Option Nat) :=
  return (← a.children parent).idxOf? child

/-- What the element at a handle negates, if it is a negation. -/
def negated? (a : Arena) (h : Handle) : Except Fault (Option Handle) :=
  return (← a.element h).negated?

/-- The expression inside the wrapper. -/
def content (a : Arena) : Except Fault Handle := do
  match ← a.element a.root with
  | .root inner => return inner
  | other => throw (.rootIsNot other.kind)

/-! ### What writing does to the view -/

theorem get?_next (a : Arena) : a.get? a.next = none := by
  simp [get?, next]

theorem get?_push_self (a : Arena) (n : Node) : (a.push n).get? a.next = some n := by
  simp [get?, push, next]

theorem get?_push_of_ne (a : Arena) (n : Node) {h : Handle} (ne : h ≠ a.next) :
    (a.push n).get? h = a.get? h := by
  have index : h.index ≠ a.places.size := fun same => ne (by cases h; simp_all [next])
  simp [get?, push, Array.getElem?_push, index]

theorem get?_modify (a : Arena) (h other : Handle) (f : Node → Node) :
    (a.modify h f).get? other = if other = h then (a.get? other).map f else a.get? other := by
  have same : other = h ↔ h.index = other.index := by
    cases h; cases other; simp [eq_comm]
  simp only [get?, modify, Array.getElem?_modify, same]
  split
  · cases a.places[other.index]? with
    | none => rfl
    | some place => cases place <;> rfl
  · rfl

theorem contains_iff {a : Arena} {h : Handle} : a.contains h = true ↔ ∃ n, a.get? h = some n := by
  simp [contains, Option.isSome_iff_exists]

theorem node_eq_ok {a : Arena} {h : Handle} {n : Node} : a.node h = .ok n ↔ a.get? h = some n := by
  unfold node
  split <;> simp_all

end Arena

end AlgebraEditor
