import AlgebraEditor.Kind

/-!
# Elements

A handle names one place in an arena for ever: two handles are equal only if they name the same
place. An element refers to its children by their handles, in the order of its slots.
-/

namespace AlgebraEditor

/-- The name of a place in an arena. -/
structure Handle where
  index : Nat
  deriving DecidableEq

/-- What a place holds. Children are the places that the slots refer to. -/
inductive Element where
  | symbol (name : String)
  | integer (value : UInt64)
  | negation (inner : Handle)
  | fraction (numerator denominator : Handle)
  | power (base exponent : Handle)
  | product (factors : List Handle)
  | sum (terms : List Handle)
  | root (inner : Handle)
  deriving DecidableEq

namespace Element

/-- The element without its contents. -/
def kind : Element → Kind
  | symbol _ => .symbol
  | integer _ => .integer
  | negation _ => .negation
  | fraction _ _ => .fraction
  | power _ _ => .power
  | product _ => .product
  | sum _ => .sum
  | root _ => .root

/-- The children, in slot order. -/
def children : Element → List Handle
  | symbol _ | integer _ => []
  | negation inner | root inner => [inner]
  | fraction numerator denominator => [numerator, denominator]
  | power base exponent => [base, exponent]
  | product factors => factors
  | sum terms => terms

/-- What is negated, if the element is a negation. -/
def negated? : Element → Option Handle
  | negation inner => some inner
  | _ => none

/-- The element with `new` in the first slot that holds `old`. -/
def replaceChild (old new : Handle) : Element → Element
  | symbol name => symbol name
  | integer value => integer value
  | negation inner => negation (if inner = old then new else inner)
  | fraction numerator denominator =>
    if numerator = old then fraction new denominator
    else fraction numerator (if denominator = old then new else denominator)
  | power base exponent =>
    if base = old then power new exponent
    else power base (if exponent = old then new else exponent)
  | product factors => product (factors.replace old new)
  | sum terms => sum (terms.replace old new)
  | root inner => root (if inner = old then new else inner)

/-- The element with its list changed. Elements that are not lists stay as they are. -/
def modifyList (f : List Handle → List Handle) : Element → Element
  | product factors => product (f factors)
  | sum terms => sum (f terms)
  | e => e

@[simp] theorem kind_replaceChild (old new : Handle) (e : Element) :
    (e.replaceChild old new).kind = e.kind := by
  cases e <;> grind [replaceChild, kind]

@[simp] theorem kind_modifyList (f : List Handle → List Handle) (e : Element) :
    (e.modifyList f).kind = e.kind := by
  cases e <;> rfl

theorem kind_eq_negation {e : Element} : e.kind = .negation ↔ ∃ inner, e = .negation inner := by
  cases e <;> simp [kind]

theorem kind_eq_sum {e : Element} : e.kind = .sum ↔ ∃ terms, e = .sum terms := by
  cases e <;> simp [kind]

theorem children_modifyList (f : List Handle → List Handle) {e : Element}
    (list : e.kind.isList = true) : (e.modifyList f).children = f e.children := by
  cases e <;> simp_all [modifyList, children, kind, Kind.isList]

theorem children_replaceChild (old new : Handle) (e : Element) :
    (e.replaceChild old new).children = e.children.replace old new := by
  cases e <;> grind [replaceChild, children]

end Element

end AlgebraEditor
