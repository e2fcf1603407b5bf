import AlgebraEditor.Law.Basic

/-!
# The distributive law

Expanding distributes a product over the first sum among its factors: `a*(b + c)*d` becomes
`a*b*d + a*c*d`. A sign in front of a product or a sum goes to every resulting term.

Factoring pulls out the factors that terms of a sum have in common: `a*x + a*y` becomes
`(x + y)*a`. A factor counts as often as every term has it. If nothing is in common but all terms
are negated, the sign is pulled out.
-/

namespace AlgebraEditor.Law

/-! ### Expanding -/

/-- A product of copies of the factors, with a copy of `t` in the place of `sum`. -/
def copiedRow (factors : List Handle) (sum t : Handle) : Edit Handle := do
  Edit.product (← factors.mapM fun factor => Edit.copy (if factor = sum then t else factor))

/-- New terms that a product distributes into over its first sum, if there is a sum among its
factors. -/
def distributed? (product : Handle) : Edit (Option (List Handle)) := do
  let factors ← Edit.childrenOf product
  let some sum ← Edit.inspect (firstOfKind? · .sum factors) | return none
  return some (← (← Edit.childrenOf sum).mapM (copiedRow factors sum))

/-- New terms that take on a sign that stands in front of an element, if it has terms that can. -/
def signless? (inner : Handle) : Edit (Option (List Handle)) := do
  match ← Edit.kindOf inner with
  | .product => distributed? inner
  | .sum => return some (← (← Edit.childrenOf inner).mapM Edit.copy)
  | _ => return none

/-- New terms that an element expands to, if it expands. -/
def expanded? (h : Handle) : Edit (Option (List Handle)) := do
  match ← Edit.inspect (·.element h) with
  | .product _ => distributed? h
  | .negation inner =>
    let some terms ← signless? inner | return none
    return some (← terms.mapM Edit.negation)
  | _ => return none

/-- Puts the sum of what an element expands to in its place. -/
def expand : ElementRule := fun h => do
  let some parent ← Edit.parentOf h | return none
  let some terms ← expanded? h | return none
  let sum ← Edit.sum terms
  Edit.replace parent h sum
  return some [sum]

/-! ### Factoring -/

/-- A factor of a term, and whether it is pulled out. -/
structure TermFactor where
  handle : Handle
  pulled : Bool

/-- A term of a sum as a sign and factors. -/
structure SplitTerm where
  negated : Bool
  factors : List TermFactor

namespace SplitTerm

/-- Splits a term. What is not a product is its own single factor. -/
def ofHandle (a : Arena) (term : Handle) : Except Fault SplitTerm := do
  let inner ← a.negated? term
  let base := inner.getD term
  let factors ← match ← a.element base with
    | .product factors => pure factors
    | _ => pure [base]
  return ⟨inner.isSome, factors.map (⟨·, false⟩)⟩

/-- Marks the first factor that equals `factor` and is not pulled out yet, if there is one. -/
def pull? (a : Arena) (factor : Handle) : List TermFactor → Except Fault (Option (List TermFactor))
  | [] => return none
  | f :: rest => do
    if !f.pulled then
      if ← a.equal f.handle factor then return some (⟨f.handle, true⟩ :: rest)
    return (← pull? a factor rest).map (f :: ·)

/-- Marks a factor in every term, if every term has it. -/
def pullFromAll? (a : Arena) (factor : Handle) : List SplitTerm → Except Fault (Option (List SplitTerm))
  | [] => return some []
  | t :: rest => do
    let some factors ← pull? a factor t.factors | return none
    return (← pullFromAll? a factor rest).map ({ t with factors } :: ·)

/-- Goes through the factors of the first term and pulls out those that all other terms have too.
The answer holds the factors of the first term, marked, and the other terms. -/
def pullCommon (a : Arena) : List TermFactor → List SplitTerm →
    Except Fault (List TermFactor × List SplitTerm)
  | [], others => return ([], others)
  | f :: rest, others => do
    match ← pullFromAll? a f.handle others with
    | some others =>
      let (factors, others) ← pullCommon a rest others
      return (⟨f.handle, true⟩ :: factors, others)
    | none =>
      let (factors, others) ← pullCommon a rest others
      return (f :: factors, others)

/-- A product of copies of the factors that are not pulled out, with the sign of the term. -/
def remainder (t : SplitTerm) : Edit Handle := do
  let kept := t.factors.filter (!·.pulled)
  let product ← Edit.product (← kept.mapM (Edit.copy ·.handle))
  if t.negated then Edit.negation product else return product

end SplitTerm

/-- Splits terms and pulls out the factors that all of them have. -/
def split (a : Arena) (terms : List Handle) : Except Fault (List SplitTerm) := do
  match ← terms.mapM (SplitTerm.ofHandle a) with
  | [] => return []
  | first :: others =>
    let (factors, others) ← SplitTerm.pullCommon a first.factors others
    return { first with factors } :: others

/-- A new element that terms of a sum are factored into, if they have something in common. -/
def factored? (terms : List Handle) : Edit (Option Handle) := do
  let parts ← Edit.inspect (split · terms)
  let some first := parts.head? | return none
  let common := first.factors.filter (·.pulled)
  if !common.isEmpty then
    let rest ← Edit.sum (← parts.mapM SplitTerm.remainder)
    return some (← Edit.product (rest :: (← common.mapM (Edit.copy ·.handle))))
  if parts.all (·.negated) then
    let inners := (← Edit.inspect fun a => terms.mapM a.negated?).filterMap id
    return some (← Edit.negation (← Edit.sum (← inners.mapM Edit.copy)))
  return none

/-- Pulls out of two or more terms of a sum what they have in common. The result takes the place of
the first term, and the other terms are removed. -/
def factor : SiblingRule := fun parent terms => do
  if (← Edit.kindOf parent) ≠ .sum then return none
  if (← Edit.parentOf parent).isNone then return none
  match terms with
  | first :: second :: rest =>
    let some result ← factored? terms | return none
    Edit.replace parent first result
    let _ ← Edit.removeChildren parent (second :: rest)
    return some [result]
  | _ => return none

/-- Factors all terms of a sum. -/
def factorAllTerms : ElementRule := fun h => do
  if (← Edit.kindOf h) ≠ .sum then return none
  factor h (← Edit.childrenOf h)

end AlgebraEditor.Law
