import AlgebraEditor.Formula.Linear
import AlgebraEditor.Proofs.Arena.Denotation

/-!
# Linear text of terms

The text of an element is the text of the term that it denotes: where parentheses go depends on the
kinds of a part and of what it stands in, and not on handles.
-/

namespace AlgebraEditor

namespace Term

/-- The text of a part inside a container. -/
def enclosed (container part : Kind) (text : List Char) : List Char :=
  if part.precedence ≤ container.precedence then '(' :: text ++ [')'] else text

mutual

/-- The text of a term. -/
def write (purpose : Purpose) : Term → List Char
  | symbol name => name.toList
  | integer value => Nat.toDigits 10 value.toNat
  | negation inner => '-' :: enclosed .negation inner.kind (write purpose inner)
  | fraction numerator denominator =>
    enclosed .fraction numerator.kind (write purpose numerator) ++
      '/' :: enclosed .fraction denominator.kind (write purpose denominator)
  | power base exponent =>
    enclosed .power base.kind (write purpose base) ++ '^' ::
      if purpose = .display then write purpose exponent
      else enclosed .power exponent.kind (write purpose exponent)
  | product factors => List.intercalate ['*'] (writeFactors purpose factors)
  | sum terms => Arena.joinSigned (writeTerms purpose terms)
  | root inner => enclosed .root inner.kind (write purpose inner)

/-- The texts of the factors of a product. -/
def writeFactors (purpose : Purpose) : List Term → List (List Char)
  | [] => []
  | t :: ts => enclosed .product t.kind (write purpose t) :: writeFactors purpose ts

/-- The texts of the terms of a sum without their signs, and whether they are subtracted. -/
def writeTerms (purpose : Purpose) : List Term → List (Bool × List Char)
  | [] => []
  | negation inner :: ts =>
    (true, enclosed .negation inner.kind (write purpose inner)) :: writeTerms purpose ts
  | t :: ts => (false, enclosed .sum t.kind (write purpose t)) :: writeTerms purpose ts

end

/-- A term of a sum without its sign, and whether it is subtracted. -/
def writeSigned (purpose : Purpose) : Term → Bool × List Char
  | negation inner => (true, enclosed .negation inner.kind (inner.write purpose))
  | t => (false, enclosed .sum t.kind (t.write purpose))

theorem writeFactors_eq (purpose : Purpose) (ts : List Term) : writeFactors purpose ts =
    ts.map fun t => enclosed .product t.kind (t.write purpose) := by
  induction ts with
  | nil => rfl
  | cons t ts ih => rw [writeFactors, ih, List.map_cons]

theorem writeTerms_eq (purpose : Purpose) (ts : List Term) :
    writeTerms purpose ts = ts.map (writeSigned purpose) := by
  induction ts with
  | nil => rfl
  | cons t ts ih => cases t <;> simp [writeTerms, writeSigned, ih]

theorem writeSigned_of_ne {purpose : Purpose} {t : Term} (other : t.kind ≠ .negation) :
    t.writeSigned purpose = (false, enclosed .sum t.kind (t.write purpose)) := by
  cases t with
  | negation inner => exact absurd rfl other
  | _ => rfl

end Term

theorem Element.negated?_eq_some {e : Element} {x : Handle} :
    e.negated? = some x ↔ e = .negation x := by
  cases e <;> simp [negated?]

theorem Element.negated?_eq_none {e : Element} : e.negated? = none ↔ e.kind ≠ .negation := by
  cases e <;> simp [negated?, kind]

namespace Arena

variable {a : Arena} {h c : Handle} {n m : Node}

theorem standsApart_of_sum {e : Element} (sum : e.kind = .sum) (purpose : Purpose) (c : Handle)
    (kind : Kind) : standsApart purpose e c kind = decide (kind = .negation) := by
  cases e with
  | sum terms => rfl
  | _ => cases sum

theorem standsApart_of_product {e : Element} (product : e.kind = .product) (purpose : Purpose)
    (c : Handle) (kind : Kind) : standsApart purpose e c kind = false := by
  cases e with
  | product factors => rfl
  | _ => cases product

theorem needsParens_eq_ok (wf : a.WellFormed) (purpose : Purpose) (stored : a.get? h = some n)
    (held : a.get? c = some m) (member : c ∈ n.element.children) :
    a.needsParens h c purpose = .ok (!standsApart purpose n.element c m.element.kind &&
      decide (m.element.kind.precedence ≤ n.element.kind.precedence)) := by
  rw [needsParens, parent_eq_some.mpr (wf.records stored c member), ok_bind, if_neg (by simp),
    kind_of_get? held, element_of_get? stored]
  rfl

/-- A child is enclosed as its kind and that of its container ask for, unless it stands apart. -/
theorem bracketed_eq_ok (wf : a.WellFormed) {purpose : Purpose}
    {write : Handle → Except Fault (List Char)} {text : List Char} (stored : a.get? h = some n)
    (held : a.get? c = some m) (member : c ∈ n.element.children) (written : write c = .ok text)
    (inside : standsApart purpose n.element c m.element.kind = false) :
    a.bracketed purpose write h c = .ok (Term.enclosed n.element.kind m.element.kind text) := by
  rw [bracketed, needsParens_eq_ok wf purpose stored held member, ok_bind, written, ok_bind, inside,
    Term.enclosed]
  by_cases loose : m.element.kind.precedence ≤ n.element.kind.precedence <;>
    simp [loose, pure, Except.pure]

theorem bracketed_of_standsApart (wf : a.WellFormed) {purpose : Purpose}
    {write : Handle → Except Fault (List Char)} {text : List Char} (stored : a.get? h = some n)
    (held : a.get? c = some m) (member : c ∈ n.element.children) (written : write c = .ok text)
    (apart : standsApart purpose n.element c m.element.kind = true) :
    a.bracketed purpose write h c = .ok text := by
  rw [bracketed, needsParens_eq_ok wf purpose stored held member, ok_bind, written, ok_bind, apart]
  rfl

/-- A term of a sum is written with its sign apart. -/
theorem signedTerm_eq_ok (wf : a.WellFormed) {purpose : Purpose}
    {write : Handle → Except Fault (List Char)} (stored : a.get? h = some n)
    (sum : n.element.kind = .sum) (member : c ∈ n.element.children)
    (written : ∀ x, a.IsAbove h x → write x = .ok ((a.denote x).write purpose)) :
    a.signedTerm (a.bracketed purpose write) h c = .ok ((a.denote c).writeSigned purpose) := by
  obtain ⟨m, held⟩ := wf.stored_of_mem_children stored member
  have above := wf.isAbove_child stored member
  rw [signedTerm, negated?_of_get? held, ok_bind]
  cases inner : m.element.negated? with
  | none =>
    have other := Element.negated?_eq_none.mp inner
    have inside : standsApart purpose n.element c m.element.kind = false := by
      rw [standsApart_of_sum sum, decide_eq_false other]
    dsimp only
    rw [bracketed_eq_ok wf stored held member (written c above) inside,
      Term.writeSigned_of_ne (by rwa [kind_denote wf held]), kind_denote wf held, sum]
    rfl
  | some x =>
    have shape := Element.negated?_eq_some.mp inner
    have member' : x ∈ m.element.children := by rw [shape]; exact List.mem_singleton_self x
    obtain ⟨k, held'⟩ := wf.stored_of_mem_children held member'
    have below := above.trans (wf.isAbove_child held member')
    dsimp only
    rw [bracketed_eq_ok wf held held' member' (written x below) (by rw [shape]; rfl),
      wf.denote_eq held, shape, Element.toTerm, Term.writeSigned, kind_denote wf held']
    rfl

theorem WellFormed.exponent_ne_base (wf : a.WellFormed) {base exponent : Handle}
    (stored : a.get? h = some n) (power : n.element = .power base exponent) : exponent ≠ base := by
  have distinct := wf.distinct stored
  rw [power] at distinct
  rintro rfl
  simp [Element.children] at distinct

/-- Every stored element is written as the term that it denotes. -/
theorem WellFormed.writeWithin_eq_ok (wf : a.WellFormed) (stored : a.get? h = some n)
    (purpose : Purpose) {d : Nat} (enough : (a.below h).card < d) :
    a.writeWithin purpose d h = .ok ((a.denote h).write purpose) := by
  refine wf.depth_induction (motive := fun d h =>
    a.writeWithin purpose d h = .ok ((a.denote h).write purpose))
    (fun d h n stored written => ?_) stored enough
  have slot : ∀ c ∈ n.element.children,
      (∀ kind, standsApart purpose n.element c kind = false) →
      a.bracketed purpose (a.writeWithin purpose d) h c =
        .ok (Term.enclosed n.element.kind (a.denote c).kind ((a.denote c).write purpose)) := by
    intro c member inside
    obtain ⟨m, held⟩ := wf.stored_of_mem_children stored member
    rw [kind_denote wf held]
    exact bracketed_eq_ok wf stored held member (written c (wf.isAbove_child stored member))
      (inside _)
  rw [wf.denote_eq stored, writeWithin, element_of_get? stored, ok_bind]
  cases shape : n.element with
  | symbol | integer => rfl
  | negation inner | root inner =>
    simp only [shape, Element.children, List.forall_mem_singleton] at slot
    dsimp only
    rw [slot fun _ => rfl]
    rfl
  | fraction numerator denominator =>
    simp only [shape, Element.children, List.forall_mem_cons] at slot
    dsimp only
    rw [slot.1 fun _ => rfl, slot.2.1 fun _ => rfl]
    rfl
  | power base exponent =>
    have different := wf.exponent_ne_base stored shape
    have member : exponent ∈ n.element.children := by rw [shape]; simp [Element.children]
    simp only [shape, Element.children, List.forall_mem_cons] at slot
    dsimp only
    rw [slot.1 fun _ => by simp [standsApart, different], ok_bind, Element.toTerm, Term.write]
    by_cases raised : purpose = .display
    · obtain ⟨m, held⟩ := wf.stored_of_mem_children stored member
      rw [bracketed_of_standsApart wf stored held member
        (written exponent (wf.isAbove_child stored member)) (by simp [shape, standsApart, raised]),
        if_pos raised]
      rfl
    · rw [slot.2.1 fun _ => by simp [standsApart, raised], if_neg raised]
      rfl
  | product factors =>
    simp only [shape, Element.children] at slot
    dsimp only
    rw [mapM_eq_map fun c member => slot c member fun _ => rfl, Element.toTerm, Term.write,
      Term.writeFactors_eq, List.map_map]
    rfl
  | sum terms =>
    have parts : ∀ c ∈ terms, a.signedTerm (a.bracketed purpose (a.writeWithin purpose d)) h c =
        .ok ((a.denote c).writeSigned purpose) := fun c member =>
      signedTerm_eq_ok wf stored (by rw [shape]; rfl) (by rwa [shape]) written
    dsimp only
    rw [mapM_eq_map parts, Element.toTerm, Term.write, Term.writeTerms_eq, List.map_map]
    rfl

theorem WellFormed.write_eq_ok (wf : a.WellFormed) (stored : a.get? h = some n)
    (purpose : Purpose) : a.write purpose h = .ok ((a.denote h).write purpose) :=
  wf.writeWithin_eq_ok stored purpose (a.card_below_lt_reach h)

end Arena

end AlgebraEditor
