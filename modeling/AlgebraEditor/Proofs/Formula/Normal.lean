import AlgebraEditor.Proofs.Formula.Scanning
import AlgebraEditor.Proofs.Term

/-!
# Normal terms

What is read off a text is normal: no wrapper, no list of fewer than two parts, and only symbols of
one letter. A chain of normal operands is reduced to a normal term.
-/

namespace AlgebraEditor

namespace Term

/-- What is asked of a term in normal form, apart from its parts. -/
structure NormalTop (t : Term) : Prop where
  unwrapped : t.kind ≠ .root
  filled : t.kind.isList = true → 2 ≤ t.children.length
  letter : ∀ name, t = .symbol name → ∃ c, name = String.ofList [c] ∧ Formula.IsLetter c

/-- Every list has at least two parts, and every symbol is one letter. -/
def IsNormal (t : Term) : Prop := t.All NormalTop

namespace IsNormal

variable {t u : Term} {ts : List Term}

theorem to_unwrapped (normal : t.IsNormal) : t.Unwrapped := normal.imp fun _ top => top.unwrapped

theorem of_children (inner : t.kind.isLeaf = false) (unwrapped : t.kind ≠ .root)
    (filled : t.kind.isList = true → 2 ≤ t.children.length)
    (parts : ∀ u ∈ t.children, u.IsNormal) : t.IsNormal :=
  .mk ⟨unwrapped, filled, fun name same => by rw [same] at inner; cases inner⟩ parts

theorem symbol {c : Char} (letter : Formula.IsLetter c) : IsNormal (.symbol (String.ofList [c])) :=
  .mk ⟨nofun, nofun, fun _ same => ⟨c, (Term.symbol.inj same).symm, letter⟩⟩ nofun

theorem integer (value : UInt64) : IsNormal (.integer value) :=
  .mk ⟨nofun, nofun, nofun⟩ nofun

theorem power (base : t.IsNormal) (exponent : u.IsNormal) : IsNormal (.power t u) :=
  of_children rfl nofun nofun (List.forall_mem_cons.mpr ⟨base, List.forall_mem_singleton.mpr exponent⟩)

theorem fraction (numerator : t.IsNormal) (denominator : u.IsNormal) : IsNormal (.fraction t u) :=
  of_children rfl nofun nofun
    (List.forall_mem_cons.mpr ⟨numerator, List.forall_mem_singleton.mpr denominator⟩)

theorem signed (normal : t.IsNormal) (negated : Bool) : (t.signed negated).IsNormal := by
  cases negated with
  | false => exact normal
  | true => exact of_children rfl nofun nofun (List.forall_mem_singleton.mpr normal)

theorem productOf (parts : ∀ u ∈ ts, u.IsNormal) : (Term.productOf ts).IsNormal := by
  match ts with
  | [] => exact integer 1
  | [only] => exact parts only List.mem_cons_self
  | t :: u :: ts => exact of_children rfl nofun (fun _ => Nat.le_add_left 2 ts.length) parts

theorem sumOf (parts : ∀ u ∈ ts, u.IsNormal) : (Term.sumOf ts).IsNormal := by
  match ts with
  | [] => exact integer 0
  | [only] => exact parts only List.mem_cons_self
  | t :: u :: ts => exact of_children rfl nofun (fun _ => Nat.le_add_left 2 ts.length) parts

end IsNormal

end Term

namespace Formula

/-- A token that is a letter has one character. -/
def Spelled (token : Token) : Prop :=
  token.kind = .letter → ∃ c, token.text = [c] ∧ IsLetter c

/-! ### Reduction -/

theorem normal_of_joinPairs (c : OperatorClass) {join : Term → Term → Term}
    (step : ∀ {t u : Term}, t.IsNormal → u.IsNormal → (join t u).IsNormal) {first : Term}
    {rest : List Item} (head : first.IsNormal) (tail : ∀ item ∈ rest, item.2.IsNormal) :
    (joinPairs c join first rest).1.IsNormal ∧
      ∀ item ∈ (joinPairs c join first rest).2, item.2.IsNormal := by
  induction rest generalizing first with
  | nil => exact ⟨head, nofun⟩
  | cons item rest ih =>
    obtain ⟨op, t⟩ := item
    obtain ⟨next, tail⟩ := List.forall_mem_cons.mp tail
    by_cases same : op.opClass = c
    · rw [joinPairs, if_pos same]
      exact ih (step head next) tail
    · rw [joinPairs, if_neg same]
      obtain ⟨joined, later⟩ := ih next tail
      exact ⟨head, List.forall_mem_cons.mpr ⟨joined, later⟩⟩

theorem normal_of_joinRuns (c : OperatorClass) {join : List Term → Term}
    (step : ∀ {ts : List Term}, (∀ t ∈ ts, t.IsNormal) → (join ts).IsNormal) {first : Term}
    {rest : List Item} (head : first.IsNormal) (tail : ∀ item ∈ rest, item.2.IsNormal) :
    (∀ t ∈ (joinRuns c join first rest).1, t.IsNormal) ∧
      ∀ item ∈ (joinRuns c join first rest).2, item.2.IsNormal := by
  induction rest generalizing first with
  | nil => exact ⟨fun t member => List.mem_singleton.mp member ▸ head, nofun⟩
  | cons item rest ih =>
    obtain ⟨op, t⟩ := item
    obtain ⟨next, tail⟩ := List.forall_mem_cons.mp tail
    obtain ⟨run, later⟩ := ih next tail
    by_cases same : op.opClass = c
    · rw [joinRuns]
      dsimp only
      rw [if_pos same]
      exact ⟨List.forall_mem_cons.mpr ⟨head, run⟩, later⟩
    · rw [joinRuns]
      dsimp only
      rw [if_neg same]
      exact ⟨fun t member => List.mem_singleton.mp member ▸ head,
        List.forall_mem_cons.mpr ⟨step run, later⟩⟩

theorem normal_of_reduce {items : List Item} (all : ∀ item ∈ items, item.2.IsNormal) :
    (reduce items).IsNormal := by
  match items with
  | [] => exact Term.IsNormal.integer 0
  | (sign, first) :: rest =>
    obtain ⟨head, tail⟩ := List.forall_mem_cons.mp all
    obtain ⟨base, rest₁⟩ := normal_of_joinPairs .power Term.IsNormal.power head tail
    obtain ⟨factor, rest₂⟩ := normal_of_joinPairs .quotient Term.IsNormal.fraction base rest₁
    obtain ⟨run, rest₃⟩ := normal_of_joinRuns .product Term.IsNormal.productOf factor rest₂
    refine .sumOf fun t member => ?_
    obtain ⟨item, inside, rfl⟩ := List.mem_map.mp member
    refine Term.IsNormal.signed ?_ _
    rcases List.mem_cons.mp inside with rfl | later
    · exact .productOf run
    · exact rest₃ item later

end Formula

end AlgebraEditor
