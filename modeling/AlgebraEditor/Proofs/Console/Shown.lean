import AlgebraEditor.Proofs.Console.Marked
import AlgebraEditor.Proofs.Formula.Linear

/-!
# Exponents in braces

Where nothing is marked, the console shows a term with braces around exponents. With parentheses in
their place this is the text of the term, and without them it is what is displayed.
-/

namespace AlgebraEditor

namespace Arena.Marks

/-- The parenthesis of the same side, for a brace. -/
def rounded (c : Char) : Char :=
  if c = '\x7b' then '(' else if c = '\x7d' then ')' else c

/-- Whether the character is no brace. -/
def isNoBrace (c : Char) : Bool := c ≠ '\x7b' ∧ c ≠ '\x7d'

end Arena.Marks

namespace Term

open Arena (joinSigned)
open Arena.Marks (rounded isNoBrace)

/-! ### What is shown -/

mutual

/-- The text of a term in which exponents stand in braces unless they are leaves. -/
def shown : Term → List Char
  | symbol name => name.toList
  | integer value => Nat.toDigits 10 value.toNat
  | negation inner => '-' :: enclosed .negation inner.kind (shown inner)
  | fraction numerator denominator =>
    enclosed .fraction numerator.kind (shown numerator) ++
      '/' :: enclosed .fraction denominator.kind (shown denominator)
  | power base exponent =>
    enclosed .power base.kind (shown base) ++ '^' ::
      Arena.Marks.enclosed (!exponent.kind.isLeaf) '\x7b' '\x7d' (shown exponent)
  | product factors => List.intercalate ['*'] (shownFactors factors)
  | sum terms => joinSigned (shownTerms terms)
  | root inner => enclosed .root inner.kind (shown inner)

/-- The factors of a product as they are shown. -/
def shownFactors : List Term → List (List Char)
  | [] => []
  | t :: ts => enclosed .product t.kind (shown t) :: shownFactors ts

/-- The terms of a sum as they are shown, without their signs, and whether they are subtracted. -/
def shownTerms : List Term → List (Bool × List Char)
  | [] => []
  | negation inner :: ts => (true, enclosed .negation inner.kind (shown inner)) :: shownTerms ts
  | t :: ts => (false, enclosed .sum t.kind (shown t)) :: shownTerms ts

end

/-- A term of a sum as it is shown, without its sign, and whether it is subtracted. -/
def shownSigned : Term → Bool × List Char
  | negation inner => (true, enclosed .negation inner.kind inner.shown)
  | t => (false, enclosed .sum t.kind t.shown)

theorem shownFactors_eq (ts : List Term) :
    shownFactors ts = ts.map fun t => enclosed .product t.kind t.shown := by
  induction ts with
  | nil => rfl
  | cons t ts ih => rw [shownFactors, ih, List.map_cons]

theorem shownTerms_eq (ts : List Term) : shownTerms ts = ts.map shownSigned := by
  induction ts with
  | nil => rfl
  | cons t ts ih => cases t <;> simp [shownTerms, shownSigned, ih]

theorem shownSigned_of_ne {t : Term} (other : t.kind ≠ .negation) :
    t.shownSigned = (false, enclosed .sum t.kind t.shown) := by
  cases t with
  | negation inner => exact absurd rfl other
  | _ => rfl

/-! ### How it begins -/

/-- What is asked of a term, apart from its parts, so that it shows as something that is read. -/
structure PlainTop (t : Term) : Prop where
  filled : t.kind.isList = true → t.children ≠ []
  letter : ∀ name, t = .symbol name → ∃ c, name = String.ofList [c] ∧ Formula.IsLetter c

/-- No list is empty, and every symbol is one letter. A wrapper may stand anywhere. -/
def IsPlain (t : Term) : Prop := t.All PlainTop

variable {t : Term} {ts : List Term} {cs : List Char}

theorem IsNormal.plain (normal : t.IsNormal) : t.IsPlain :=
  normal.imp fun _ top => ⟨fun list none => by simpa [none] using top.filled list, top.letter⟩

theorem IsPlain.root (plain : t.IsPlain) : IsPlain (.root t) :=
  .mk ⟨nofun, nofun⟩ (List.forall_mem_singleton.mpr plain)

/-- The text begins with a character that is no blank and no sign. -/
def Firm (cs : List Char) : Prop := ∃ c ds, cs = c :: ds ∧ c ≠ ' ' ∧ c ≠ '+' ∧ c ≠ '-'

/-- The text begins with no blank and no plus, and with a minus only if the term is a negation or a
sum. -/
def Begins (t : Term) : Prop := ∃ c cs, t.shown = c :: cs ∧ c ≠ ' ' ∧ c ≠ '+' ∧
  (c = '-' → t.kind.precedence ≤ .term)

theorem Begins.firm (begins : t.Begins) {container : Kind}
    (tight : Precedence.term ≤ container.precedence) :
    Firm (enclosed container t.kind t.shown) := by
  rw [enclosed]
  split
  case isTrue => exact ⟨'(', _, rfl, by decide, by decide, by decide⟩
  case isFalse tighter =>
    obtain ⟨c, cs, same, solid, plus, minus⟩ := begins
    exact ⟨c, cs, same, solid, plus, fun sign => tighter (Nat.le_trans (minus sign) tight)⟩

theorem Firm.append (firm : Firm cs) (ds : List Char) : Firm (cs ++ ds) := by
  obtain ⟨c, xs, rfl, other⟩ := firm
  exact ⟨c, xs ++ ds, rfl, other⟩

theorem Firm.begins (firm : Firm t.shown) : t.Begins := by
  obtain ⟨c, cs, same, solid, plus, minus⟩ := firm
  exact ⟨c, cs, same, solid, plus, fun sign => absurd sign minus⟩

theorem ne_of_isLetter {c d : Char} (letter : Formula.IsLetter c)
    (other : (d.isAlpha || d == '_') = false) : c ≠ d := by
  rintro rfl
  rw [Bool.or_eq_false_iff, beq_eq_false_iff_ne] at other
  rcases letter with alpha | low
  · cases alpha.symm.trans other.1
  · exact other.2 low

theorem ne_of_mem_toDigits {c d : Char} {value : Nat} (member : c ∈ Nat.toDigits 10 value)
    (other : d.isDigit = false) : c ≠ d := by
  have digit : c.isDigit = true := Nat.isDigit_of_mem_toDigits (by decide) (by decide) member
  rintro rfl
  cases digit.symm.trans other

theorem firm_of_letter {c : Char} (letter : Formula.IsLetter c) : Firm [c] :=
  ⟨c, [], rfl, ne_of_isLetter letter rfl, ne_of_isLetter letter rfl, ne_of_isLetter letter rfl⟩

theorem firm_toDigits (value : Nat) : Firm (Nat.toDigits 10 value) := by
  obtain ⟨c, cs, same⟩ := List.exists_cons_of_ne_nil (Nat.toDigits_ne_nil (b := 10) (n := value))
  have member : c ∈ Nat.toDigits 10 value := same ▸ List.mem_cons_self
  exact ⟨c, cs, same, ne_of_mem_toDigits member rfl, ne_of_mem_toDigits member rfl,
    ne_of_mem_toDigits member rfl⟩

/-- Every term of a sum begins firmly behind its sign. -/
theorem firm_signed (each : t.Begins) (inner : ∀ u ∈ t.children, u.Begins) :
    Firm t.shownSigned.2 := by
  by_cases negated : t.kind = .negation
  · cases t with
    | negation u => exact (inner u List.mem_cons_self).firm (by decide)
    | _ => cases negated
  · rw [shownSigned_of_ne negated]
    exact each.firm (by decide)

theorem IsPlain.begins (plain : t.IsPlain) : t.Begins := by
  suffices both : t.Begins ∧ ∀ u ∈ t.children, u.Begins from both.1
  induction t using Term.induction with
  | step t ih =>
    have parts : ∀ u ∈ t.children, u.Begins ∧ ∀ v ∈ u.children, v.Begins := fun u member =>
      ih u member (plain.child member)
    refine ⟨?_, fun u member => (parts u member).1⟩
    have filled := plain.self.filled
    cases t with
    | symbol name =>
      obtain ⟨c, rfl, letter⟩ := plain.self.letter name rfl
      apply Firm.begins
      rw [shown, String.toList_ofList]
      exact firm_of_letter letter
    | integer value => exact Firm.begins (firm_toDigits value.toNat)
    | negation inner => exact ⟨'-', _, rfl, by decide, by decide, fun _ => Nat.le_refl 1⟩
    | fraction numerator denominator =>
      exact Firm.begins (((parts numerator List.mem_cons_self).1.firm (by decide)).append _)
    | power base exponent =>
      exact Firm.begins (((parts base List.mem_cons_self).1.firm (by decide)).append _)
    | product factors =>
      obtain ⟨first, rest, rfl⟩ := List.exists_cons_of_ne_nil (filled rfl)
      apply Firm.begins
      rw [shown, shownFactors, Arena.Marks.intercalate_cons]
      exact ((parts first List.mem_cons_self).1.firm (by decide)).append _
    | sum terms =>
      obtain ⟨first, rest, rfl⟩ := List.exists_cons_of_ne_nil (filled rfl)
      obtain ⟨each, inner⟩ := parts first List.mem_cons_self
      have firm := firm_signed each inner
      rw [Begins, shown, shownTerms_eq, List.map_cons]
      cases same : first.shownSigned with
      | mk negated text =>
        rw [same] at firm
        cases negated with
        | true => exact ⟨'-', _, rfl, by decide, by decide, fun _ => Nat.le_refl 1⟩
        | false =>
          obtain ⟨c, cs, same, solid, plus, minus⟩ := firm.append _
          exact ⟨c, cs, same, solid, plus, fun sign => absurd sign minus⟩
    | root inner =>
      rw [Begins, shown, enclosed]
      split
      case isTrue => exact ⟨'(', _, rfl, by decide, by decide, fun sign => absurd sign (by decide)⟩
      case isFalse =>
        obtain ⟨c, cs, same, solid, plus, -⟩ := (parts inner List.mem_cons_self).1
        exact ⟨c, cs, same, solid, plus, fun _ => Nat.zero_le 1⟩

/-! ### Other exponents -/

section

variable {g : Char → List Char} {purpose : Purpose}
  (keeps : ∀ c, c ≠ '\x7b' → c ≠ '\x7d' → g c = [c])

include keeps

theorem flatMap_eq_self (other : ∀ c ∈ cs, c ≠ '\x7b' ∧ c ≠ '\x7d') : cs.flatMap g = cs := by
  induction cs with
  | nil => rfl
  | cons c cs ih =>
    obtain ⟨head, tail⟩ := List.forall_mem_cons.mp other
    rw [List.flatMap_cons, keeps c head.1 head.2, ih tail]
    rfl

theorem flatMap_enclosed (container part : Kind) (cs : List Char) :
    (enclosed container part cs).flatMap g = enclosed container part (cs.flatMap g) := by
  unfold enclosed
  split <;> simp [keeps]

theorem flatMap_intercalate (css : List (List Char)) :
    (List.intercalate ['*'] css).flatMap g = List.intercalate ['*'] (css.map (·.flatMap g)) := by
  cases css with
  | nil => rfl
  | cons cs css =>
    rw [List.map_cons, Arena.Marks.intercalate_cons, Arena.Marks.intercalate_cons]
    simp [List.flatMap_assoc, List.flatMap_map, keeps]

theorem flatMap_joinSigned (parts : List (Bool × List Char)) :
    (joinSigned parts).flatMap g = joinSigned (parts.map (Prod.map id (·.flatMap g))) := by
  have sign : ∀ negated : Bool, (if negated then ['-'] else []).flatMap g =
      if negated then ['-'] else [] := by
    intro negated
    cases negated <;> simp [keeps]
  have later : ∀ negated : Bool, [' ', if negated then '-' else '+', ' '].flatMap g =
      [' ', if negated then '-' else '+', ' '] := by
    intro negated
    cases negated <;> simp [keeps]
  cases parts with
  | nil => rfl
  | cons part parts =>
    rw [List.map_cons, joinSigned, joinSigned, List.flatMap_append, List.flatMap_append, sign,
      List.flatMap_assoc, List.flatMap_map]
    simp only [List.flatMap_append, later]
    rfl

theorem flatMap_signed (each : t.shown.flatMap g = t.write purpose) :
    Prod.map id (·.flatMap g) t.shownSigned = t.writeSigned purpose := by
  by_cases negated : t.kind = .negation
  · cases t with
    | negation inner =>
      rw [shown, write, List.flatMap_cons, keeps '-' (by decide) (by decide)] at each
      exact congrArg (Prod.mk true) (List.cons.inj each).2
    | _ => cases negated
  · rw [shownSigned_of_ne negated, writeSigned_of_ne negated, Prod.map, flatMap_enclosed keeps, each]
    rfl

/-- With other characters in the place of braces, what is shown is what is written, if exponents
become what they are for the purpose. -/
theorem flatMap_shown (plain : t.IsPlain)
    (raised : ∀ (kind : Kind) cs,
      (Arena.Marks.enclosed (!kind.isLeaf) '\x7b' '\x7d' cs).flatMap g =
        if purpose = .display then cs.flatMap g else enclosed .power kind (cs.flatMap g)) :
    t.shown.flatMap g = t.write purpose := by
  induction t using Term.induction with
  | step t ih =>
    have parts : ∀ u ∈ t.children, u.shown.flatMap g = u.write purpose := fun u member =>
      ih u member (plain.child member)
    cases t with
    | symbol name =>
      obtain ⟨c, rfl, letter⟩ := plain.self.letter name rfl
      rw [shown, write, String.toList_ofList]
      exact flatMap_eq_self keeps (List.forall_mem_singleton.mpr
        ⟨ne_of_isLetter letter rfl, ne_of_isLetter letter rfl⟩)
    | integer value =>
      exact flatMap_eq_self keeps fun c member =>
        ⟨ne_of_mem_toDigits member rfl, ne_of_mem_toDigits member rfl⟩
    | negation inner =>
      rw [shown, write, List.flatMap_cons, keeps '-' (by decide) (by decide),
        flatMap_enclosed keeps, parts inner List.mem_cons_self]
      rfl
    | fraction numerator denominator =>
      rw [shown, write, List.flatMap_append, List.flatMap_cons, keeps '/' (by decide) (by decide),
        flatMap_enclosed keeps, flatMap_enclosed keeps, parts numerator List.mem_cons_self,
        parts denominator (List.mem_cons_of_mem _ List.mem_cons_self)]
      rfl
    | power base exponent =>
      rw [shown, write, List.flatMap_append, List.flatMap_cons, keeps '^' (by decide) (by decide),
        flatMap_enclosed keeps, raised, parts base List.mem_cons_self,
        parts exponent (List.mem_cons_of_mem _ List.mem_cons_self)]
      rfl
    | product factors =>
      rw [shown, write, flatMap_intercalate keeps, shownFactors_eq, writeFactors_eq, List.map_map]
      congr 1
      refine List.map_congr_left fun u member => ?_
      exact (flatMap_enclosed keeps _ _ _).trans (congrArg _ (parts u member))
    | sum terms =>
      rw [shown, write, flatMap_joinSigned keeps, shownTerms_eq, writeTerms_eq, List.map_map]
      congr 1
      exact List.map_congr_left fun u member => flatMap_signed keeps (parts u member)
    | root inner =>
      rw [shown, write, flatMap_enclosed keeps, parts inner List.mem_cons_self]

end

/-! ### Text and display -/

theorem isLeaf_eq (kind : Kind) :
    kind.isLeaf = !decide (kind.precedence ≤ Kind.power.precedence) := by
  cases kind <;> decide

theorem map_rounded_shown (plain : t.IsPlain) : t.shown.map rounded = t.write .text := by
  rw [List.map_eq_flatMap]
  refine flatMap_shown (fun c opening closing => ?_) plain fun kind cs => ?_
  · rw [rounded, if_neg opening, if_neg closing]
  · rw [if_neg nofun, enclosed, isLeaf_eq]
    by_cases loose : kind.precedence ≤ Kind.power.precedence <;>
      simp [loose, Arena.Marks.enclosed, rounded]

theorem filter_shown (plain : t.IsPlain) : t.shown.filter isNoBrace = t.write .display := by
  have erases : ∀ cs : List Char,
      cs.filter isNoBrace = cs.flatMap fun c => if isNoBrace c then [c] else [] := by
    intro cs
    induction cs with
    | nil => rfl
    | cons c cs ih => cases kept : isNoBrace c <;> simp [kept, ih]
  rw [erases]
  refine flatMap_shown (fun c opening closing => ?_) plain fun kind cs => ?_
  · exact if_pos (decide_eq_true ⟨opening, closing⟩)
  · cases kind <;> simp [Arena.Marks.enclosed, Kind.isLeaf, isNoBrace]

end Term

end AlgebraEditor
