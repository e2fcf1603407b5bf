import AlgebraEditor.Proofs.Formula.Linear
import AlgebraEditor.Proofs.Formula.Reading

/-!
# Texts in the strata of the grammar

Parts that are spelled tightly enough spell what is put together from them. Brackets of any style
lift a text to an atom.
-/

namespace AlgebraEditor

namespace Formula

open Grammar Arena

/-- The stratum of the grammar in which terms of a precedence are written. -/
def Stratum (t : Term) (ts : List Token) : Precedence → Prop
  | .any | .term => Expression Atom ts t
  | .factor => ∃ fs, Factors Atom ts fs ∧ Term.productOf fs = t
  | .fraction => Fraction Atom ts t
  | .exponent => Power Atom ts t
  | .atom => Atom ts t

namespace Stratum

variable {t : Term} {ts : List Token} {p q : Precedence}

theorem factor_of_fraction (h : Fraction Atom ts t) : Stratum t ts .factor :=
  ⟨[t], .last h, rfl⟩

theorem expression_of_factor (h : Stratum t ts .factor) : Expression Atom ts t := by
  obtain ⟨fs, factors, rfl⟩ := h
  have unsigned := Expression.unsigned factors .nil
  rwa [List.append_nil] at unsigned

/-- What is written in a stratum is written in every looser one. -/
theorem looser (h : Stratum t ts q) (loose : p ≤ q) : Stratum t ts p := by
  have fraction_of_power : Power Atom ts t → Fraction Atom ts t := .power
  have power_of_atom : Atom ts t → Power Atom ts t := .atom
  cases q with
  | any => cases p <;> first | exact h | exact absurd loose (by decide)
  | term => cases p <;> first | exact h | exact absurd loose (by decide)
  | factor =>
    have expression := expression_of_factor h
    cases p <;> first | assumption | exact absurd loose (by decide)
  | fraction =>
    have factor := factor_of_fraction h
    have expression := expression_of_factor factor
    cases p <;> first | assumption | exact absurd loose (by decide)
  | exponent =>
    have fraction := fraction_of_power h
    have factor := factor_of_fraction fraction
    have expression := expression_of_factor factor
    cases p <;> first | assumption | exact absurd loose (by decide)
  | atom =>
    have power := power_of_atom h
    have fraction := fraction_of_power power
    have factor := factor_of_fraction fraction
    have expression := expression_of_factor factor
    cases p <;> assumption

end Stratum

variable {t u : Term} {ts : List Term} {p q : Precedence} {cs ds : List Char}
  {css : List (List Char)} {parts : List (Bool × List Char)}

/-- The text is spelled in a stratum of the grammar and denotes the term. -/
def Legible (t : Term) (p : Precedence) (cs : List Char) : Prop := Spells cs (Stratum t · p)

/-- The text is a term of a sum without its sign. -/
def LegibleSigned (t : Term) (part : Bool × List Char) : Prop :=
  Spells part.2 fun ts => ∃ fs, Factors Atom ts fs ∧ (Term.productOf fs).signed part.1 = t

/-- The text, with its sign, can be the first term of a sum. -/
def Begins (t : Term) (cs : List Char) : Prop :=
  Spells cs fun us => ∀ vs rest, Terms Atom vs rest → Expression Atom (us ++ vs) (.sumOf (t :: rest))

namespace Legible

theorem looser (legible : Legible t q cs) (loose : p ≤ q) : Legible t p cs :=
  legible.imp fun _ inside => inside.looser loose

theorem parse (legible : Legible t p cs) : parse cs = .ok t := by
  obtain ⟨tokens, inside, fits, read⟩ := legible.tokenize
  have expression : Stratum t tokens .any := inside.looser (by cases p <;> decide)
  exact parse_eq_ok.mpr ⟨tokens, read, expression, fits⟩

/-! ### Brackets -/

theorem group {o c : Char} (legible : Legible t p cs) (opens : TokenKind.ofChar? o = some .opening)
    (closes : TokenKind.ofChar? c = some .closing) : Legible t .atom (o :: (cs ++ [c])) := by
  have apart : ∀ d ∈ [c].head?, d.isDigit = false := by
    intro d same
    cases same
    by_contra digit
    rw [ofChar?_of_isDigit (by simpa using digit)] at closes
    cases closes
  have closing : Spells [c] _ := Spells.cons c .closing closes (by rfl) .nil
  have group := (Spells.append legible closing apart).cons o .opening opens (by rfl)
  refine group.imp ?_
  rintro _ ⟨opening, _, rfl, opens, _, us, _, rfl, inside, closing, _, rfl, closes, _, rfl⟩
  have expression : Stratum t us .any := inside.looser (by cases p <;> decide)
  exact Atom.group opens expression closes

/-- In parentheses where its container asks for them, a part is written as tightly as the container
needs it. -/
theorem enclosed (legible : Legible t t.kind.precedence cs) (container : Kind) (p : Precedence)
    (tighter : ∀ kind : Kind, ¬ kind.precedence ≤ container.precedence → p ≤ kind.precedence) :
    Legible t p (Term.enclosed container t.kind cs) := by
  rw [Term.enclosed]
  split
  · have group := legible.group (o := '(') (c := ')') (by rfl) (by rfl)
    exact group.looser (by cases p <;> decide)
  · rename_i tight
    exact legible.looser (tighter _ tight)

/-! ### Elements with slots -/

theorem symbol {c : Char} (letter : IsLetter c) : Legible (.symbol (String.ofList [c])) .atom [c] := by
  have spells := Spells.cons _ _ (ofChar?_eq_letter.mpr letter) (by rfl) .nil
  refine spells.imp ?_
  rintro _ ⟨token, _, rfl, kind, text, rfl⟩
  have atom := Atom.letter kind
  rwa [text] at atom

theorem integer (value : UInt64) : Legible (.integer value) .atom (Nat.toDigits 10 value.toNat) := by
  have same : Nat.ofDigitChars 10 (Nat.toDigits 10 value.toNat) 0 = value.toNat :=
    Nat.ofDigitChars_ten_toDigits
  have spells := Spells.digits (Nat.toDigits 10 value.toNat)
    Nat.toDigits_ne_nil (fun _ => Nat.isDigit_of_mem_toDigits (by decide) (by decide))
    (by rw [same]; exact value.toNat_lt)
  refine spells.imp ?_
  rintro _ ⟨token, rfl, kind, text⟩
  have atom := Atom.number kind
  rwa [literal, text, same, UInt64.ofNat_toNat] at atom

theorem negation (inner : Legible t .factor cs) : Legible (.negation t) .term ('-' :: cs) := by
  refine (Spells.cons '-' .minus (by rfl) (by rfl) inner).imp ?_
  rintro _ ⟨minus, us, rfl, sign, _, fs, factors, rfl⟩
  have signed := Expression.signed (.cons (.minus sign) factors .nil)
  rwa [List.append_nil] at signed

theorem fraction (numerator : Legible t .exponent cs) (denominator : Legible u .exponent ds) :
    Legible (.fraction t u) .fraction (cs ++ '/' :: ds) := by
  refine (Spells.infixed numerator '/' .slash (by rfl) (by rfl) denominator).imp ?_
  rintro _ ⟨us, slash, vs, rfl, above, same, under⟩
  exact .divide (.power above) same under

theorem power (base : Legible t .atom cs) (exponent : Legible u .atom ds) :
    Legible (.power t u) .exponent (cs ++ '^' :: ds) := by
  refine (Spells.infixed base '^' .caret (by rfl) (by rfl) exponent).imp ?_
  rintro _ ⟨us, caret, vs, rfl, below, same, raised⟩
  exact .raise (.atom below) same raised

/-! ### Products -/

/-- Factors with `*` between them are spelled as factors. -/
theorem factors (some : ts ≠ []) (legible : List.Forall₂ (Legible · .fraction) ts css) :
    Spells (List.intercalate ['*'] css) (Factors Atom · ts) := by
  induction legible with
  | nil => exact absurd rfl some
  | @cons t cs ts css first rest ih =>
    cases rest with
    | nil =>
      have last := first.imp fun us (inside : Fraction Atom us t) => Factors.last inside
      simpa [List.intercalate] using last
    | @cons u ds ts css second rest =>
      have infixed := Spells.infixed first '*' .times (by rfl) (by rfl) (ih (List.cons_ne_nil u ts))
      refine Spells.imp (Q := fun tokens => ∃ vs star ws, tokens = vs ++ star :: ws ∧
        Stratum t vs .fraction ∧ star.kind = .times ∧ Factors Atom ws (u :: ts)) ?_ ?_
      · simpa [List.intercalate, List.intersperse] using infixed
      · rintro _ ⟨vs, star, ws, rfl, first, same, rest⟩
        exact .times first same rest

theorem product (several : 2 ≤ ts.length) (legible : List.Forall₂ (Legible · .fraction) ts css) :
    Legible (.product ts) .factor (List.intercalate ['*'] css) := by
  match ts with
  | t :: u :: ts => exact (factors (List.cons_ne_nil _ _) legible).imp fun us inside => ⟨_, inside, rfl⟩

end Legible

/-! ### Sums -/

namespace LegibleSigned

theorem of_factor (legible : Legible t .factor cs) : LegibleSigned t (false, cs) :=
  legible.imp fun _ inside => inside

theorem negation (inner : Legible t .factor cs) : LegibleSigned (.negation t) (true, cs) := by
  refine inner.imp ?_
  rintro _ ⟨fs, factors, rfl⟩
  exact ⟨fs, factors, rfl⟩

/-- Later terms of a sum, each with its sign set off by blanks. -/
theorem terms (legible : List.Forall₂ LegibleSigned ts parts) :
    Spells (parts.flatMap fun (negated, text) => [' ', if negated then '-' else '+', ' '] ++ text)
      (Terms Atom · ts) := by
  induction legible with
  | nil => exact Spells.nil.imp fun _ same => by rw [same]; exact .nil
  | @cons t part ts parts first _ ih =>
    have text := Spells.append first ih (by cases parts <;> simp)
    obtain ⟨negated, cs⟩ := part
    rw [List.flatMap_cons]
    cases negated with
    | false =>
      refine ((text.blank.cons '+' .plus (by rfl) (by rfl)).blank).imp ?_
      rintro _ ⟨plus, _, rfl, kind, _, us, vs, rfl, ⟨fs, factors, same⟩, rest⟩
      rw [← same]
      exact .cons (.plus kind) factors rest
    | true =>
      refine ((text.blank.cons '-' .minus (by rfl) (by rfl)).blank).imp ?_
      rintro _ ⟨minus, _, rfl, kind, _, us, vs, rfl, ⟨fs, factors, same⟩, rest⟩
      rw [← same]
      exact .cons (.minus kind) factors rest

end LegibleSigned

namespace Begins

theorem of_signed {negated : Bool} (legible : LegibleSigned t (negated, cs)) :
    Begins t ((if negated then ['-'] else []) ++ cs) := by
  cases negated with
  | false =>
    refine legible.imp ?_
    rintro us ⟨fs, factors, rfl⟩ vs rest later
    exact .unsigned factors later
  | true =>
    refine (Spells.cons '-' .minus (by rfl) (by rfl) legible).imp ?_
    rintro _ ⟨minus, us, rfl, kind, _, fs, factors, rfl⟩ vs rest later
    exact .signed (.cons (.minus kind) factors later)

/-- An expression that is not a sum is a single term. -/
theorem of_expression (legible : Legible t .term cs) (other : t.kind ≠ .sum) : Begins t cs := by
  refine legible.imp fun us expression vs rest later => ?_
  have expression : Expression Atom us t := expression
  cases expression with
  | @unsigned ts us fs others factors more =>
    cases more with
    | nil =>
      rw [List.append_nil]
      exact .unsigned factors later
    | cons _ _ _ => exact absurd rfl other
  | @signed us first others terms =>
    cases terms with
    | @cons ts us fs _ sign negated isSign factors more =>
      cases more with
      | nil =>
        rw [List.append_nil]
        exact .signed (.cons isSign factors later)
      | cons _ _ _ => exact absurd rfl other

theorem sum (begins : Begins t cs) (several : ts ≠ []) (later : List.Forall₂ LegibleSigned ts parts) :
    Legible (.sum (t :: ts)) .term
      (cs ++ parts.flatMap fun (negated, text) => [' ', if negated then '-' else '+', ' '] ++ text) := by
  refine (Spells.append begins (LegibleSigned.terms later) (by cases parts <;> simp)).imp ?_
  rintro _ ⟨us, vs, rfl, first, rest⟩
  have expression := first vs ts rest
  match ts with
  | u :: ts => exact expression

end Begins

theorem Legible.sum (several : 2 ≤ ts.length) (legible : List.Forall₂ LegibleSigned ts parts) :
    Legible (.sum ts) .term (joinSigned parts) := by
  cases legible with
  | nil => cases several
  | @cons t part ts parts first rest =>
    have more : ts ≠ [] := by
      rintro rfl
      cases several
      contradiction
    exact (Begins.of_signed first).sum more rest

end Formula

end AlgebraEditor
