import AlgebraEditor.Proofs.Formula.Machine

/-!
# The grammar of expressions

Expressions come in strata: atoms, powers of atoms, fractions of powers, products of fractions, and
sums of products. Each stratum is a relation between tokens and what they denote. A bracket holds
an expression again, so the strata are stated over any notion of atom, and `Atom` ties the knot.
-/

namespace AlgebraEditor.Formula.Grammar

/-- The number that the digits of a token write. -/
def literal (t : Token) : Nat := Nat.ofDigitChars 10 t.text 0

/-- Whether the token, if it is a number, has 64 bits at most. -/
def Fits (t : Token) : Prop := t.kind = .number → literal t < UInt64.size

/-- The sign that a token writes, and whether it is negative. -/
inductive Sign : Token → Bool → Prop where
  | plus {t : Token} : t.kind = .plus → Sign t false
  | minus {t : Token} : t.kind = .minus → Sign t true

section Strata

variable (A : List Token → Term → Prop)

/-- Atoms with `^` between them, joined from the left. -/
inductive Power : List Token → Term → Prop where
  | atom {ts : List Token} {t : Term} : A ts t → Power ts t
  | raise {ts us : List Token} {b e : Term} {caret : Token} : Power ts b → caret.kind = .caret →
      A us e → Power (ts ++ caret :: us) (.power b e)

/-- Powers with `/` between them, joined from the left. -/
inductive Fraction : List Token → Term → Prop where
  | power {ts : List Token} {t : Term} : Power A ts t → Fraction ts t
  | divide {ts us : List Token} {n d : Term} {slash : Token} : Fraction ts n →
      slash.kind = .slash → Power A us d → Fraction (ts ++ slash :: us) (.fraction n d)

/-- Fractions with `*` between them. In front of a letter, a number or an opening bracket the `*` may
be left out. -/
inductive Factors : List Token → List Term → Prop where
  | last {ts : List Token} {t : Term} : Fraction A ts t → Factors ts [t]
  | times {ts us : List Token} {t : Term} {fs : List Term} {star : Token} : Fraction A ts t →
      star.kind = .times → Factors us fs → Factors (ts ++ star :: us) (t :: fs)
  | adjacent {ts us : List Token} {t : Term} {fs : List Term} {next : Token} : Fraction A ts t →
      next.kind.startsAtom = true → Factors (next :: us) fs → Factors (ts ++ next :: us) (t :: fs)

/-- Products with a sign in front of each. -/
inductive Terms : List Token → List Term → Prop where
  | nil : Terms [] []
  | cons {ts us : List Token} {fs rest : List Term} {sign : Token} {negated : Bool} :
      Sign sign negated → Factors A ts fs → Terms us rest →
      Terms (sign :: (ts ++ us)) ((Term.productOf fs).signed negated :: rest)

/-- The sum of one or more products. The first sign may be left out. -/
inductive Expression : List Token → Term → Prop where
  | unsigned {ts us : List Token} {fs rest : List Term} : Factors A ts fs → Terms A us rest →
      Expression (ts ++ us) (.sumOf (.productOf fs :: rest))
  | signed {ts : List Token} {first : Term} {rest : List Term} : Terms A ts (first :: rest) →
      Expression ts (.sumOf (first :: rest))

end Strata

/-- A letter, a number, or an expression in brackets of any style. -/
inductive Atom : List Token → Term → Prop where
  | letter {t : Token} : t.kind = .letter → Atom [t] (.symbol (String.ofList t.text))
  | number {t : Token} : t.kind = .number → Atom [t] (.integer (.ofNat (literal t)))
  | group {opening closing : Token} {ts : List Token} {t : Term} : opening.kind = .opening →
      Expression Atom ts t → closing.kind = .closing → Atom (opening :: (ts ++ [closing])) t

end AlgebraEditor.Formula.Grammar
