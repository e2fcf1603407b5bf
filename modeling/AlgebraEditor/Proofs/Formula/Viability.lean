import AlgebraEditor.Proofs.Formula.Derivation

/-!
# Viable prefixes

The parser accepts a token exactly as long as some expression starts with the tokens up to it. What
was accepted can always be completed: a missing operand is a letter, and every open group is closed
in turn. Behind a token that is not accepted nothing helps.
-/

namespace AlgebraEditor.Formula

open Grammar

/-- The tokens are an expression, and its numbers have 64 bits at most. -/
def IsExpression (ts : List Token) : Prop := ∃ t, Expression Atom ts t ∧ ∀ token ∈ ts, Fits token

theorem isExpression_iff {ts : List Token} :
    IsExpression ts ↔ ∃ t, ParseState.initial.run ts = .parsed t [] := by
  simp only [IsExpression, parsed_iff]

/-- The token is a single character of its kind. -/
def IsCharacter (token : Token) : Prop :=
  ∃ c, token.text = [c] ∧ TokenKind.ofChar? c = some token.kind

namespace ParseState

variable {s next : ParseState} {t : Token} {ts us before : List Token} {cause : ParseCause}

/-- The tokens are accepted one after the other, and lead from the one state to the other. -/
inductive Steps : ParseState → List Token → ParseState → Prop where
  | nil {s : ParseState} : Steps s [] s
  | cons {s next last : ParseState} {t : Token} {ts : List Token} : s.step t = .ok (some next) →
      Steps next ts last → Steps s (t :: ts) last

theorem Steps.run_append (steps : Steps s ts next) (more : List Token) :
    s.run (ts ++ more) = next.run more := by
  induction steps with
  | nil => rfl
  | cons accepted _ ih => rw [List.cons_append, run_cons accepted, ih]

theorem Steps.run_eq (steps : Steps s ts next) : s.run ts = next.run [] := by
  simpa using steps.run_append []

/-- Tokens are accepted up to one that is not, or up to the end. -/
theorem exists_stop (s : ParseState) (ts : List Token) : ∃ before after last,
    ts = before ++ after ∧ Steps s before last ∧
      ∀ t ∈ after.head?, ∀ next, last.step t ≠ .ok (some next) := by
  induction ts generalizing s with
  | nil => exact ⟨[], [], s, rfl, .nil, by simp⟩
  | cons t ts ih =>
    by_cases accepted : ∃ next, s.step t = .ok (some next)
    · obtain ⟨next, accepted⟩ := accepted
      obtain ⟨before, after, last, rfl, steps, stuck⟩ := ih next
      exact ⟨t :: before, after, last, rfl, .cons accepted steps, stuck⟩
    · refine ⟨[], t :: ts, s, rfl, .nil, ?_⟩
      simpa using accepted

/-! ### Completing what was accepted -/

/-- Closing every open group ends the expression. -/
theorem exists_closing (items : List Item) (enclosing : List Enclosing) : ∃ us t,
    (∀ token ∈ us, IsCharacter token) ∧
      (⟨.operator, items, enclosing⟩ : ParseState).run us = .parsed t [] := by
  induction enclosing generalizing items with
  | nil => exact ⟨[], _, by simp, rfl⟩
  | cons around enclosing ih =>
    obtain ⟨us, t, characters, run⟩ := ih ((around.op, reduce items.reverse) :: around.items)
    refine ⟨⟨.closing, [')'], 0⟩ :: us, t, ?_, ?_⟩
    · simpa using ⟨⟨')', rfl, by decide⟩, characters⟩
    · have closed : (⟨.operator, items, around :: enclosing⟩ : ParseState).step
          ⟨.closing, [')'], 0⟩ = .ok (some ⟨.operator,
            (around.op, reduce items.reverse) :: around.items, enclosing⟩) := rfl
      rw [run_cons closed, run]

theorem exists_completion (s : ParseState) : ∃ us t,
    (∀ token ∈ us, IsCharacter token) ∧ s.run us = .parsed t [] := by
  have letter : IsCharacter ⟨.letter, ['x'], 0⟩ := ⟨'x', rfl, by decide⟩
  obtain ⟨expecting, items, enclosing⟩ := s
  have operand : ∀ op, (⟨expecting, items, enclosing⟩ : ParseState).step ⟨.letter, ['x'], 0⟩ =
        .ok (some ⟨.operator, (op, .symbol "x") :: items, enclosing⟩) →
      ∃ us t, (∀ token ∈ us, IsCharacter token) ∧
        (⟨expecting, items, enclosing⟩ : ParseState).run us = .parsed t [] := by
    intro op accepted
    obtain ⟨us, t, characters, run⟩ := exists_closing ((op, .symbol "x") :: items) enclosing
    refine ⟨⟨.letter, ['x'], 0⟩ :: us, t, ?_, ?_⟩
    · simpa using ⟨letter, characters⟩
    · rw [run_cons accepted, run]
  cases expecting with
  | sign => exact operand .add rfl
  | operand op => exact operand op rfl
  | operator => exact exists_closing items enclosing

theorem Steps.viable (steps : Steps initial ts s) :
    ∃ us, (∀ token ∈ us, IsCharacter token) ∧ IsExpression (ts ++ us) := by
  obtain ⟨us, t, characters, run⟩ := s.exists_completion
  exact ⟨us, characters, isExpression_iff.mpr ⟨t, by rw [steps.run_append, run]⟩⟩

/-! ### Behind a token that is not accepted -/

theorem Steps.isExpression_iff (steps : Steps initial ts s) :
    IsExpression ts ↔ ∃ t, s.run [] = .parsed t [] := by
  rw [Formula.isExpression_iff, steps.run_eq]

theorem Steps.not_isExpression (steps : Steps initial ts s)
    (stuck : ∀ next, s.step t ≠ .ok (some next)) (us : List Token) :
    ¬ IsExpression (ts ++ t :: us) := by
  rw [Formula.isExpression_iff, steps.run_append, run]
  rintro ⟨u, parsed⟩
  split at parsed
  · exact stuck _ ‹_›
  · cases parsed
  · cases parsed

theorem readOperand_eq_error {op : Operator} (refused : s.readOperand op t = .error cause) :
    (t.kind = .number ∧ cause = .integerTooLarge) ∨
      (t.kind ≠ .number ∧ cause = .unexpectedToken t.text) := by
  unfold readOperand at refused
  split at refused
  · cases refused
  · rename_i kind
    dsimp only at refused
    split at refused
    · cases refused
    · cases refused
      exact .inl ⟨kind, rfl⟩
  · cases refused
  · rename_i other _
    cases refused
    exact .inr ⟨other, rfl⟩

/-- What is read as an operand may be a closing bracket only where no expression may end. -/
theorem Takes.not_parsed {op : Operator} (takes : s.Takes t op) (kind : t.kind = .closing)
    (u : Term) : s.run [] ≠ .parsed u [] := by
  cases takes with
  | sign expecting | operand expecting => simp [run, finish, expecting]
  | operator _ starts =>
    rw [kind] at starts
    cases starts

/-- Why a token is refused. Where an expression may end, a closing bracket is not refused. -/
theorem step_eq_error (refused : s.step t = .error cause) :
    (t.kind = .number ∧ cause = .integerTooLarge) ∨
      (t.kind ≠ .number ∧ cause = .unexpectedToken t.text ∧
        (t.kind = .closing → ∀ u, s.run [] ≠ .parsed u [])) := by
  cases moves_iff.mpr refused with
  | noOperand takes read =>
    exact (readOperand_eq_error read).imp_right fun ⟨kind, same⟩ => ⟨kind, same, takes.not_parsed⟩
  | unclosed _ kind _ => exact .inr ⟨by rw [kind]; nofun, rfl, by rw [kind]; nofun⟩

/-- Where an expression ends before a token, the tokens before it are one. -/
theorem step_eq_end (ends : s.step t = .ok none) :
    (∃ u, s.run [] = .parsed u [] ∧ ∀ us, s.run (t :: us) = .parsed u (t :: us)) ∧
      (t.kind = .closing ∨ t.kind = .blank) := by
  have next : ∀ us, s.run (t :: us) = .parsed s.reduced (t :: us) := fun us => by rw [run, ends]
  cases moves_iff.mpr ends with
  | halt expecting kind outermost =>
    exact ⟨⟨s.reduced, by simp [run, finish, expecting, outermost], next⟩, kind⟩

end ParseState

end AlgebraEditor.Formula
