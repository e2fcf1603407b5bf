import AlgebraEditor.Proofs.Arena.Equality
import AlgebraEditor.Proofs.Formula.Blame
import AlgebraEditor.Proofs.Formula.Reading

/-!
# Texts that are read alike

Of a token the parser looks at the kind, and at the text if it is a letter or a number. So tokens that
differ in anything else are read as the same expression, or the same one of them is blamed.
-/

namespace AlgebraEditor

namespace Formula

variable {R : Token → Token → Prop} {E : ParseError → ParseError → Prop} {s next : ParseState}
  {t t' : Token} {ts ts' : List Token} {op : Operator} {cs ds : List Char}

/-! ### Like tokens -/

/-- What the parser looks at is the same in the two tokens. -/
structure Like (t t' : Token) : Prop where
  kind : t'.kind = t.kind
  text : t.kind = .letter ∨ t.kind = .number → t'.text = t.text

theorem Like.symm (like : Like t t') : Like t' t where
  kind := like.kind.symm
  text spelled := (like.text (like.kind ▸ spelled)).symm

namespace ParseState

theorem readOperand_like (like : Like t t') (read : s.readOperand op t = .ok next) :
    s.readOperand op t' = .ok next := by
  unfold readOperand at read ⊢
  rw [like.kind]
  cases kind : t.kind with
  | letter =>
    rw [kind] at read
    rw [like.text (.inl kind)]
    exact read
  | number =>
    rw [kind] at read
    rw [like.text (.inr kind)]
    exact read
  | opening =>
    rw [kind] at read
    exact read
  | blank | plus | minus | times | slash | caret | closing =>
    rw [kind] at read
    cases read

theorem Takes.like (like : Like t t') (takes : s.Takes t op) : s.Takes t' op := by
  cases takes with
  | sign expecting plus minus => exact .sign expecting (like.kind ▸ plus) (like.kind ▸ minus)
  | operand expecting => exact .operand expecting
  | operator expecting starts => exact .operator expecting (like.kind ▸ starts)

theorem step_like (like : Like t t') {after : Option ParseState} (read : s.step t = .ok after) :
    s.step t' = .ok after := by
  rw [← moves_iff] at read ⊢
  cases read with
  | plus expecting kind => exact .plus expecting (like.kind.trans kind)
  | minus expecting kind => exact .minus expecting (like.kind.trans kind)
  | operator expecting kind => exact .operator expecting (like.kind ▸ kind)
  | operand takes read => exact .operand (takes.like like) (readOperand_like like read)
  | close expecting kind enclosing => exact .close expecting (like.kind.trans kind) enclosing
  | halt expecting kind enclosing => exact .halt expecting (like.kind ▸ kind) enclosing

end ParseState

/-! ### Like outcomes -/

/-- The outcomes are the same but for the tokens in them, which are related one by one. -/
inductive Outcome.Alike (R : Token → Token → Prop) : Outcome → Outcome → Prop
  | parsed {u : Term} {rest rest' : List Token} : List.Forall₂ R rest rest' →
      Alike R (.parsed u rest) (.parsed u rest')
  | number {t t' : Token} : R t t' →
      Alike R (.failed .integerTooLarge (some t)) (.failed .integerTooLarge (some t'))
  | unexpected {t t' : Token} : R t t' →
      Alike R (.failed (.unexpectedToken t.text) (some t)) (.failed (.unexpectedToken t'.text) (some t'))
  | ended : Alike R (.failed .unexpectedEnd none) (.failed .unexpectedEnd none)

theorem ParseState.finish_alike (s : ParseState) : Outcome.Alike R s.finish s.finish := by
  unfold finish
  split
  · exact .parsed .nil
  · exact .ended

theorem ParseState.run_alike (like : ∀ {t t'}, R t t' → Like t t') (tokens : List.Forall₂ R ts ts')
    (s : ParseState) : Outcome.Alike R (s.run ts) (s.run ts') := by
  induction tokens generalizing s with
  | nil => exact s.finish_alike
  | @cons t t' ts ts' related rest ih =>
    rw [run, run]
    cases stepped : s.step t with
    | ok after =>
      rw [step_like (like related) stepped]
      cases after with
      | some next => exact ih next
      | none => exact .parsed (.cons related rest)
    | error cause =>
      cases stepped' : s.step t' with
      | ok after => cases (step_like (like related).symm stepped').symm.trans stepped
      | error cause' =>
        have kind := (like related).kind
        rcases step_eq_error stepped with ⟨number, rfl⟩ | ⟨other, rfl, -⟩
        all_goals rcases step_eq_error stepped' with ⟨number', rfl⟩ | ⟨other', rfl, -⟩
        · exact .number related
        · exact absurd (kind.trans number) other'
        · exact absurd (kind.symm.trans number') other
        · exact .unexpected related

/-! ### Agreement -/

/-- Both texts are the same expression, or both are refused, with related errors. -/
inductive Agree (E : ParseError → ParseError → Prop) :
    Except ParseError Term → Except ParseError Term → Prop
  | ok {t : Term} : Agree E (.ok t) (.ok t)
  | error {e e' : ParseError} : E e e' → Agree E (.error e) (.error e')

theorem parse_agree (read : tokenize cs = .ok ts) (read' : tokenize ds = .ok ts')
    (like : ∀ {t t'}, R t t' → Like t t') (tokens : List.Forall₂ R ts ts')
    (number : ∀ {t t'}, R t t' →
      E ⟨.integerTooLarge, ⟨t.start, t.stop⟩⟩ ⟨.integerTooLarge, ⟨t'.start, t'.stop⟩⟩)
    (unexpected : ∀ {t t'}, R t t' → E ⟨.unexpectedToken t.text, ⟨t.start, t.stop⟩⟩
      ⟨.unexpectedToken t'.text, ⟨t'.start, t'.stop⟩⟩)
    (extra : ∀ {t t'}, R t t' →
      E ⟨.expectedEnd, ⟨t.start, lastStop ts⟩⟩ ⟨.expectedEnd, ⟨t'.start, lastStop ts'⟩⟩)
    (ended : E ⟨.unexpectedEnd, ⟨lastStop ts, lastStop ts⟩⟩
      ⟨.unexpectedEnd, ⟨lastStop ts', lastStop ts'⟩⟩) : Agree E (parse cs) (parse ds) := by
  rw [parse_of_tokens read, parse_of_tokens read', parseTokens, parseTokens]
  have alike := ParseState.run_alike like tokens .initial
  generalize ParseState.initial.run ts = out, ParseState.initial.run ts' = out' at alike
  cases alike with
  | parsed rest =>
    cases rest with
    | nil => exact .ok
    | cons related _ => exact .error (extra related)
  | number related => exact .error (number related)
  | unexpected related => exact .error (unexpected related)
  | ended => exact .error ended

/-! ### Reading into arenas -/

/-- Read into any two arenas, the texts become equal expressions, or both are refused, with related
errors. -/
def ReadAlike (E : ParseError → ParseError → Prop) (cs ds : List Char) : Prop :=
  ∀ a b : Arena, a.WellFormed → b.WellFormed →
    (∃ h k a' b', (Edit.plantText cs).run a = .ok (.ok h) a' ∧
      (Edit.plantText ds).run b = .ok (.ok k) b' ∧ a'.equalAcross b' h k = .ok true) ∨
    ∃ e e' a' b', (Edit.plantText cs).run a = .ok (.error e) a' ∧
      (Edit.plantText ds).run b = .ok (.error e') b' ∧ E e e'

theorem Agree.readAlike (agree : Agree E (parse cs) (parse ds)) : ReadAlike E cs ds := by
  intro a b wf wf'
  generalize parsed : parse cs = out, parsed' : parse ds = out' at agree
  cases agree with
  | @ok t =>
    obtain ⟨x, a', run, adds⟩ := Edit.run_plantText_of_ok wf parsed
    obtain ⟨y, b', run', adds'⟩ := Edit.run_plantText_of_ok wf' parsed'
    obtain ⟨_, found, -⟩ := adds.top_stored (List.mem_singleton_self x)
    obtain ⟨_, found', -⟩ := adds'.top_stored (List.mem_singleton_self y)
    refine .inl ⟨x, y, a', b', run, run', (adds.wf.equalAcross_eq_true adds'.wf found found').mpr ?_⟩
    rw [adds.denote_top, adds'.denote_top]
  | error related =>
    obtain ⟨_, _, a', run, -⟩ := Edit.run_plantText_of_error wf parsed
    obtain ⟨_, _, b', run', -⟩ := Edit.run_plantText_of_error wf' parsed'
    exact .inr ⟨_, _, a', b', run, run', related⟩

end Formula

end AlgebraEditor
