import AlgebraEditor.Proofs.Formula.Machine

/-!
# One step of the parser

What the parser does with a token depends on what it expects, on the kind of the token and on whether
a group is open. `Moves` says when it does what, and `moves_iff` that this is what `step` computes.
-/

namespace AlgebraEditor.Formula

namespace ParseState

variable {s : ParseState} {t : Token} {op : Operator} {outcome : Except ParseCause (Option ParseState)}

/-- The token is read as an operand behind the operator, or as the bracket that opens one. -/
inductive Takes (s : ParseState) (t : Token) : Operator → Prop where
  | sign : s.expecting = .sign → t.kind ≠ .plus → t.kind ≠ .minus → Takes s t .add
  | operand {op : Operator} : s.expecting = .operand op → Takes s t op
  | operator : s.expecting = .operator → t.kind.startsAtom = true → Takes s t .multiply

/-- What the parser does with a token. -/
inductive Moves (s : ParseState) (t : Token) : Except ParseCause (Option ParseState) → Prop where
  | plus : s.expecting = .sign → t.kind = .plus →
      Moves s t (.ok (some { s with expecting := .operand .add }))
  | minus : s.expecting = .sign → t.kind = .minus →
      Moves s t (.ok (some { s with expecting := .operand .subtract }))
  | operator {op : Operator} : s.expecting = .operator → Operator.ofToken? t.kind = some op →
      Moves s t (.ok (some { s with expecting := .operand op }))
  | operand {op : Operator} {next : ParseState} : Takes s t op → s.readOperand op t = .ok next →
      Moves s t (.ok (some next))
  | noOperand {op : Operator} {cause : ParseCause} : Takes s t op →
      s.readOperand op t = .error cause → Moves s t (.error cause)
  | close {around : Enclosing} {enclosing : List Enclosing} : s.expecting = .operator →
      t.kind = .closing → s.enclosing = around :: enclosing →
      Moves s t (.ok (some ⟨.operator, (around.op, s.reduced) :: around.items, enclosing⟩))
  | unclosed {around : Enclosing} {enclosing : List Enclosing} : s.expecting = .operator →
      t.kind = .blank → s.enclosing = around :: enclosing →
      Moves s t (.error (.unexpectedToken t.text))
  /-- Outside of every group the expression ends before the token. -/
  | halt : s.expecting = .operator → t.kind = .closing ∨ t.kind = .blank → s.enclosing = [] →
      Moves s t (.ok none)

theorem Takes.moves (takes : s.Takes t op) : s.Moves t (some <$> s.readOperand op t) := by
  cases read : s.readOperand op t with
  | error cause => exact .noOperand takes read
  | ok next => exact .operand takes read

theorem Takes.step_eq (takes : s.Takes t op) : s.step t = some <$> s.readOperand op t := by
  cases takes with
  | sign expecting plus minus =>
    unfold step
    rw [expecting]
    cases kind : t.kind with
    | plus => exact absurd kind plus
    | minus => exact absurd kind minus
    | _ => rfl
  | operand expecting => rw [step, expecting]
  | operator expecting starts =>
    have none : Operator.ofToken? t.kind = none := by
      cases kind : t.kind <;> simp [kind, TokenKind.startsAtom, Operator.ofToken?] at starts ⊢
    simp only [step, expecting, none, starts, if_true]

theorem moves_step (s : ParseState) (t : Token) : s.Moves t (s.step t) := by
  unfold step
  cases expecting : s.expecting with
  | sign =>
    cases kind : t.kind with
    | plus => exact .plus expecting kind
    | minus => exact .minus expecting kind
    | _ => exact (Takes.sign expecting (by rw [kind]; nofun) (by rw [kind]; nofun)).moves
  | operand op => exact (Takes.operand expecting).moves
  | operator =>
    cases kind : t.kind with
    | plus | minus | times | slash | caret => exact .operator expecting (by rw [kind]; rfl)
    | letter | number | opening => exact (Takes.operator expecting (by rw [kind]; rfl)).moves
    | closing =>
      cases enclosing : s.enclosing with
      | nil => exact .halt expecting (.inl kind) enclosing
      | cons around rest => exact .close expecting kind enclosing
    | blank =>
      cases enclosing : s.enclosing with
      | nil => exact .halt expecting (.inr kind) enclosing
      | cons around rest => exact .unclosed expecting kind enclosing

theorem moves_iff : s.Moves t outcome ↔ s.step t = outcome := by
  constructor
  · intro moves
    cases moves with
    | plus expecting kind | minus expecting kind | operator expecting kind =>
      simp only [step, expecting, kind]
    | operand takes read | noOperand takes read =>
      rw [takes.step_eq, read]
      rfl
    | close expecting kind enclosing | unclosed expecting kind enclosing =>
      simp [step, expecting, kind, enclosing, Operator.ofToken?, TokenKind.startsAtom]
    | halt expecting kind enclosing =>
      rcases kind with kind | kind <;>
        simp [step, expecting, kind, enclosing, Operator.ofToken?, TokenKind.startsAtom]
  · rintro rfl
    exact moves_step s t

end ParseState

end AlgebraEditor.Formula
