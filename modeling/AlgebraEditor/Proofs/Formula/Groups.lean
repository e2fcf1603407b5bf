import AlgebraEditor.Proofs.Formula.Stepping
import AlgebraEditor.Proofs.Outcome

/-!
# Reading groups

What stands in brackets is read as an expression of its own, and where that expression ends, reading
goes on in the group around it. So an atom is read as a whole: either it is an error, whatever the
operands before it are, or it is one more operand.
-/

namespace AlgebraEditor.Formula

namespace ParseState

variable {s next : ParseState} {t : Token} {op : Operator} {cause : ParseCause} {items : List Item}
  {around : Enclosing} {outer : List Enclosing}

/-- The state where the groups that are being read lie in further ones. -/
def within (s : ParseState) (outer : List Enclosing) : ParseState :=
  { s with enclosing := s.enclosing ++ outer }

theorem readOperand_within (s : ParseState) (op : Operator) (t : Token) (outer : List Enclosing) :
    (s.within outer).readOperand op t = (s.readOperand op t).map (·.within outer) := by
  unfold readOperand
  cases t.kind with
  | number =>
    dsimp only
    split <;> rfl
  | _ => rfl

theorem Takes.within (takes : s.Takes t op) (outer : List Enclosing) :
    (s.within outer).Takes t op := by
  cases takes with
  | sign expecting plus minus => exact .sign expecting plus minus
  | operand expecting => exact .operand expecting
  | operator expecting starts => exact .operator expecting starts

/-- Groups further out make no difference as long as the expression goes on. -/
theorem step_within_of_next (stepped : s.step t = .ok (some next)) (outer : List Enclosing) :
    (s.within outer).step t = .ok (some (next.within outer)) := by
  rw [← moves_iff] at stepped ⊢
  cases stepped with
  | plus expecting kind => exact .plus expecting kind
  | minus expecting kind => exact .minus expecting kind
  | operator expecting kind => exact .operator expecting kind
  | operand takes read =>
    refine .operand (takes.within outer) ?_
    rw [readOperand_within, read]
    rfl
  | close expecting kind enclosing =>
    refine .close expecting kind ?_
    rw [within, enclosing, List.cons_append]

theorem step_within_of_error (stepped : s.step t = .error cause) (outer : List Enclosing) :
    (s.within outer).step t = .error cause := by
  rw [← moves_iff] at stepped ⊢
  cases stepped with
  | noOperand takes read =>
    refine .noOperand (takes.within outer) ?_
    rw [readOperand_within, read]
    rfl
  | @unclosed around enclosing expecting kind outermost =>
    have outermost' : (s.within outer).enclosing = around :: (enclosing ++ outer) := by
      rw [within, outermost, List.cons_append]
    exact .unclosed expecting kind outermost'

end ParseState

/-- What comes of a text in which the group inside is read up to the given tokens. -/
def Enclosing.resume (around : Enclosing) (outer : List Enclosing) (t : Term) : List Token → Outcome
  | [] => .failed .unexpectedEnd none
  | token :: rest =>
    if token.kind = .closing then
      (⟨.operator, (around.op, t) :: around.items, outer⟩ : ParseState).run rest
    else .failed (.unexpectedToken token.text) (some token)

namespace ParseState

variable {s : ParseState} {op : Operator} {items : List Item}

/-- An expression in a group is read as it is outside of groups, and then the group is closed. -/
theorem run_within (s : ParseState) (around : Enclosing) (outer : List Enclosing)
    (tokens : List Token) : (s.within (around :: outer)).run tokens =
      match s.run tokens with
      | .parsed t rest => around.resume outer t rest
      | .failed cause blamed => .failed cause blamed := by
  induction tokens generalizing s with
  | nil =>
    have unclosed : (s.within (around :: outer)).finish = .failed .unexpectedEnd none := by
      rw [finish, if_neg (by simp [within])]
    rw [run, run, unclosed, finish]
    by_cases complete : s.expecting = .operator ∧ s.enclosing = []
    · rw [if_pos complete]
      rfl
    · rw [if_neg complete]
  | cons t rest ih =>
    rw [run, run]
    cases stepped : s.step t with
    | error cause => rw [step_within_of_error stepped]
    | ok next =>
      cases next with
      | some next =>
        rw [step_within_of_next stepped]
        exact ih next
      | none =>
        cases moves_iff.mpr stepped with
        | halt expecting kind outermost =>
          have inside : (s.within (around :: outer)).enclosing = around :: outer := by
            rw [within, outermost, List.nil_append]
          rcases kind with closing | blank
          · have closes := moves_iff.mp (Moves.close (s := s.within (around :: outer)) expecting
              closing inside)
            rw [closes]
            exact (if_pos closing).symm
          · have ends := moves_iff.mp (Moves.unclosed (s := s.within (around :: outer)) expecting
              blank inside)
            rw [ends]
            exact (if_neg (by rw [blank]; nofun)).symm

end ParseState

/-! ### Atoms -/

/-- Consumes the bracket that closes the group of an expression. -/
def unbracketed (textEnd : Nat) : Term × List Token → Except ParseError (Term × List Token)
  | (_, []) => .error ⟨.unexpectedEnd, ⟨textEnd, textEnd⟩⟩
  | (t, close :: rest) =>
    if close.kind = .closing then .ok (t, rest)
    else .error ⟨.unexpectedToken close.text, tokenSpan close⟩

/-- The atom that tokens start with, and the tokens behind it. -/
def atomAnswer (textEnd : Nat) : List Token → Except ParseError (Term × List Token)
  | [] => .error ⟨.unexpectedEnd, ⟨textEnd, textEnd⟩⟩
  | t :: rest =>
    match t.kind with
    | .letter => .ok (.symbol (String.ofList t.text), rest)
    | .number =>
      let value := Nat.ofDigitChars 10 t.text 0
      if value < UInt64.size then .ok (.integer (.ofNat value), rest)
      else .error ⟨.integerTooLarge, tokenSpan t⟩
    | .opening => (ParseState.initial.run rest).answer textEnd >>= unbracketed textEnd
    | _ => .error ⟨.unexpectedToken t.text, tokenSpan t⟩

/-- What may follow an operand, and the operands that do. -/
def chainAnswer (textEnd : Nat) (items : List Item) (tokens : List Token) :
    Except ParseError (Term × List Token) :=
  ((⟨.operator, items, []⟩ : ParseState).run tokens).answer textEnd

theorem answer_resume (around : Enclosing) (textEnd : Nat) (t : Term) (tokens : List Token) :
    (around.resume [] t tokens).answer textEnd =
      unbracketed textEnd (t, tokens) >>= fun (t, rest) =>
        chainAnswer textEnd ((around.op, t) :: around.items) rest := by
  cases tokens with
  | nil => rfl
  | cons close rest =>
    unfold Enclosing.resume unbracketed
    by_cases closing : close.kind = .closing
    · simp only [if_pos closing]
      rfl
    · simp only [if_neg closing]
      rfl

namespace ParseState

/-- An operand is an atom, and reading goes on behind it. -/
theorem answer_operand (op : Operator) (items : List Item) (textEnd : Nat) (tokens : List Token) :
    ((⟨.operand op, items, []⟩ : ParseState).run tokens).answer textEnd =
      atomAnswer textEnd tokens >>= fun (t, rest) => chainAnswer textEnd ((op, t) :: items) rest := by
  cases tokens with
  | nil => rfl
  | cons t rest =>
    have stepped : (⟨.operand op, items, []⟩ : ParseState).step t =
        some <$> (⟨.operand op, items, []⟩ : ParseState).readOperand op t := rfl
    rw [run, stepped, readOperand, atomAnswer]
    cases kind : t.kind with
    | letter => rfl
    | number =>
      by_cases fits : Nat.ofDigitChars 10 t.text 0 < UInt64.size
      · simp only [if_pos fits]
        rfl
      · simp only [if_neg fits]
        rfl
    | opening =>
      have inside := run_within initial ⟨items, op⟩ [] rest
      change (((initial.within [⟨items, op⟩]).run rest).answer textEnd) = _
      rw [inside]
      cases initial.run rest with
      | failed cause blamed => rfl
      | parsed u rest => exact answer_resume ⟨items, op⟩ textEnd u rest
    | _ => rfl

end ParseState

/-! ### Signs and operators -/

/-- The sign of an expression as the operator in front of its first operand, and the tokens behind
it. -/
def signOf : List Token → Operator × List Token
  | [] => (.add, [])
  | t :: rest =>
    match t.kind with
    | .plus => (.add, rest)
    | .minus => (.subtract, rest)
    | _ => (.add, t :: rest)

/-- The operator in front of the next operand, if there is one, and the tokens behind it. -/
def operatorOf : List Token → Option (Operator × List Token)
  | [] => none
  | t :: rest =>
    match Operator.ofToken? t.kind with
    | some op => some (op, rest)
    | none => if t.kind.startsAtom then some (.multiply, t :: rest) else none

/-- An expression is a sign, an atom and what follows it. -/
theorem answer_initial (textEnd : Nat) (tokens : List Token) :
    (ParseState.initial.run tokens).answer textEnd =
      atomAnswer textEnd (signOf tokens).2 >>= fun (t, rest) =>
        chainAnswer textEnd [((signOf tokens).1, t)] rest := by
  rw [← ParseState.answer_operand]
  cases tokens with
  | nil => rfl
  | cons t rest =>
    unfold signOf
    cases kind : t.kind with
    | plus | minus => simp [ParseState.run, ParseState.step, ParseState.initial, kind]
    | _ =>
      simp only [ParseState.run, ParseState.step, ParseState.initial, kind]
      rfl

/-- Behind an operand there is an operator and one more operand, or else the expression ends. -/
theorem chainAnswer_eq (textEnd : Nat) (items : List Item) (tokens : List Token) :
    chainAnswer textEnd items tokens =
      match operatorOf tokens with
      | none => .ok (reduce items.reverse, tokens)
      | some (op, rest) => atomAnswer textEnd rest >>= fun (t, rest) =>
          chainAnswer textEnd ((op, t) :: items) rest := by
  cases tokens with
  | nil => rfl
  | cons t rest =>
    simp only [operatorOf]
    cases kind : t.kind with
    | plus | minus | times | slash | caret =>
      simp only [Operator.ofToken?, ← ParseState.answer_operand]
      simp only [chainAnswer, ParseState.run, ParseState.step, kind, Operator.ofToken?]
    | letter | number | opening =>
      simp only [Operator.ofToken?, TokenKind.startsAtom, if_true, ← ParseState.answer_operand]
      simp only [chainAnswer, ParseState.run, ParseState.step, kind, Operator.ofToken?,
        TokenKind.startsAtom, if_true]
      rfl
    | closing | blank =>
      simp only [chainAnswer, ParseState.run, ParseState.step, kind, Operator.ofToken?,
        TokenKind.startsAtom]
      rfl

/-! ### What is consumed -/

theorem ParseState.length_le_of_run {s : ParseState} {tokens rest : List Token} {t : Term}
    (ran : s.run tokens = .parsed t rest) : rest.length ≤ tokens.length := by
  induction tokens generalizing s with
  | nil =>
    rw [run, finish] at ran
    split at ran <;> cases ran
    exact Nat.le_refl _
  | cons token tokens ih =>
    rw [run] at ran
    split at ran
    · exact Nat.le_succ_of_le (ih ran)
    · cases ran
      exact Nat.le_refl _
    · cases ran

theorem length_lt_of_unbracketed {textEnd : Nat} {t u : Term} {tokens rest : List Token}
    (closed : unbracketed textEnd (t, tokens) = .ok (u, rest)) : rest.length < tokens.length := by
  cases tokens with
  | nil => cases closed
  | cons close tokens =>
    rw [unbracketed] at closed
    split at closed <;> cases closed
    exact Nat.lt_succ_self _

/-- An atom takes up a token. -/
theorem length_lt_of_atomAnswer {textEnd : Nat} {t : Term} {tokens rest : List Token}
    (read : atomAnswer textEnd tokens = .ok (t, rest)) : rest.length < tokens.length := by
  cases tokens with
  | nil => cases read
  | cons token tokens =>
    rw [atomAnswer] at read
    split at read
    · cases read
      exact Nat.lt_succ_self _
    · dsimp only at read
      split at read <;> cases read
      exact Nat.lt_succ_self _
    · obtain ⟨⟨u, left⟩, inside, closed⟩ := bind_eq_ok.mp read
      have shorter := length_lt_of_unbracketed closed
      cases ran : ParseState.initial.run tokens with
      | failed => rw [ran] at inside; cases inside
      | parsed v left' =>
        rw [ran] at inside
        cases inside
        exact Nat.lt_succ_of_lt (Nat.lt_of_lt_of_le shorter (ParseState.length_le_of_run ran))
    · cases read

theorem length_signOf_le (tokens : List Token) : (signOf tokens).2.length ≤ tokens.length := by
  cases tokens with
  | nil => exact Nat.le_refl _
  | cons t rest =>
    dsimp only [signOf]
    split
    · exact Nat.le_succ _
    · exact Nat.le_succ _
    · exact Nat.le_refl _

theorem length_operatorOf_le {tokens rest : List Token} {op : Operator}
    (found : operatorOf tokens = some (op, rest)) : rest.length ≤ tokens.length := by
  cases tokens with
  | nil => cases found
  | cons t tokens =>
    rw [operatorOf] at found
    split at found
    · cases found
      exact Nat.le_succ _
    · split at found <;> cases found
      exact Nat.le_refl _

end AlgebraEditor.Formula
