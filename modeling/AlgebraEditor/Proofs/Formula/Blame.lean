import AlgebraEditor.Proofs.Formula.Parsing
import AlgebraEditor.Proofs.Formula.Position
import AlgebraEditor.Proofs.Formula.Viability

/-!
# The leftmost mistake

A text that is not an expression is blamed on the first character that begins no token or, if there
is none, on the first token that no expression has behind the tokens before it. Only if there is no
such token either, the end of the text is to blame. Any lexer that takes longest matches finds these
tokens (`tokenize_of_lexes`).
-/

namespace AlgebraEditor.Formula

open Grammar

/-- Some expression starts with the tokens. It goes on with single characters. -/
def Viable (ts : List Token) : Prop := ∃ us, (∀ token ∈ us, IsCharacter token) ∧ IsExpression (ts ++ us)

/-- What is said about a token that cannot stand behind the tokens before it. A closing bracket that
closes nothing is blamed with all that follows it. -/
inductive Blamed (before : List Token) (t : Token) (after : List Token) : ParseError → Prop where
  | number : t.kind = .number → Blamed before t after ⟨.integerTooLarge, ⟨t.start, t.stop⟩⟩
  | closing : t.kind = .closing → IsExpression before →
      Blamed before t after ⟨.expectedEnd, ⟨t.start, lastStop (t :: after)⟩⟩
  | other : t.kind ≠ .number → ¬ (t.kind = .closing ∧ IsExpression before) →
      Blamed before t after ⟨.unexpectedToken t.text, ⟨t.start, t.stop⟩⟩

/-- The error is about the leftmost token that makes an expression impossible, or about the end. -/
inductive Leftmost : List Token → ParseError → Prop where
  | token {before after : List Token} {t : Token} {error : ParseError} : Viable before →
      (∀ us, ¬ IsExpression (before ++ t :: us)) → Blamed before t after error →
      Leftmost (before ++ t :: after) error
  | atEnd {tokens : List Token} : Viable tokens → ¬ IsExpression tokens →
      Leftmost tokens ⟨.unexpectedEnd, ⟨lastStop tokens, lastStop tokens⟩⟩

theorem lastStop_append (before after : List Token) (t : Token) :
    lastStop (before ++ t :: after) = lastStop (t :: after) := by
  rw [lastStop, lastStop, List.getLast?_append_cons]

theorem leftmost_of_parseTokens {tokens : List Token} {e : ParseError}
    (solid : ∀ t ∈ tokens, t.kind ≠ .blank) (failed : parseTokens tokens = .error e) :
    Leftmost tokens e := by
  obtain ⟨before, after, s, rfl, steps, stuck⟩ := ParseState.exists_stop .initial tokens
  rw [parseTokens, steps.run_append] at failed
  cases after with
  | nil =>
    rw [List.append_nil] at failed ⊢
    have incomplete : ¬ IsExpression before := by
      rw [steps.isExpression_iff]
      rintro ⟨u, parsed⟩
      rw [parsed] at failed
      cases failed
    have ended : s.run [] = .failed .unexpectedEnd none := by
      rw [steps.isExpression_iff] at incomplete
      rw [ParseState.run, ParseState.finish] at incomplete ⊢
      split
      · exact absurd ⟨_, if_pos ‹_›⟩ incomplete
      · rfl
    rw [ended] at failed
    cases failed
    exact .atEnd steps.viable incomplete
  | cons t after =>
    have stuck := stuck t rfl
    refine .token steps.viable (steps.not_isExpression stuck) ?_
    cases stepped : s.step t with
    | error cause =>
      rw [ParseState.run, stepped] at failed
      cases failed
      rcases ParseState.step_eq_error stepped with ⟨kind, rfl⟩ | ⟨kind, rfl, goesOn⟩
      · exact .number kind
      · refine .other kind fun both => ?_
        obtain ⟨closing, whole⟩ := both
        obtain ⟨u, parsed⟩ := steps.isExpression_iff.mp whole
        exact goesOn closing u parsed
    | ok next =>
      cases next with
      | some next => exact absurd stepped (stuck next)
      | none =>
        obtain ⟨⟨u, parsed, rest⟩, closing | blank⟩ := ParseState.step_eq_end stepped
        · rw [rest] at failed
          cases failed
          rw [lastStop_append]
          exact .closing closing (steps.isExpression_iff.mpr ⟨u, parsed⟩)
        · exact absurd blank (solid t (by simp))

theorem covers_lastStop {cs : List Char} {tokens : List Token} (read : tokenize cs = .ok tokens) :
    Covers cs (lastStop tokens) (lastStop tokens) := by
  cases last : tokens.getLast? with
  | none => exact ⟨[], [], cs, rfl, by simp [lastStop, last, byteCount], by simp [lastStop, last, byteCount]⟩
  | some t =>
    obtain ⟨u, v, w, rfl, start, stop⟩ := covers_of_token read (List.mem_of_getLast? last)
    refine ⟨u ++ v, [], w, by simp, ?_, ?_⟩
    · simp [lastStop, last, stop]
    · simp [lastStop, last, stop]

theorem Leftmost.covers {cs : List Char} {tokens : List Token} {error : ParseError}
    (leftmost : Leftmost tokens error) (read : tokenize cs = .ok tokens) :
    Covers cs error.span.start error.span.stop := by
  cases leftmost with
  | atEnd _ _ => exact covers_lastStop read
  | @token before after t error _ _ blamed =>
    have place := covers_of_token read (t := t) (by simp)
    cases blamed with
    | number _ => exact place
    | other _ _ => exact place
    | closing _ _ =>
      rcases List.eq_nil_or_concat after with rfl | ⟨between, u, rfl⟩
      · exact place
      · have stop : lastStop (t :: (between ++ [u])) = u.stop := by
          rw [lastStop, ← List.cons_append, List.getLast?_concat]
          rfl
        rw [List.concat_eq_append, stop]
        have read' : tokenize cs = .ok (before ++ t :: (between ++ u :: [])) := by simpa using read
        exact covers_of_tokens read'

theorem exists_first_unknown {cs : List Char} (unknown : ∃ c ∈ cs, TokenKind.ofChar? c = none) :
    ∃ u c w, cs = u ++ c :: w ∧ (∀ d ∈ u, (TokenKind.ofChar? d).isSome = true) ∧
      TokenKind.ofChar? c = none := by
  induction cs with
  | nil => simp at unknown
  | cons d cs ih =>
    cases first : TokenKind.ofChar? d with
    | none => exact ⟨[], d, cs, rfl, by simp, first⟩
    | some kind =>
      obtain ⟨u, c, w, rfl, known, unknown⟩ := ih (by simpa [first] using unknown)
      exact ⟨d :: u, c, w, rfl, by simpa [first] using known, unknown⟩

theorem parse_of_unknown {u w : List Char} {c : Char}
    (known : ∀ d ∈ u, (TokenKind.ofChar? d).isSome = true) (unknown : TokenKind.ofChar? c = none) :
    parse (u ++ c :: w) =
      .error ⟨.unknownCharacter [c], ⟨byteCount u, byteCount (u ++ [c])⟩⟩ := by
  rw [parse, Reader.ofText, tokenize_eq_error known unknown, byteCount_append]
  rfl

theorem parse_of_tokens {cs : List Char} {tokens : List Token} (read : tokenize cs = .ok tokens) :
    parse cs = parseTokens tokens := by
  rw [parse, Reader.ofText, read]
  rfl

theorem leftmost_of_parse {cs : List Char} {tokens : List Token} {e : ParseError}
    (read : tokenize cs = .ok tokens) (failed : parse cs = .error e) : Leftmost tokens e := by
  rw [parse_of_tokens read] at failed
  exact leftmost_of_parseTokens (fun t member => kind_of_tokenize read member) failed

/-- What is blamed is a piece of the text. -/
theorem covers_of_parse {cs : List Char} {e : ParseError} (failed : parse cs = .error e) :
    Covers cs e.span.start e.span.stop := by
  by_cases unknown : ∃ c ∈ cs, TokenKind.ofChar? c = none
  · obtain ⟨u, c, w, rfl, known, unknown⟩ := exists_first_unknown unknown
    cases (parse_of_unknown known unknown).symm.trans failed
    exact ⟨u, [c], w, by simp, rfl, rfl⟩
  · have known : ∀ c ∈ cs, (TokenKind.ofChar? c).isSome = true := fun c member => by
      rw [Option.isSome_iff_ne_none]
      exact fun none => unknown ⟨c, member, none⟩
    obtain ⟨tokens, read⟩ := tokenize_total known
    exact (leftmost_of_parse read failed).covers read

/-- Reading a text fails because of its first character that begins no token, if there is one, and
otherwise because of the leftmost token that makes an expression impossible, or because of its end.
What is blamed is a piece of the text. -/
theorem plantText_blames_leftmost {a : Arena} (wf : a.WellFormed) (cs : List Char) :
    ((∃ c ∈ cs, TokenKind.ofChar? c = none) → ∃ u c w, cs = u ++ c :: w ∧
      (∀ d ∈ u, (TokenKind.ofChar? d).isSome = true) ∧ TokenKind.ofChar? c = none ∧
      ∃ b, (Edit.plantText cs).run a =
        .ok (.error ⟨.unknownCharacter [c], ⟨byteCount u, byteCount (u ++ [c])⟩⟩) b) ∧
    ((∀ c ∈ cs, (TokenKind.ofChar? c).isSome = true) → ∃ tokens, tokenize cs = .ok tokens ∧
      ∀ e b, (Edit.plantText cs).run a = .ok (.error e) b → Leftmost tokens e) ∧
    ∀ e b, (Edit.plantText cs).run a = .ok (.error e) b → Covers cs e.span.start e.span.stop := by
  refine ⟨fun unknown => ?_, fun known => ?_, fun e b failed => ?_⟩
  · obtain ⟨u, c, w, rfl, known, unknown⟩ := exists_first_unknown unknown
    obtain ⟨_, _, b, failed, -⟩ := Edit.run_plantText_of_error wf (parse_of_unknown known unknown)
    exact ⟨u, c, w, rfl, known, unknown, b, failed⟩
  · obtain ⟨tokens, read⟩ := tokenize_total known
    exact ⟨tokens, read, fun e b failed =>
      leftmost_of_parse read (Edit.parse_of_run_error wf failed).1⟩
  · exact covers_of_parse (Edit.parse_of_run_error wf failed).1

/-- In `a*)` the bracket is blamed, since `a*` needs an operand, and in `a*` the end. The letter is
added all the same. -/
theorem plantText_blames_leftmost_of_bracket :
    (∃ tokens b, tokenize ['a', '*', ')'] = .ok tokens ∧
      (Edit.plantText ['a', '*', ')']).run .zero =
        .ok (.error ⟨.unexpectedToken [')'], ⟨2, 3⟩⟩) b ∧
      Leftmost tokens ⟨.unexpectedToken [')'], ⟨2, 3⟩⟩) ∧
    ∃ tokens b, tokenize ['a', '*'] = .ok tokens ∧
      (Edit.plantText ['a', '*']).run .zero = .ok (.error ⟨.unexpectedEnd, ⟨2, 2⟩⟩) b ∧
      b.get? ⟨2⟩ = some ⟨none, .symbol "a"⟩ ∧ Leftmost tokens ⟨.unexpectedEnd, ⟨2, 2⟩⟩ := by
  have wf := Arena.wellFormed_zero
  constructor
  · obtain ⟨tokens, read, blames⟩ :=
      (plantText_blames_leftmost wf ['a', '*', ')']).2.1 (List.all_eq_true.mp rfl)
    exact ⟨tokens, _, read, rfl, blames _ _ rfl⟩
  · obtain ⟨tokens, read, blames⟩ :=
      (plantText_blames_leftmost wf ['a', '*']).2.1 (List.all_eq_true.mp rfl)
    exact ⟨tokens, _, read, rfl, rfl, blames _ _ rfl⟩

end AlgebraEditor.Formula
