import AlgebraEditor.Proofs.Formula.Derivation
import AlgebraEditor.Proofs.Formula.Parsing

/-!
# Reading a text into an arena

A text is read as the term that the grammar assigns to its tokens, if it assigns one, and no text
makes this fail in any other way than with a parse error. The tokens are those of any lexer that
takes longest matches (`tokenize_of_lexes`).
-/

namespace AlgebraEditor

namespace Formula

open Grammar

variable {cs : List Char} {t : Term} {e : ParseError}

theorem parseTokens_eq_ok {tokens : List Token} :
    parseTokens tokens = .ok t ↔ ParseState.initial.run tokens = .parsed t [] := by
  rw [parseTokens]
  cases ParseState.initial.run tokens with
  | failed cause blamed =>
    constructor
    · rintro ⟨⟩
    · rintro ⟨⟩
  | parsed u rest =>
    change complete _ (u, rest) = .ok t ↔ _
    cases rest with
    | nil => simp [complete]
    | cons extra rest => simp [complete]

/-- A text is parsed if and only if the grammar derives its tokens and every number fits. -/
theorem parse_eq_ok : parse cs = .ok t ↔ ∃ tokens, tokenize cs = .ok tokens ∧
    Expression Atom tokens t ∧ ∀ token ∈ tokens, Fits token := by
  rw [parse, Reader.ofText]
  cases tokenize cs with
  | error e =>
    constructor
    · rintro ⟨⟩
    · rintro ⟨_, ⟨⟩, _⟩
  | ok tokens =>
    change parseTokens tokens = .ok t ↔ _
    rw [parseTokens_eq_ok, parsed_iff]
    constructor
    · intro derived
      exact ⟨tokens, rfl, derived⟩
    · rintro ⟨_, ⟨⟩, derived⟩
      exact derived

theorem normal_of_parse (parsed : parse cs = .ok t) : t.IsNormal := by
  obtain ⟨x, b, -, adds⟩ := Edit.run_plantText_of_ok Arena.wellFormed_zero parsed
  exact adds.normal t List.mem_cons_self

/-- Reading the text into a new arena adds the term. It then adds the term to every other arena, too
(`Edit.run_plantText_of_ok`). -/
def Accepts (cs : List Char) (t : Term) : Prop :=
  ∃ x b, (Edit.plantText cs).run .zero = .ok (.ok x) b ∧ b.term x = .ok t

/-- Reading the text into a new arena ends with the error. -/
def Refuses (cs : List Char) (e : ParseError) : Prop :=
  ∃ b, (Edit.plantText cs).run .zero = .ok (.error e) b

theorem accepts_iff : Accepts cs t ↔ parse cs = .ok t := by
  constructor
  · rintro ⟨x, b, run, term⟩
    obtain ⟨u, parsed, adds⟩ := Edit.parse_of_run_ok Arena.wellFormed_zero run
    cases adds.term_top.symm.trans term
    exact parsed
  · intro parsed
    obtain ⟨x, b, run, adds⟩ := Edit.run_plantText_of_ok Arena.wellFormed_zero parsed
    exact ⟨x, b, run, adds.term_top⟩

theorem refuses_iff : Refuses cs e ↔ parse cs = .error e := by
  constructor
  · rintro ⟨b, run⟩
    exact (Edit.parse_of_run_error Arena.wellFormed_zero run).1
  · intro failed
    obtain ⟨_, _, b, run, -⟩ := Edit.run_plantText_of_error Arena.wellFormed_zero failed
    exact ⟨b, run⟩

end Formula

namespace Edit

open Formula Grammar

variable {a : Arena}

/-- Reading a text ends without a fault, and reads what the grammar assigns to its tokens and
nothing else. -/
theorem plantText_reads_grammar (wf : a.WellFormed) (cs : List Char) :
    (∃ answer b, (plantText cs).run a = .ok answer b) ∧
    ((∀ c ∈ cs, (TokenKind.ofChar? c).isSome = true) → ∃ tokens, tokenize cs = .ok tokens ∧
      ∀ t, (∃ h b, (plantText cs).run a = .ok (.ok h) b ∧ b.term h = .ok t) ↔
        Expression Atom tokens t ∧ ∀ token ∈ tokens, Fits token) := by
  refine ⟨?_, fun known => ?_⟩
  · obtain ⟨answer, _, _, b, run, -⟩ := plantText_total wf cs
    exact ⟨answer, b, run⟩
  · obtain ⟨tokens, read⟩ := tokenize_total known
    refine ⟨tokens, read, fun t => ?_⟩
    constructor
    · rintro ⟨h, b, run, term⟩
      obtain ⟨u, parsed, adds⟩ := parse_of_run_ok wf run
      cases adds.term_top.symm.trans term
      obtain ⟨_, read', derived⟩ := parse_eq_ok.mp parsed
      cases read.symm.trans read'
      exact derived
    · intro derived
      obtain ⟨x, b, run, adds⟩ := run_plantText_of_ok wf (parse_eq_ok.mpr ⟨tokens, read, derived⟩)
      exact ⟨x, b, run, adds.term_top⟩

/-- In `-2(x)` the sign is read and the product that is not written. `2)` is not derived, so it is
not read. -/
theorem plantText_reads_grammar_of_product :
    (∃ tokens h b, tokenize ['-', '2', '(', 'x', ')'] = .ok tokens ∧
      (plantText ['-', '2', '(', 'x', ')']).run .zero = .ok (.ok h) b ∧
      b.term h = .ok (.negation (.product [.integer 2, .symbol "x"])) ∧
      Expression Atom tokens (.negation (.product [.integer 2, .symbol "x"]))) ∧
    ∃ tokens e b, tokenize ['2', ')'] = .ok tokens ∧
      (plantText ['2', ')']).run .zero = .ok (.error e) b ∧
      ∀ t, ¬ (Expression Atom tokens t ∧ ∀ token ∈ tokens, Fits token) := by
  have wf := Arena.wellFormed_zero
  constructor
  · obtain ⟨tokens, read, derives⟩ :=
      (plantText_reads_grammar wf ['-', '2', '(', 'x', ')']).2 (List.all_eq_true.mp rfl)
    obtain ⟨h, b, run, term⟩ : ∃ h b, (plantText ['-', '2', '(', 'x', ')']).run .zero = .ok (.ok h) b ∧
        b.term h = .ok (.negation (.product [.integer 2, .symbol "x"])) := ⟨_, _, rfl, rfl⟩
    exact ⟨tokens, h, b, read, run, term, ((derives _).mp ⟨h, b, run, term⟩).1⟩
  · obtain ⟨tokens, read, derives⟩ :=
      (plantText_reads_grammar wf ['2', ')']).2 (List.all_eq_true.mp rfl)
    obtain ⟨e, b, run⟩ : ∃ e b, (plantText ['2', ')']).run .zero = .ok (.error e) b := ⟨_, _, rfl⟩
    refine ⟨tokens, e, b, read, run, fun t derived => ?_⟩
    obtain ⟨_, _, run', -⟩ := (derives t).mpr derived
    cases run.symm.trans run'

end Edit

end AlgebraEditor
