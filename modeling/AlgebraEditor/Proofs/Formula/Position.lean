import AlgebraEditor.Proofs.Formula.Scanning

/-!
# Positions in a text

Lexemes lie one behind the other, so the bytes from the start of a token to the stop of the same or a
later one are the bytes of a piece of the text. The first character that begins no token is found
with its position.
-/

namespace AlgebraEditor.Formula

/-- The bytes from `start` to `stop` are those of a piece of the text. -/
def Covers (cs : List Char) (start stop : Nat) : Prop :=
  ∃ u v w, cs = u ++ v ++ w ∧ start = byteCount u ∧ stop = byteCount (u ++ v)

theorem Covers.bounds {cs : List Char} {start stop : Nat} (covers : Covers cs start stop) :
    start ≤ stop ∧ stop ≤ byteCount cs := by
  obtain ⟨u, v, w, rfl, rfl, rfl⟩ := covers
  rw [byteCount_append (u ++ v), byteCount_append u]
  exact ⟨Nat.le_add_right _ _, Nat.le_add_right _ _⟩

/-! ### Lexemes and tokens -/

/-- Every lexeme starts where the one before stops. -/
def Abut {κ : Type} : Nat → List (Lexeme κ) → Prop
  | _, [] => True
  | start, l :: ls => l.start = start ∧ Abut l.stop ls

theorem abut_scanFrom (start : Nat) (cs : List Char) : Abut start (scanFrom start cs) := by
  induction cs generalizing start with
  | nil => trivial
  | cons c cs ih =>
    have rest := ih (start + c.utf8Size)
    unfold scanFrom
    dsimp only
    split
    · exact ⟨rfl, trivial⟩
    · rename_i next ls found
      rw [found] at rest
      obtain ⟨begins, later⟩ := rest
      split
      · refine ⟨rfl, ?_⟩
        rw [Lexeme.stop, begins] at later
        rwa [Lexeme.stop, byteCount_cons, ← Nat.add_assoc]
      · refine ⟨rfl, ?_, later⟩
        rw [begins, Lexeme.stop]
        simp [byteCount]

theorem Abut.start_eq {κ : Type} {start : Nat} {before after : List (Lexeme κ)} {l : Lexeme κ}
    (abut : Abut start (before ++ l :: after)) :
    l.start = start + byteCount (before.flatMap (·.text)) := by
  induction before generalizing start with
  | nil => simpa [byteCount] using abut.1
  | cons first before ih =>
    obtain ⟨begins, rest⟩ := abut
    rw [ih rest, Lexeme.stop, begins, List.flatMap_cons, byteCount_append, Nat.add_assoc]

theorem tokensOf_eq_ok {ls : List (Lexeme (Option TokenKind))} {tokens : List Token}
    (read : tokensOf ls = .ok tokens) :
    ls = tokens.map fun t => ⟨some t.kind, t.text, t.start⟩ := by
  induction ls generalizing tokens with
  | nil => cases read; rfl
  | cons l ls ih =>
    obtain ⟨kind | kind, text, start⟩ := l
    · cases read
    · rw [tokensOf] at read
      obtain ⟨rest, later, same⟩ := bind_eq_ok.mp read
      obtain rfl := pure_eq_ok.mp same
      rw [List.map_cons, ← ih later]

theorem Abut.of_map {start : Nat} {tokens : List Token}
    (abut : Abut start (tokens.map fun t => (⟨some t.kind, t.text, t.start⟩ : Lexeme (Option TokenKind)))) :
    Abut start tokens := by
  induction tokens generalizing start with
  | nil => trivial
  | cons t tokens ih => exact ⟨abut.1, ih abut.2⟩

/-- The tokens of a text, blanks included, lie one behind the other and make up the text. -/
theorem tokenize_eq_ok {cs : List Char} {tokens : List Token} (read : tokenize cs = .ok tokens) :
    ∃ all : List Token, Abut 0 all ∧ all.flatMap (·.text) = cs ∧
      tokens = all.filter (!·.kind.isBlank) := by
  obtain ⟨all, found, same⟩ := bind_eq_ok.mp read
  obtain rfl := pure_eq_ok.mp same
  have lexemes := tokensOf_eq_ok found
  have abut := abut_scanFrom 0 cs
  have whole := flatMap_text_scan cs
  rw [scan] at lexemes whole
  rw [lexemes] at abut whole
  refine ⟨all, abut.of_map, ?_, rfl⟩
  simpa [List.flatMap_map] using whole

theorem covers_of_token {cs : List Char} {tokens : List Token} (read : tokenize cs = .ok tokens)
    {t : Token} (member : t ∈ tokens) : Covers cs t.start t.stop := by
  obtain ⟨all, abut, rfl, rfl⟩ := tokenize_eq_ok read
  obtain ⟨before, after, rfl⟩ := List.append_of_mem (List.mem_filter.mp member).1
  have start := abut.start_eq
  rw [Nat.zero_add] at start
  exact ⟨before.flatMap (·.text), t.text, after.flatMap (·.text), by simp, start,
    by rw [Lexeme.stop, start, byteCount_append]⟩

/-- From the start of a token to the stop of a later one. -/
theorem covers_of_tokens {cs : List Char} {before between after : List Token} {t u : Token}
    (read : tokenize cs = .ok (before ++ t :: (between ++ u :: after))) :
    Covers cs t.start u.stop := by
  obtain ⟨all, abut, rfl, same⟩ := tokenize_eq_ok read
  obtain ⟨first, rest, rfl, -, shown⟩ := List.filter_eq_append_iff.mp same.symm
  obtain ⟨blanks, rest', rfl, -, -, later⟩ := List.filter_eq_cons_iff.mp shown
  obtain ⟨middle, last, rfl, -, shown'⟩ := List.filter_eq_append_iff.mp later
  obtain ⟨blanks', last', rfl, -, -, -⟩ := List.filter_eq_cons_iff.mp shown'
  rw [← List.append_assoc] at abut
  have start := abut.start_eq
  rw [show first ++ blanks ++ t :: (middle ++ (blanks' ++ u :: last')) =
    (first ++ blanks ++ t :: (middle ++ blanks')) ++ u :: last' by simp] at abut
  have stop := abut.start_eq
  rw [Nat.zero_add] at start stop
  refine ⟨(first ++ blanks).flatMap (·.text), (t :: (middle ++ blanks') ++ [u]).flatMap (·.text),
    last'.flatMap (·.text), by simp, start, ?_⟩
  rw [Lexeme.stop, stop]
  simp [byteCount_append, Nat.add_assoc]

theorem kind_of_tokenize {cs : List Char} {tokens : List Token} (read : tokenize cs = .ok tokens)
    {t : Token} (member : t ∈ tokens) : t.kind ≠ .blank := by
  obtain ⟨all, -, -, rfl⟩ := tokenize_eq_ok read
  simpa [TokenKind.isBlank] using (List.mem_filter.mp member).2

/-! ### Characters that begin no token -/

theorem tokensOf_eq_error {start : Nat} {u w : List Char} {c : Char}
    (known : ∀ d ∈ u, (TokenKind.ofChar? d).isSome = true) (unknown : TokenKind.ofChar? c = none) :
    tokensOf (scanFrom start (u ++ c :: w)) = .error ([c], start + byteCount u) := by
  induction u generalizing start with
  | nil =>
    rw [List.nil_append, scanFrom_apart (by simp [unknown, merges]), unknown]
    rfl
  | cons d u ih =>
    obtain ⟨kind, first⟩ := Option.isSome_iff_exists.mp (known d List.mem_cons_self)
    have later := @ih (start + d.utf8Size) fun e member =>
      known e (List.mem_cons_of_mem _ member)
    rw [List.cons_append, byteCount_cons, ← Nat.add_assoc]
    rw [scanFrom, first]
    cases found : scanFrom (start + d.utf8Size) (u ++ c :: w) with
    | nil => rw [found] at later; cases later
    | cons next ls =>
      rw [found] at later
      dsimp only
      split
      · rename_i merging
        obtain ⟨kind', text, place⟩ := next
        obtain rfl : kind' = some kind := merging.2
        rw [tokensOf] at later
        cases rest : tokensOf ls with
        | ok tokens => rw [rest] at later; cases later
        | error e =>
          rw [rest] at later
          rw [tokensOf, rest]
          exact later
      · rw [tokensOf, later]
        rfl

theorem tokenize_eq_error {u w : List Char} {c : Char}
    (known : ∀ d ∈ u, (TokenKind.ofChar? d).isSome = true) (unknown : TokenKind.ofChar? c = none) :
    tokenize (u ++ c :: w) = .error ([c], byteCount u) := by
  rw [tokenize, scan, tokensOf_eq_error known unknown, Nat.zero_add]
  rfl

end AlgebraEditor.Formula
