import AlgebraEditor.Proofs.Formula.Grammar
import AlgebraEditor.Proofs.Outcome

/-!
# Scanning

How the tokens of a text come about from the left, one token at a time, and which tokens a text can
have at all. `Spells` is about a piece of text inside a longer one: it is read as the same tokens
wherever it stands, as long as no digit follows it.
-/

namespace AlgebraEditor.Formula

open Grammar

/-! ### Kinds of characters -/

theorem isBlank_eq_false {c : Char} (low : 0x20 < c.toNat) (high : c.toNat < 0x85) :
    Text.isBlank c = false := by
  unfold Text.isBlank
  generalize c.toNat = n at low high
  simp only [Bool.or_eq_false_iff, Bool.and_eq_false_iff, decide_eq_false_iff_not,
    beq_eq_false_iff_ne]
  omega

theorem isDigit_iff {c : Char} : c.isDigit = true ↔ 48 ≤ c.toNat ∧ c.toNat ≤ 57 := by
  rw [Char.isDigit, Bool.and_eq_true, decide_eq_true_eq, decide_eq_true_eq]
  rfl

theorem isAlpha_iff {c : Char} : c.isAlpha = true ↔
    (65 ≤ c.toNat ∧ c.toNat ≤ 90) ∨ (97 ≤ c.toNat ∧ c.toNat ≤ 122) := by
  have classes : c.isAlpha = (decide (65 ≤ c.val ∧ c.val ≤ 90) ||
    (decide (97 ≤ c.val) && decide (c.val ≤ 122))) := rfl
  rw [classes, Bool.or_eq_true, Bool.and_eq_true, decide_eq_true_eq, decide_eq_true_eq,
    decide_eq_true_eq]
  rfl

theorem ofChar?_of_isDigit {c : Char} (digit : c.isDigit = true) :
    TokenKind.ofChar? c = some .number := by
  obtain ⟨low, high⟩ := isDigit_iff.mp digit
  have solid : Text.isBlank c = false := isBlank_eq_false (by omega) (by omega)
  unfold TokenKind.ofChar?
  rw [if_neg (by rw [solid]; exact Bool.false_ne_true), if_pos digit]

theorem isDigit_of_ofChar? {c : Char} (number : TokenKind.ofChar? c = some .number) :
    c.isDigit = true := by
  unfold TokenKind.ofChar? at number
  split at number
  · cases number
  · split at number
    · assumption
    · split at number
      · cases number
      · split at number <;> cases number

/-- Letters of ASCII, and the low line. -/
def IsLetter (c : Char) : Prop := c.isAlpha = true ∨ c = '_'

theorem ofChar?_eq_letter {c : Char} :
    TokenKind.ofChar? c = some .letter ↔ IsLetter c := by
  constructor
  · intro letter
    unfold TokenKind.ofChar? at letter
    split at letter
    · cases letter
    · split at letter
      · cases letter
      · split at letter
        · rename_i named
          simpa [IsLetter] using named
        · split at letter <;> cases letter
  · intro letter
    have code : (65 ≤ c.toNat ∧ c.toNat ≤ 90) ∨ (97 ≤ c.toNat ∧ c.toNat ≤ 122) ∨ c.toNat = 95 := by
      rcases letter with alpha | rfl
      · exact (isAlpha_iff.mp alpha).imp_right .inl
      · exact .inr (.inr rfl)
    have solid : Text.isBlank c = false := isBlank_eq_false (by omega) (by omega)
    have noDigit : c.isDigit = false := by
      rw [Bool.eq_false_iff]
      intro digit
      have high := (isDigit_iff.mp digit).2
      omega
    have named : (c.isAlpha || c == '_') = true := by simpa [IsLetter] using letter
    unfold TokenKind.ofChar?
    rw [if_neg (by rw [solid]; exact Bool.false_ne_true),
      if_neg (by rw [noDigit]; exact Bool.false_ne_true), if_pos named]

/-! ### Lexemes -/

theorem byteCount_cons (c : Char) (cs : List Char) :
    byteCount (c :: cs) = c.utf8Size + byteCount cs := rfl

theorem byteCount_append (cs ds : List Char) :
    byteCount (cs ++ ds) = byteCount cs + byteCount ds := by
  induction cs with
  | nil => exact (Nat.zero_add _).symm
  | cons c cs ih => rw [List.cons_append, byteCount_cons, byteCount_cons, ih, Nat.add_assoc]

theorem scanFrom_head (start : Nat) (c : Char) (cs : List Char) :
    ∃ l ls, scanFrom start (c :: cs) = l :: ls ∧ l.kind = TokenKind.ofChar? c := by
  rw [scanFrom]
  split
  · exact ⟨_, [], rfl, rfl⟩
  · split
    · exact ⟨_, _, rfl, rfl⟩
    · exact ⟨_, _, rfl, rfl⟩

/-- A character that does not merge with the next one is a lexeme of its own. -/
theorem scanFrom_apart {start : Nat} {c : Char} {cs : List Char}
    (apart : ∀ d ∈ cs.head?, merges (TokenKind.ofChar? c) = true →
      TokenKind.ofChar? d ≠ TokenKind.ofChar? c) :
    scanFrom start (c :: cs) =
      ⟨TokenKind.ofChar? c, [c], start⟩ :: scanFrom (start + c.utf8Size) cs := by
  rw [scanFrom]
  cases cs with
  | nil => rfl
  | cons d ds =>
    obtain ⟨l, ls, found, kind⟩ := scanFrom_head (start + c.utf8Size) d ds
    rw [found]
    dsimp only
    rw [if_neg]
    rintro ⟨merging, same⟩
    exact apart d rfl merging (kind.symm.trans same)

theorem scanFrom_merged (start : Nat) {c d : Char} (cs : List Char)
    (merging : merges (TokenKind.ofChar? c) = true)
    (same : TokenKind.ofChar? d = TokenKind.ofChar? c) :
    ∃ l ls, scanFrom (start + c.utf8Size) (d :: cs) = l :: ls ∧
      scanFrom start (c :: d :: cs) = ⟨TokenKind.ofChar? c, c :: l.text, start⟩ :: ls := by
  obtain ⟨l, ls, found, kind⟩ := scanFrom_head (start + c.utf8Size) d cs
  refine ⟨l, ls, found, ?_⟩
  rw [scanFrom]
  rw [found]
  dsimp only
  rw [if_pos ⟨merging, kind.trans same⟩]

/-- Characters of one kind that merges are one lexeme, up to the first other character. -/
theorem scanFrom_run {start : Nat} {kind : Option TokenKind} {cs rest : List Char}
    (spelled : cs ≠ []) (merging : merges kind = true)
    (same : ∀ c ∈ cs, TokenKind.ofChar? c = kind)
    (apart : ∀ d ∈ rest.head?, TokenKind.ofChar? d ≠ kind) :
    scanFrom start (cs ++ rest) = ⟨kind, cs, start⟩ :: scanFrom (start + byteCount cs) rest := by
  induction cs generalizing start with
  | nil => exact absurd rfl spelled
  | cons c cs ih =>
    obtain ⟨first, others⟩ := List.forall_mem_cons.mp same
    cases cs with
    | nil =>
      rw [List.singleton_append, scanFrom_apart, first]
      · simp [byteCount]
      · intro d follows _
        rw [first]
        exact apart d follows
    | cons d ds =>
      have later := @ih (start + c.utf8Size) (List.cons_ne_nil d ds) others
      obtain ⟨l, ls, found, merged⟩ := scanFrom_merged start (ds ++ rest) (by rw [first, merging])
        ((others d List.mem_cons_self).trans first.symm)
      rw [List.cons_append] at later
      cases found.symm.trans later
      rw [List.cons_append, List.cons_append, merged, first, byteCount_cons c, Nat.add_assoc]

/-- Digits are one lexeme, up to the first other character. -/
theorem scanFrom_digits {start : Nat} {ds rest : List Char} (spelled : ds ≠ [])
    (digits : ∀ d ∈ ds, d.isDigit = true) (apart : ∀ d ∈ rest.head?, d.isDigit = false) :
    scanFrom start (ds ++ rest) =
      ⟨some .number, ds, start⟩ :: scanFrom (start + byteCount ds) rest := by
  refine scanFrom_run spelled rfl (fun d member => ofChar?_of_isDigit (digits d member)) ?_
  intro d follows number
  cases (apart d follows).symm.trans (isDigit_of_ofChar? number)

/-- A lexeme is of the kind of one of the characters, and only blanks and digits come in runs. -/
theorem lexeme_of_scanFrom {start : Nat} {cs : List Char} {l : Lexeme (Option TokenKind)}
    (member : l ∈ scanFrom start cs) : (∃ c ∈ cs, TokenKind.ofChar? c = l.kind) ∧
      (merges l.kind = false → ∃ c, l.text = [c] ∧ TokenKind.ofChar? c = l.kind) := by
  induction cs generalizing start l with
  | nil => cases member
  | cons c cs ih =>
    have single : ∀ {l}, l ∈ scanFrom (start + c.utf8Size) cs →
        (∃ d ∈ c :: cs, TokenKind.ofChar? d = l.kind) ∧
          (merges l.kind = false → ∃ d, l.text = [d] ∧ TokenKind.ofChar? d = l.kind) := by
      intro l later
      obtain ⟨⟨d, held, kind⟩, text⟩ := ih later
      exact ⟨⟨d, List.mem_cons_of_mem _ held, kind⟩, text⟩
    rw [scanFrom] at member
    split at member
    · obtain rfl := List.mem_singleton.mp member
      exact ⟨⟨c, List.mem_cons_self, rfl⟩, fun _ => ⟨c, rfl, rfl⟩⟩
    · rename_i next rest found
      rw [found] at single
      split at member
      · rename_i merging
        rcases List.mem_cons.mp member with rfl | later
        · exact ⟨⟨c, List.mem_cons_self, rfl⟩, fun solid => by simp [merging.1] at solid⟩
        · exact single (List.mem_cons_of_mem _ later)
      · rcases List.mem_cons.mp member with rfl | later
        · exact ⟨⟨c, List.mem_cons_self, rfl⟩, fun _ => ⟨c, rfl, rfl⟩⟩
        · exact single later

/-! ### Tokens -/

theorem tokensOf_total (ls : List (Lexeme (Option TokenKind)))
    (known : ∀ l ∈ ls, l.kind.isSome = true) : ∃ tokens, tokensOf ls = .ok tokens := by
  induction ls with
  | nil => exact ⟨[], rfl⟩
  | cons l ls ih =>
    obtain ⟨tokens, later⟩ := ih fun m member => known m (List.mem_cons_of_mem _ member)
    obtain ⟨kind | kind, text, start⟩ := l
    · cases known _ List.mem_cons_self
    · exact ⟨⟨kind, text, start⟩ :: tokens, by rw [tokensOf, later]; rfl⟩

theorem mem_of_tokensOf {ls : List (Lexeme (Option TokenKind))} {tokens : List Token}
    (read : tokensOf ls = .ok tokens) {token : Token} (member : token ∈ tokens) :
    ⟨some token.kind, token.text, token.start⟩ ∈ ls := by
  induction ls generalizing tokens with
  | nil => cases read; cases member
  | cons l ls ih =>
    obtain ⟨kind | kind, text, start⟩ := l
    · cases read
    · rw [tokensOf] at read
      obtain ⟨rest, later, same⟩ := bind_eq_ok.mp read
      obtain rfl := pure_eq_ok.mp same
      rcases List.mem_cons.mp member with rfl | inside
      · exact List.mem_cons_self
      · exact List.mem_cons_of_mem _ (ih later inside)

theorem tokenize_total {cs : List Char} (known : ∀ c ∈ cs, (TokenKind.ofChar? c).isSome = true) :
    ∃ tokens, tokenize cs = .ok tokens := by
  obtain ⟨tokens, read⟩ := tokensOf_total (scan cs) fun l member => by
    obtain ⟨⟨c, held, kind⟩, _⟩ := lexeme_of_scanFrom member
    rw [← kind]
    exact known c held
  exact ⟨_, by rw [tokenize, read]; rfl⟩

/-- A letter is a token of its own. -/
theorem letter_of_tokenize {cs : List Char} {tokens : List Token} (read : tokenize cs = .ok tokens)
    {token : Token} (member : token ∈ tokens) (kind : token.kind = .letter) :
    ∃ c, token.text = [c] ∧ IsLetter c := by
  obtain ⟨all, found, same⟩ := bind_eq_ok.mp read
  obtain rfl := pure_eq_ok.mp same
  have inside := mem_of_tokensOf found (List.mem_filter.mp member).1
  obtain ⟨c, text, letter⟩ := (lexeme_of_scanFrom inside).2 (by rw [kind]; rfl)
  exact ⟨c, text, ofChar?_eq_letter.mp (letter.trans (congrArg some kind))⟩

/-- The tokens among lexemes without the blanks. -/
def visible (ls : List (Lexeme (Option TokenKind))) : Except (List Char × Nat) (List Token) :=
  return (← tokensOf ls).filter (!·.kind.isBlank)

/-- The tokens of a text that starts at the given byte. -/
def tokensFrom (start : Nat) (cs : List Char) : Except (List Char × Nat) (List Token) :=
  visible (scanFrom start cs)

theorem tokenize_eq (cs : List Char) : tokenize cs = tokensFrom 0 cs := rfl

theorem visible_blank (text : List Char) (start : Nat) (ls : List (Lexeme (Option TokenKind))) :
    visible (⟨some .blank, text, start⟩ :: ls) = visible ls := by
  rw [visible, visible, tokensOf]
  cases tokensOf ls <;> rfl

theorem visible_cons {kind : TokenKind} (solid : kind ≠ .blank) (text : List Char) (start : Nat)
    (ls : List (Lexeme (Option TokenKind))) :
    visible (⟨some kind, text, start⟩ :: ls) = (⟨kind, text, start⟩ :: ·) <$> visible ls := by
  have shown : (!kind.isBlank) = true := by simpa [TokenKind.isBlank] using solid
  rw [visible, visible, tokensOf]
  cases tokensOf ls with
  | error e => rfl
  | ok tokens =>
    show Except.ok (List.filter _ _) = Except.ok _
    rw [List.filter_cons, if_pos shown]

theorem tokensFrom_blank {c : Char} (blank : TokenKind.ofChar? c = some .blank) (start : Nat)
    (cs : List Char) : tokensFrom start (c :: cs) = tokensFrom (start + c.utf8Size) cs := by
  rw [tokensFrom, tokensFrom]
  cases cs with
  | nil =>
    rw [scanFrom_apart (by simp), blank]
    exact visible_blank _ _ _
  | cons d ds =>
    by_cases same : TokenKind.ofChar? d = TokenKind.ofChar? c
    · obtain ⟨l, ls, found, merged⟩ := scanFrom_merged start ds
        (by rw [blank]; rfl) same
      obtain ⟨k, ks, found', kind⟩ := scanFrom_head (start + c.utf8Size) d ds
      cases found.symm.trans found'
      obtain ⟨kind', text, place⟩ := l
      cases kind.trans (same.trans blank)
      rw [merged, found, blank, visible_blank, visible_blank]
    · rw [scanFrom_apart (by simpa using fun _ => same), blank]
      exact visible_blank _ _ _

/-! ### Spelling -/

/-- Wherever the text stands, it is read as tokens that fit and of which `Q` holds, unless a digit
follows. -/
def Spells (cs : List Char) (Q : List Token → Prop) : Prop :=
  ∀ start rest, (∀ d ∈ rest.head?, d.isDigit = false) →
    ∃ ts, Q ts ∧ (∀ token ∈ ts, Fits token) ∧
      tokensFrom start (cs ++ rest) = (ts ++ ·) <$> tokensFrom (start + byteCount cs) rest

namespace Spells

variable {cs ds : List Char} {Q R : List Token → Prop}

theorem imp (spells : Spells cs Q) (weaker : ∀ ts, Q ts → R ts) : Spells cs R := by
  intro start rest apart
  obtain ⟨ts, holds, fits, read⟩ := spells start rest apart
  exact ⟨ts, weaker ts holds, fits, read⟩

theorem nil : Spells [] (· = []) := by
  intro start rest _
  refine ⟨[], rfl, nofun, ?_⟩
  show tokensFrom start rest = ([] ++ ·) <$> tokensFrom start rest
  cases tokensFrom start rest <;> rfl

theorem append (spells : Spells cs Q) (later : Spells ds R)
    (apart : ∀ d ∈ ds.head?, d.isDigit = false) :
    Spells (cs ++ ds) fun ts => ∃ us vs, ts = us ++ vs ∧ Q us ∧ R vs := by
  intro start rest follows
  obtain ⟨us, holds, fits, read⟩ := spells start (ds ++ rest) (by
    cases ds with
    | nil => exact follows
    | cons d ds => exact apart)
  obtain ⟨vs, holds', fits', read'⟩ := later (start + byteCount cs) rest follows
  refine ⟨us ++ vs, ⟨us, vs, rfl, holds, holds'⟩, fun token member => ?_, ?_⟩
  · rcases List.mem_append.mp member with left | right
    · exact fits token left
    · exact fits' token right
  · rw [List.append_assoc, read, read', byteCount_append, ← Nat.add_assoc]
    cases tokensFrom (start + byteCount cs + byteCount ds) rest with
    | error e => rfl
    | ok ws => exact congrArg Except.ok (List.append_assoc us vs ws).symm

theorem blank (spells : Spells cs Q) : Spells (' ' :: cs) Q := by
  intro start rest apart
  obtain ⟨ts, holds, fits, read⟩ := spells (start + Char.utf8Size ' ') rest apart
  refine ⟨ts, holds, fits, ?_⟩
  rw [List.cons_append, tokensFrom_blank (by rfl), read, byteCount_cons, Nat.add_assoc]

theorem cons (c : Char) (kind : TokenKind) (known : TokenKind.ofChar? c = some kind)
    (solid : merges (some kind) = false) (spells : Spells cs Q) :
    Spells (c :: cs) fun ts =>
      ∃ token us, ts = token :: us ∧ token.kind = kind ∧ token.text = [c] ∧ Q us := by
  intro start rest apart
  have shown : kind ≠ .blank := by rintro rfl; cases solid
  have sized : kind ≠ .number := by rintro rfl; cases solid
  obtain ⟨us, holds, fits, read⟩ := spells (start + c.utf8Size) rest apart
  refine ⟨_, ⟨⟨kind, [c], start⟩, us, rfl, rfl, rfl, holds⟩, ?_, ?_⟩
  · exact List.forall_mem_cons.mpr ⟨fun number => absurd number sized, fits⟩
  · rw [List.cons_append, tokensFrom, scanFrom_apart (by
      intro d _ merging
      rw [known, solid] at merging
      cases merging), known, visible_cons shown, byteCount_cons, ← Nat.add_assoc]
    rw [tokensFrom] at read
    rw [read]
    cases tokensFrom (start + c.utf8Size + byteCount cs) rest <;> rfl

/-- Two texts with one character between them. -/
theorem infixed (spells : Spells cs Q) (c : Char) (kind : TokenKind)
    (known : TokenKind.ofChar? c = some kind) (solid : merges (some kind) = false)
    (later : Spells ds R) : Spells (cs ++ c :: ds) fun ts =>
      ∃ us token vs, ts = us ++ token :: vs ∧ Q us ∧ token.kind = kind ∧ R vs := by
  have noDigit : c.isDigit = false := by
    rw [Bool.eq_false_iff]
    intro digit
    cases known.symm.trans (ofChar?_of_isDigit digit)
    cases solid
  refine (spells.append (later.cons c kind known solid) (by simpa using noDigit)).imp ?_
  rintro ts ⟨us, _, rfl, holds, token, vs, rfl, same, _, holds'⟩
  exact ⟨us, token, vs, rfl, holds, same, holds'⟩

theorem digits (cs : List Char) (spelled : cs ≠ []) (digits : ∀ d ∈ cs, d.isDigit = true)
    (small : Nat.ofDigitChars 10 cs 0 < UInt64.size) :
    Spells cs fun ts => ∃ token, ts = [token] ∧ token.kind = .number ∧ token.text = cs := by
  intro start rest apart
  refine ⟨_, ⟨⟨.number, cs, start⟩, rfl, rfl, rfl⟩, ?_, ?_⟩
  · intro token member
    obtain rfl := List.mem_singleton.mp member
    exact fun _ => small
  · rw [tokensFrom, scanFrom_digits spelled digits apart, visible_cons (by decide)]
    rfl

theorem tokenize (spells : Spells cs Q) :
    ∃ ts, Q ts ∧ (∀ token ∈ ts, Fits token) ∧ tokenize cs = .ok ts := by
  obtain ⟨ts, holds, fits, read⟩ := spells 0 [] (by simp)
  rw [List.append_nil] at read
  exact ⟨ts, holds, fits, by rw [tokenize_eq, read]; show Except.ok _ = _; simp⟩

end Spells

end AlgebraEditor.Formula
