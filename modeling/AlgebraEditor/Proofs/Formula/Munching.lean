import AlgebraEditor.Proofs.Formula.Cutting
import Mathlib.Data.List.Chain

/-!
# Longest matches

Every kind of token has a pattern. A lexer that takes the longest match among the patterns, and a
single character where none matches, finds the lexemes of `scan` and no others (`lexes_iff`), and the
tokens of `tokenize` (`tokenize_of_lexes`). The lexemes make up the text, one behind the other. The
lexemes of two texts in a row are those of the one and then those of the other, unless a run goes on
from the one into the other (`scan_append_iff`).
-/

namespace AlgebraEditor.Formula

/-! ### Patterns -/

/-- The pattern of a kind: one or more blanks, one or more digits, or one of some characters. -/
inductive TokenKind.Matches : TokenKind → List Char → Prop
  | blanks {cs} (spelled : cs ≠ []) (blanks : ∀ c ∈ cs, Text.isBlank c = true) : Matches .blank cs
  | digits {cs} (spelled : cs ≠ []) (digits : ∀ c ∈ cs, c.isDigit = true) : Matches .number cs
  | letter {c} (letter : IsLetter c) : Matches .letter [c]
  | plus : Matches .plus ['+']
  | minus : Matches .minus ['-']
  | times : Matches .times ['*']
  | slash : Matches .slash ['/']
  | caret : Matches .caret ['^']
  | opening {c} (bracket : c ∈ ['(', '[', '\x7b']) : Matches .opening [c]
  | closing {c} (bracket : c ∈ [')', ']', '\x7d']) : Matches .closing [c]

/-- The pattern of the kind matches `m`, and no pattern matches more of what begins with `m`. -/
structure Longest (k : TokenKind) (m rest : List Char) : Prop where
  matched : k.Matches m
  most : ∀ (k' : TokenKind) (m' : List Char), m' <+: m ++ rest → k'.Matches m' →
    m'.length ≤ m.length

/-- The lexemes that a lexer finds in a text that starts at the given byte. It takes the longest
match, and a character that begins no match is an error of its own. -/
inductive Lexes : Nat → List Char → List (Lexeme (Option TokenKind)) → Prop
  | nil {start} : Lexes start [] []
  | token {start k m rest ls} (longest : Longest k m rest)
      (later : Lexes (start + byteCount m) rest ls) :
      Lexes start (m ++ rest) (⟨some k, m, start⟩ :: ls)
  | error {start c rest ls}
      (unmatched : ∀ (k : TokenKind) (m : List Char), m <+: c :: rest → ¬ k.Matches m)
      (later : Lexes (start + c.utf8Size) rest ls) :
      Lexes start (c :: rest) (⟨none, [c], start⟩ :: ls)

/-- No lexeme is empty, the first starts where the text does, each other one where the one before
stops, and the last stops where the text does. -/
def Tiles {κ : Type} : Nat → Nat → List (Lexeme κ) → Prop
  | start, stop, [] => start = stop
  | start, stop, l :: ls => l.start = start ∧ l.start < l.stop ∧ Tiles l.stop stop ls

/-- The token that a lexeme is, if it is one. -/
def Lexeme.token? (l : Lexeme (Option TokenKind)) : Option Token :=
  l.kind.map (⟨·, l.text, l.start⟩)

variable {start : Nat} {c : Char} {cs m rest u v : List Char} {k : TokenKind}
  {l : Lexeme (Option TokenKind)} {ls : List (Lexeme (Option TokenKind))}

theorem matches_singleton (kind : TokenKind.ofChar? c = some k) : k.Matches [c] := by
  unfold TokenKind.ofChar? at kind
  split at kind
  · rename_i blank
    cases kind
    exact .blanks (List.cons_ne_nil _ _) (List.forall_mem_singleton.mpr blank)
  · split at kind
    · rename_i digit
      cases kind
      exact .digits (List.cons_ne_nil _ _) (List.forall_mem_singleton.mpr digit)
    · split at kind
      · rename_i named
        cases kind
        exact .letter (by simpa [IsLetter] using named)
      · split at kind <;> cases kind
        all_goals constructor
        all_goals simp

/-- A pattern matches characters that begin its kind: as many as one likes if they merge, and
otherwise a single one. -/
theorem matches_iff : k.Matches cs ↔ cs ≠ [] ∧ (∀ c ∈ cs, TokenKind.ofChar? c = some k) ∧
    (merges (some k) = false → cs.length = 1) := by
  constructor
  · intro found
    cases found with
    | blanks spelled blanks =>
      exact ⟨spelled, fun c member => ofChar?_of_isBlank (blanks c member), nofun⟩
    | digits spelled digits =>
      exact ⟨spelled, fun c member => ofChar?_of_isDigit (digits c member), nofun⟩
    | letter letter => simpa using ofChar?_eq_letter.mpr letter
    | opening bracket =>
      simp only [List.mem_cons, List.not_mem_nil, or_false] at bracket
      rcases bracket with rfl | rfl | rfl <;> simp <;> rfl
    | closing bracket =>
      simp only [List.mem_cons, List.not_mem_nil, or_false] at bracket
      rcases bracket with rfl | rfl | rfl <;> simp <;> rfl
    | _ => simp; rfl
  · rintro ⟨spelled, kinds, single⟩
    cases merging : merges (some k) with
    | false =>
      obtain ⟨c, rfl⟩ := List.length_eq_one_iff.mp (single merging)
      exact matches_singleton (kinds c List.mem_cons_self)
    | true =>
      obtain rfl | rfl : k = .blank ∨ k = .number := by simpa [merges] using merging
      · exact .blanks spelled fun c member => isBlank_of_ofChar? (kinds c member)
      · exact .digits spelled fun c member => isDigit_of_ofChar? (kinds c member)

theorem longest_iff : Longest k m rest ↔ k.Matches m ∧
    (merges (some k) = true → ∀ d ∈ rest.head?, TokenKind.ofChar? d ≠ some k) := by
  constructor
  · rintro ⟨found, most⟩
    refine ⟨found, fun merging d follows kind => ?_⟩
    -- one more character of the run would match as well
    obtain ⟨spelled, kinds, -⟩ := matches_iff.mp found
    have longer : k.Matches (m ++ [d]) := matches_iff.mpr
      ⟨by simp, List.forall_mem_append.mpr ⟨kinds, List.forall_mem_singleton.mpr kind⟩,
        fun single => by rw [merging] at single; cases single⟩
    obtain ⟨others, rfl⟩ := List.head?_eq_some_iff.mp follows
    have less := most k _ ⟨others, by simp⟩ longer
    rw [List.length_append] at less
    exact Nat.not_succ_le_self _ less
  · rintro ⟨found, apart⟩
    refine ⟨found, fun k' m' begins found' => ?_⟩
    obtain ⟨spelled, kinds, -⟩ := matches_iff.mp found
    obtain ⟨spelled', kinds', single⟩ := matches_iff.mp found'
    -- both begin with the same character, so they are of one kind
    obtain ⟨c, cs, rfl⟩ := List.exists_cons_of_ne_nil spelled
    obtain ⟨c', cs', rfl⟩ := List.exists_cons_of_ne_nil spelled'
    obtain ⟨rfl, within⟩ := List.cons_prefix_cons.mp begins
    cases (kinds _ List.mem_cons_self).symm.trans (kinds' _ List.mem_cons_self)
    cases merging : merges (some k) with
    | false => simp [single merging]
    | true =>
      by_contra longer
      rcases List.prefix_or_prefix_of_prefix (List.prefix_append cs rest) within with more | less
      · obtain ⟨more, rfl⟩ := more
        obtain ⟨d, ds, rfl⟩ : ∃ d ds, more = d :: ds :=
          List.exists_cons_of_ne_nil fun none => longer (by simp [none])
        obtain ⟨others, rfl⟩ := (List.prefix_append_right_inj cs).mp within
        exact apart merging d rfl (kinds' d (by simp))
      · exact longer (Nat.succ_le_succ less.length_le)

theorem exists_longest (cs : List Char) (kind : TokenKind.ofChar? c = some k) :
    ∃ m rest, c :: cs = m ++ rest ∧ Longest k m rest := by
  cases merging : merges (some k) with
  | false =>
    refine ⟨[c], cs, rfl, longest_iff.mpr ⟨matches_singleton kind, fun merging' => ?_⟩⟩
    rw [merging] at merging'
    cases merging'
  | true =>
    have cut := List.takeWhile_append_dropWhile (p := (TokenKind.ofChar? · = some k)) (l := c :: cs)
    refine ⟨_, _, cut.symm, longest_iff.mpr ⟨matches_iff.mpr ⟨?_, ?_, ?_⟩, fun _ d follows => ?_⟩⟩
    · simp [kind]
    · exact fun d member => by simpa using List.all_eq_true.mp List.all_takeWhile d member
    · rw [merging]
      nofun
    · have stopped := List.head?_dropWhile_not (TokenKind.ofChar? · = some k) (c :: cs)
      rw [follows] at stopped
      simpa using stopped

/-! ### Lexers -/

theorem unmatched_iff : (∀ (k : TokenKind) (m : List Char), m <+: c :: rest → ¬ k.Matches m) ↔
    TokenKind.ofChar? c = none := by
  constructor
  · intro unmatched
    cases kind : TokenKind.ofChar? c with
    | none => rfl
    | some k => exact absurd (matches_singleton kind) (unmatched k [c] ⟨rest, rfl⟩)
  · intro unknown k m begins found
    obtain ⟨spelled, kinds, -⟩ := matches_iff.mp found
    obtain ⟨d, ds, rfl⟩ := List.exists_cons_of_ne_nil spelled
    obtain ⟨rfl, -⟩ := List.cons_prefix_cons.mp begins
    cases unknown.symm.trans (kinds d List.mem_cons_self)

theorem scanFrom_longest (longest : Longest k m rest) :
    scanFrom start (m ++ rest) = ⟨some k, m, start⟩ :: scanFrom (start + byteCount m) rest := by
  obtain ⟨found, apart⟩ := longest_iff.mp longest
  obtain ⟨spelled, kinds, single⟩ := matches_iff.mp found
  cases merging : merges (some k) with
  | true => exact scanFrom_run spelled merging kinds (apart merging)
  | false =>
    obtain ⟨c, rfl⟩ := List.length_eq_one_iff.mp (single merging)
    have kind := kinds c List.mem_cons_self
    rw [List.singleton_append, scanFrom_apart, kind]
    · simp [byteCount]
    · intro d _ merging'
      rw [kind, merging] at merging'
      cases merging'

theorem scanFrom_unknown (unknown : TokenKind.ofChar? c = none) :
    scanFrom start (c :: rest) = ⟨none, [c], start⟩ :: scanFrom (start + c.utf8Size) rest := by
  rw [scanFrom_apart, unknown]
  intro d _ merging
  rw [unknown] at merging
  cases merging

theorem lexes_scanFrom (start : Nat) (cs : List Char) : Lexes start cs (scanFrom start cs) := by
  induction length : cs.length using Nat.strongRecOn generalizing start cs with
  | ind n ih =>
    subst length
    cases cs with
    | nil => exact .nil
    | cons c cs =>
      cases kind : TokenKind.ofChar? c with
      | none =>
        rw [scanFrom_unknown kind]
        exact .error (unmatched_iff.mpr kind) (ih cs.length (Nat.lt_succ_self _) _ cs rfl)
      | some k =>
        obtain ⟨m, rest, cut, longest⟩ := exists_longest cs kind
        have spelled := List.length_pos_iff.mpr (matches_iff.mp longest.matched).1
        have less := congrArg List.length cut
        rw [List.length_append] at less
        rw [cut, scanFrom_longest longest]
        exact .token longest (ih rest.length (by omega) _ rest rfl)

/-- There is one way to take longest matches, and `scan` does so. -/
theorem lexes_iff : Lexes start cs ls ↔ ls = scanFrom start cs := by
  constructor
  · intro lexes
    induction lexes with
    | nil => rfl
    | token longest _ ih => rw [scanFrom_longest longest, ih]
    | error unmatched _ ih => rw [scanFrom_unknown (unmatched_iff.mp unmatched), ih]
  · rintro rfl
    exact lexes_scanFrom start cs

/-! ### One behind the other -/

theorem Abut.tiles {κ : Type} {start : Nat} {ls : List (Lexeme κ)} (abut : Abut start ls)
    (spelled : ∀ l ∈ ls, l.text ≠ []) : Tiles start (start + byteCount (ls.flatMap (·.text))) ls := by
  induction ls generalizing start with
  | nil => rfl
  | cons l ls ih =>
    obtain ⟨begins, later⟩ := abut
    obtain ⟨first, others⟩ := List.forall_mem_cons.mp spelled
    refine ⟨begins, Lexeme.start_lt_stop first, ?_⟩
    rw [List.flatMap_cons, byteCount_append, ← Nat.add_assoc, ← begins]
    exact ih later others

theorem kind_last_scanFrom :
    (scanFrom start cs).getLast?.map (·.kind) = cs.getLast?.map TokenKind.ofChar? := by
  induction cs generalizing start with
  | nil => rfl
  | cons c cs ih =>
    cases cs with
    | nil => rfl
    | cons d ds =>
      have later := @ih (start + c.utf8Size)
      rw [List.getLast?_cons_cons, ← later]
      by_cases same : merges (TokenKind.ofChar? c) = true ∧ TokenKind.ofChar? d = TokenKind.ofChar? c
      · obtain ⟨next, rest, found, merged⟩ := scanFrom_merged start ds same.1 same.2
        rw [merged, found]
        cases rest with
        | nil =>
          obtain ⟨_, _, found', kind⟩ := scanFrom_head (start + c.utf8Size) d ds
          cases found.symm.trans found'
          simp [kind, same.2]
        | cons _ _ => rfl
      · rw [scanFrom_apart (by simpa using same)]
        obtain ⟨next, rest, found, -⟩ := scanFrom_head (start + c.utf8Size) d ds
        rw [found]
        rfl

/-- No two neighbours could have been one lexeme. -/
theorem isChain_scanFrom (start : Nat) (cs : List Char) :
    (scanFrom start cs).IsChain fun l l' => ¬ (merges l.kind = true ∧ l'.kind = l.kind) := by
  induction cs generalizing start with
  | nil => exact .nil
  | cons c cs ih =>
    have later := ih (start + c.utf8Size)
    rw [scanFrom]
    split
    · exact .singleton _
    · rename_i next rest found
      rw [found] at later
      split
      · rename_i merging
        cases later with
        | singleton => exact .singleton _
        | cons_cons apart chain => exact .cons_cons (by rwa [merging.2] at apart) chain
      · rename_i apart
        exact .cons_cons apart later

/-! ### Two texts in a row -/

theorem scan_append_iff : scan (u ++ v) = scan u ++ (scan v).map (·.moved (byteCount u)) ↔
    ∀ c ∈ u.getLast?, ∀ d ∈ v.head?,
      ¬ (c.isDigit = true ∧ d.isDigit = true) ∧
        ¬ (Text.isBlank c = true ∧ Text.isBlank d = true) := by
  have moved := scanFrom_add 0 (byteCount u) v
  rw [scan, scan, scan, ← moved]
  constructor
  · intro cut c last d follows
    rw [← not_or, ← merges_ofChar?]
    obtain ⟨ds, rfl⟩ := List.head?_eq_some_iff.mp follows
    obtain ⟨l, ls, found, kind⟩ := scanFrom_head (0 + byteCount u) d ds
    have kind' := @kind_last_scanFrom 0 u
    rw [Option.mem_def.mp last, Option.map_some, Option.map_eq_some_iff] at kind'
    obtain ⟨l', last', kind'⟩ := kind'
    have chain := isChain_scanFrom 0 (u ++ d :: ds)
    rw [cut, found, List.isChain_append] at chain
    rw [← kind, ← kind']
    exact chain.2.2 l' last' l rfl
  · intro apart
    refine scanFrom_append fun c last d follows => ?_
    rw [merges_ofChar?, not_or]
    exact apart c last d follows

/-! ### Tokens -/

theorem tokensOf_eq (ls : List (Lexeme (Option TokenKind))) :
    tokensOf ls = match ls.find? (·.kind.isNone) with
      | some l => .error (l.text, l.start)
      | none => .ok (ls.filterMap Lexeme.token?) := by
  induction ls with
  | nil => rfl
  | cons l ls ih =>
    obtain ⟨kind | kind, text, start⟩ := l
    · rfl
    · rw [tokensOf, ih, List.find?_cons_of_neg (by simp)]
      cases ls.find? (·.kind.isNone) <;> rfl

/-- Every lexer that takes longest matches gives the tokens of a text, so what is stated about them
does not depend on how `scan` finds them. -/
theorem tokenize_of_lexes {lex : List Char → List (Lexeme (Option TokenKind))}
    (lexes : ∀ cs, Lexes 0 cs (lex cs)) (cs : List Char) :
    tokenize cs = (tokensOf (lex cs)).map (List.filter (!·.kind.isBlank)) := by
  rw [lexes_iff.mp (lexes cs)]
  rfl

/-- A lexer that takes longest matches cuts every text into lexemes that lie one behind the other
and make it up, none of them empty, with no two numbers and no two blanks side by side. It may be
used on the pieces of a text if and only if the text is not cut within a run. The tokens of a text
are those lexemes that are not blank, and the first error stands alone. -/
theorem lexer_tiles_and_appends {lex : List Char → List (Lexeme (Option TokenKind))}
    (lexes : ∀ cs, Lexes 0 cs (lex cs)) :
    (∀ cs, Tiles 0 (byteCount cs) (lex cs) ∧ (lex cs).flatMap (·.text) = cs ∧
      (∀ l ∈ lex cs, l.text ≠ [] ∧ ∃ u w, cs = u ++ l.text ++ w ∧
        l.start = byteCount u ∧ l.stop = byteCount (u ++ l.text)) ∧
      (lex cs).IsChain fun l l' => ¬ (l.kind = some .number ∧ l'.kind = some .number) ∧
        ¬ (l.kind = some .blank ∧ l'.kind = some .blank)) ∧
    (∀ u v, lex (u ++ v) = lex u ++ (lex v).map (·.moved (byteCount u)) ↔
      ∀ c ∈ u.getLast?, ∀ d ∈ v.head?, ¬ (c.isDigit = true ∧ d.isDigit = true) ∧
        ¬ (Text.isBlank c = true ∧ Text.isBlank d = true)) ∧
    ∀ cs, tokenize cs = match (lex cs).find? (·.kind.isNone) with
      | some l => .error (l.text, l.start)
      | none => .ok (((lex cs).filterMap Lexeme.token?).filter (!·.kind.isBlank)) := by
  have read := tokenize_of_lexes lexes
  obtain rfl : lex = scan := funext fun cs => lexes_iff.mp (lexes cs)
  refine ⟨fun cs => ⟨?_, flatMap_text_scan cs, fun l member => ?_, ?_⟩,
    fun u v => scan_append_iff, fun cs => ?_⟩
  · have tiles := (abut_scanFrom 0 cs).tiles fun l => text_of_scanFrom
    rwa [flatMap_text_scanFrom, Nat.zero_add] at tiles
  · refine ⟨text_of_scanFrom member, ?_⟩
    obtain ⟨before, after, cut⟩ := List.append_of_mem member
    have abut := abut_scanFrom 0 cs
    have whole := flatMap_text_scan cs
    rw [← scan, cut] at abut
    rw [cut] at whole
    have begins := abut.start_eq
    rw [Nat.zero_add] at begins
    exact ⟨before.flatMap (·.text), after.flatMap (·.text), by simp [← whole], begins,
      by rw [Lexeme.stop, begins, byteCount_append]⟩
  · refine (isChain_scanFrom 0 cs).imp fun l l' apart => ⟨?_, ?_⟩
    all_goals
      rintro ⟨kind, kind'⟩
      exact apart ⟨by rw [kind]; rfl, kind'.trans kind.symm⟩
  · rw [read, tokensOf_eq]
    cases (scan cs).find? (·.kind.isNone) <;> rfl

/-- The blank between `12` and `3$` takes three bytes. -/
theorem lexer_tiles_and_appends_of_scan :
    (∀ cs, Lexes 0 cs (scan cs)) ∧
    scan ['1', '2', '\u2003', '3', '$'] = [⟨some .number, ['1', '2'], 0⟩,
      ⟨some .blank, ['\u2003'], 2⟩, ⟨some .number, ['3'], 5⟩, ⟨none, ['$'], 6⟩] ∧
    Tiles 0 7 (scan ['1', '2', '\u2003', '3', '$']) ∧
    scan (['1', '2', '\u2003'] ++ ['3', '$']) =
      scan ['1', '2', '\u2003'] ++ (scan ['3', '$']).map (·.moved 5) ∧
    scan (['1'] ++ ['2']) ≠ scan ['1'] ++ (scan ['2']).map (·.moved 1) ∧
    tokenize ['1', '2', '\u2003', '3', '$'] = .error (['$'], 6) := by
  obtain ⟨tiles, append, read⟩ := @lexer_tiles_and_appends scan (lexes_scanFrom 0)
  refine ⟨lexes_scanFrom 0, rfl, (tiles ['1', '2', '\u2003', '3', '$']).1,
    (append ['1', '2', '\u2003'] ['3', '$']).mpr ?_, fun cut => ?_, read _⟩
  · rintro c ⟨⟩ d ⟨⟩
    exact ⟨by decide, by decide⟩
  · exact ((append ['1'] ['2']).mp cut '1' rfl '2' rfl).1 ⟨rfl, rfl⟩

end AlgebraEditor.Formula
