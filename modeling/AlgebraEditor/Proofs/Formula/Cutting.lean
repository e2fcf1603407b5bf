import AlgebraEditor.Proofs.Formula.Position
import Mathlib.Data.List.Induction

/-!
# Cutting a text

A text that is cut anywhere but between two digits has the tokens of its pieces. A piece has the same
tokens wherever it stands, so blanks between two pieces only move the tokens of the later one.
-/

namespace AlgebraEditor.Formula

variable {cs u v w : List Char} {c : Char} {start count : Nat} {t : Token} {ts us : List Token}

/-! ### Pieces of a text -/

/-- What is read in two pieces. -/
def joined {ε : Type} (x y : Except ε (List Token)) : Except ε (List Token) :=
  return (← x) ++ (← y)

theorem joined_assoc {ε : Type} (x y z : Except ε (List Token)) :
    joined (joined x y) z = joined x (joined y z) := by
  cases x with
  | error e => rfl
  | ok ts =>
    cases y with
    | error e => rfl
    | ok us =>
      cases z with
      | error e => rfl
      | ok vs => exact congrArg Except.ok (List.append_assoc ts us vs)

theorem joined_nil {ε : Type} (y : Except ε (List Token)) : joined (.ok []) y = y := by
  cases y <;> rfl

theorem visible_append (ls ls' : List (Lexeme (Option TokenKind))) :
    visible (ls ++ ls') = joined (visible ls) (visible ls') := by
  induction ls with
  | nil => exact (joined_nil _).symm
  | cons l ls ih =>
    obtain ⟨kind | kind, text, start⟩ := l
    · rfl
    · rw [List.cons_append]
      by_cases blank : kind = .blank
      · subst blank
        rw [visible_blank, visible_blank, ih]
      · rw [visible_cons blank, visible_cons blank, ih]
        cases visible ls with
        | error e => rfl
        | ok ts => cases visible ls' <;> rfl

theorem ofChar?_of_isBlank (blank : Text.isBlank c = true) : TokenKind.ofChar? c = some .blank :=
  if_pos blank

theorem isBlank_of_ofChar? (blank : TokenKind.ofChar? c = some .blank) : Text.isBlank c = true := by
  unfold TokenKind.ofChar? at blank
  split at blank
  · assumption
  · split at blank
    · cases blank
    · split at blank
      · cases blank
      · split at blank <;> cases blank

theorem merges_ofChar? {d : Char} :
    merges (TokenKind.ofChar? c) = true ∧ TokenKind.ofChar? d = TokenKind.ofChar? c ↔
      (c.isDigit = true ∧ d.isDigit = true) ∨ (Text.isBlank c = true ∧ Text.isBlank d = true) := by
  constructor
  · rintro ⟨merging, same⟩
    rcases of_decide_eq_true merging with blank | number
    · exact .inr ⟨isBlank_of_ofChar? blank, isBlank_of_ofChar? (same.trans blank)⟩
    · exact .inl ⟨isDigit_of_ofChar? number, isDigit_of_ofChar? (same.trans number)⟩
  · rintro (⟨digit, digit'⟩ | ⟨blank, blank'⟩)
    · rw [ofChar?_of_isDigit digit, ofChar?_of_isDigit digit']
      exact ⟨rfl, rfl⟩
    · rw [ofChar?_of_isBlank blank, ofChar?_of_isBlank blank']
      exact ⟨rfl, rfl⟩

/-- A text may be cut wherever no run goes on. -/
theorem scanFrom_append (apart : ∀ c ∈ u.getLast?, ∀ d ∈ v.head?,
      ¬ (merges (TokenKind.ofChar? c) = true ∧ TokenKind.ofChar? d = TokenKind.ofChar? c)) :
    scanFrom start (u ++ v) = scanFrom start u ++ scanFrom (start + byteCount u) v := by
  induction u generalizing start with
  | nil => rfl
  | cons c u ih =>
    cases u with
    | nil =>
      rw [List.singleton_append, scanFrom_apart fun d follows merging same =>
        apart c rfl d follows ⟨merging, same⟩, scanFrom_apart (by simp)]
      rfl
    | cons d ds =>
      have later := @ih (start + c.utf8Size) apart
      rw [byteCount_cons, ← Nat.add_assoc]
      by_cases same : merges (TokenKind.ofChar? c) = true ∧ TokenKind.ofChar? d = TokenKind.ofChar? c
      · obtain ⟨l, ls, found, merged⟩ := scanFrom_merged start ds same.1 same.2
        obtain ⟨l', ls', found', merged'⟩ := scanFrom_merged start (ds ++ v) same.1 same.2
        rw [List.cons_append, found', found] at later
        obtain ⟨rfl, rfl⟩ := List.cons.inj later
        rw [List.cons_append, List.cons_append, merged, merged']
        rfl
      · have apart' : ∀ ds, ∀ e ∈ (d :: ds).head?, merges (TokenKind.ofChar? c) = true →
            TokenKind.ofChar? e ≠ TokenKind.ofChar? c := by
          rintro ds e ⟨⟩ merging kind
          exact same ⟨merging, kind⟩
        rw [List.cons_append, List.cons_append, scanFrom_apart (apart' _), scanFrom_apart (apart' _),
          ← List.cons_append, later]
        rfl

/-- A text may be cut anywhere but between two digits. -/
theorem tokensFrom_append (start : Nat)
    (apart : ∀ c ∈ u.getLast?, ∀ d ∈ v.head?, ¬ (c.isDigit = true ∧ d.isDigit = true)) :
    tokensFrom start (u ++ v) =
      joined (tokensFrom start u) (tokensFrom (start + byteCount u) v) := by
  induction u using List.reverseRecOn generalizing v with
  | nil => exact (joined_nil _).symm
  | append_singleton u c ih =>
    cases blank : Text.isBlank c with
    | false =>
      have cut := @scanFrom_append (u ++ [c]) v start fun e last d follows run => by
        obtain rfl : c = e := by simpa using last
        rcases merges_ofChar?.mp run with digits | ⟨blank', -⟩
        · exact apart c last d follows digits
        · rw [blank] at blank'
          cases blank'
      rw [tokensFrom, cut, visible_append]
      rfl
    | true =>
      -- blanks at the end of the first piece may as well stand in front of the second one
      have kind := ofChar?_of_isBlank blank
      have apart' : ∀ v, ∀ e ∈ u.getLast?, ∀ d ∈ (c :: v).head?,
          ¬ (e.isDigit = true ∧ d.isDigit = true) := by
        rintro v e - d ⟨⟩ ⟨-, digit⟩
        cases kind.symm.trans (ofChar?_of_isDigit digit)
      rw [List.append_assoc, List.singleton_append, ih (apart' v), ih (apart' []), joined_assoc,
        tokensFrom_blank kind, tokensFrom_blank kind, byteCount_append, ← Nat.add_assoc]
      exact congrArg (joined _) (joined_nil _).symm

theorem tokensFrom_blanks (blanks : ∀ c ∈ w, Text.isBlank c = true) :
    tokensFrom start (w ++ cs) = tokensFrom (start + byteCount w) cs := by
  induction w generalizing start with
  | nil => rfl
  | cons c w ih =>
    obtain ⟨first, rest⟩ := List.forall_mem_cons.mp blanks
    rw [List.cons_append, tokensFrom_blank (ofChar?_of_isBlank first), ih rest, byteCount_cons,
      Nat.add_assoc]

/-! ### Moved pieces -/

/-- The lexeme, so many bytes later. -/
def Lexeme.moved {κ : Type} (count : Nat) (l : Lexeme κ) : Lexeme κ :=
  { l with start := l.start + count }

@[simp] theorem Lexeme.stop_moved {κ : Type} (count : Nat) (l : Lexeme κ) :
    (l.moved count).stop = l.stop + count := Nat.add_right_comm _ _ _

theorem scanFrom_add (start count : Nat) (cs : List Char) :
    scanFrom (start + count) cs = (scanFrom start cs).map (·.moved count) := by
  induction cs generalizing start with
  | nil => rfl
  | cons c cs ih =>
    rw [scanFrom, scanFrom, Nat.add_right_comm, ih]
    cases scanFrom (start + c.utf8Size) cs with
    | nil => rfl
    | cons next rest =>
      rw [List.map_cons]
      dsimp only [Lexeme.moved]
      by_cases merging : merges (TokenKind.ofChar? c) = true ∧ next.kind = TokenKind.ofChar? c
      · rw [if_pos merging, if_pos merging]
        rfl
      · rw [if_neg merging, if_neg merging]
        rfl

theorem visible_cons_eq_ok {kind : TokenKind} {text : List Char}
    {ls : List (Lexeme (Option TokenKind))} (solid : kind ≠ .blank) :
    visible (⟨some kind, text, start⟩ :: ls) = .ok ts ↔
      ∃ us, visible ls = .ok us ∧ ⟨kind, text, start⟩ :: us = ts := by
  rw [visible_cons solid]
  cases visible ls with
  | error e => exact ⟨nofun, nofun⟩
  | ok us =>
    constructor
    · rintro ⟨⟩
      exact ⟨us, rfl, rfl⟩
    · rintro ⟨_, ⟨⟩, rfl⟩
      rfl

theorem visible_moved {ls : List (Lexeme (Option TokenKind))} (read : visible ls = .ok ts) :
    visible (ls.map (·.moved count)) = .ok (ts.map (·.moved count)) := by
  induction ls generalizing ts with
  | nil => cases read; rfl
  | cons l ls ih =>
    obtain ⟨kind | kind, text, start⟩ := l
    · cases read
    · by_cases blank : kind = .blank
      · subst blank
        rw [visible_blank] at read
        exact (visible_blank _ _ _).trans (ih read)
      · obtain ⟨us, read', rfl⟩ := (visible_cons_eq_ok blank).mp read
        exact (visible_cons_eq_ok blank).mpr ⟨_, ih read', rfl⟩

theorem tokensFrom_of_tokenize (read : tokenize cs = .ok ts) (count : Nat) :
    tokensFrom count cs = .ok (ts.map (·.moved count)) := by
  have moved := scanFrom_add 0 count cs
  rw [Nat.zero_add] at moved
  rw [tokensFrom, moved]
  exact visible_moved read

theorem byteCount_pos (spelled : cs ≠ []) : 0 < byteCount cs := by
  obtain ⟨c, cs, rfl⟩ := List.exists_cons_of_ne_nil spelled
  exact Nat.lt_of_lt_of_le c.utf8Size_pos (Nat.le_add_right _ _)

theorem Lexeme.start_lt_stop {κ : Type} {l : Lexeme κ} (spelled : l.text ≠ []) : l.start < l.stop :=
  Nat.lt_add_of_pos_right (byteCount_pos spelled)

theorem text_of_scanFrom {l : Lexeme (Option TokenKind)} (member : l ∈ scanFrom start cs) :
    l.text ≠ [] := by
  induction cs generalizing start l with
  | nil => cases member
  | cons c cs ih =>
    rw [scanFrom] at member
    split at member
    · cases List.mem_singleton.mp member
      exact List.cons_ne_nil _ _
    · rename_i next rest found
      split at member
      all_goals
        rcases List.mem_cons.mp member with rfl | later
        · exact List.cons_ne_nil _ _
      · exact ih (found ▸ List.mem_cons_of_mem _ later)
      · exact ih (found ▸ later)

/-- No token is empty. -/
theorem start_lt_stop (read : tokenize cs = .ok ts) (member : t ∈ ts) : t.start < t.stop := by
  obtain ⟨all, found, same⟩ := bind_eq_ok.mp read
  obtain rfl := pure_eq_ok.mp same
  have inside := mem_of_tokensOf found (List.mem_filter.mp member).1
  exact Lexeme.start_lt_stop (text_of_scanFrom inside)

/-- The tokens of two pieces, and of the two with blanks between them. -/
theorem tokenize_pieces
    (apart : ∀ c ∈ u.getLast?, ∀ d ∈ v.head?, ¬ (c.isDigit = true ∧ d.isDigit = true))
    (blanks : ∀ c ∈ w, Text.isBlank c = true) (first : tokenize u = .ok ts)
    (second : tokenize v = .ok us) :
    tokenize (u ++ v) = .ok (ts ++ us.map (·.moved (byteCount u))) ∧
      tokenize (u ++ w ++ v) = .ok (ts ++ us.map (·.moved (byteCount u + byteCount w))) := by
  have whole := tokensFrom_append 0 apart
  rw [← tokenize_eq, ← tokenize_eq, first, Nat.zero_add, tokensFrom_of_tokenize second] at whole
  refine ⟨whole, ?_⟩
  cases w with
  | nil =>
    rw [List.append_nil]
    exact whole
  | cons c w =>
    -- a blank stands behind the first piece, so the cut is between no digits
    have kind := ofChar?_of_isBlank (blanks c List.mem_cons_self)
    have apart' : ∀ e ∈ u.getLast?, ∀ d ∈ (c :: w ++ v).head?,
        ¬ (e.isDigit = true ∧ d.isDigit = true) := by
      rintro e - d ⟨⟩ ⟨-, digit⟩
      cases kind.symm.trans (ofChar?_of_isDigit digit)
    have whole := tokensFrom_append 0 apart'
    rw [← tokenize_eq, ← tokenize_eq, first, Nat.zero_add, tokensFrom_blanks blanks,
      tokensFrom_of_tokenize second, ← List.append_assoc] at whole
    exact whole

end AlgebraEditor.Formula
