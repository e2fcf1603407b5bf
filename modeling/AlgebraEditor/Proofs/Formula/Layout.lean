import AlgebraEditor.Proofs.Formula.Cutting
import AlgebraEditor.Proofs.Formula.Likeness

/-!
# Blanks and bracket styles

Blanks anywhere but between two digits and the style of brackets make no difference to what a text
is read as: the expression is the same, or the same is blamed. So it is for any lexer that takes
longest matches (`tokenize_of_lexes`).
-/

namespace AlgebraEditor.Formula

variable {c d : Char} {cs ds u v w : List Char} {start place count : Nat} {t t' : Token}
  {ts ts' us : List Token} {l l' : Lexeme (Option TokenKind)}

/-! ### Blanks -/

/-- Where the span lies when so many bytes have been put in at `place`. What starts there is moved,
and what stops there is not; an empty span is where something stops. -/
def Span.widened (place count : Nat) (s : Span) : Span where
  start := if s.start < place ∨ s.start = s.stop ∧ s.stop ≤ place then s.start else s.start + count
  stop := if s.stop ≤ place then s.stop else s.stop + count

theorem Span.widened_before {start stop : Nat} (before : start < place) (ends : stop ≤ place) :
    (Span.mk start stop).widened place count = ⟨start, stop⟩ := by
  rw [widened, if_pos (.inl before), if_pos ends]

theorem Span.widened_behind {start stop : Nat} (behind : place ≤ start) (ends : place < stop) :
    (Span.mk start stop).widened place count = ⟨start + count, stop + count⟩ := by
  have moves : ¬ (start < place ∨ start = stop ∧ stop ≤ place) := by omega
  rw [widened, if_neg moves, if_neg (Nat.not_le.mpr ends)]

/-- Where something stopped that stops at the given byte. -/
theorem Span.widened_empty (stop : Nat) : (Span.mk stop stop).widened place count =
    ⟨if stop ≤ place then stop else stop + count, if stop ≤ place then stop else stop + count⟩ := by
  by_cases stays : stop ≤ place
  · rw [widened, if_pos (.inr ⟨rfl, stays⟩), if_pos stays]
  · have moves : ¬ (stop < place ∨ stop = stop ∧ stop ≤ place) := by omega
    rw [widened, if_neg moves, if_neg stays]

theorem stop_le (read : tokenize cs = .ok ts) (member : t ∈ ts) : t.stop ≤ byteCount cs := by
  obtain ⟨x, y, z, rfl, -, stop⟩ := covers_of_token read member
  rw [stop, byteCount_append (x ++ y)]
  exact Nat.le_add_right _ _

theorem lastStop_eq (ts : List Token) : lastStop ts = (ts.map (·.stop)).getLast?.getD 0 := by
  rw [lastStop, List.getLast?_map]

theorem lastStop_le (read : tokenize cs = .ok ts) : lastStop ts ≤ byteCount cs := by
  rw [lastStop]
  cases last : ts.getLast? with
  | none => exact Nat.zero_le _
  | some t => exact stop_le read (List.mem_of_getLast? last)

/-- The error is the same, and its span is where the blamed piece is now. -/
def Widened (place count : Nat) (e e' : ParseError) : Prop :=
  e' = ⟨e.cause, e.span.widened place count⟩

/-- How a token is found again: the ones in front of the blanks are where they were. -/
inductive Shifted (place count last : Nat) : Token → Token → Prop
  | before {t : Token} : t.start < place → t.stop ≤ place → Shifted place count last t t
  | behind {t : Token} : place ≤ t.start → place < t.stop → place < last →
      Shifted place count last t (t.moved count)

theorem Shifted.like {last : Nat} (shifted : Shifted place count last t t') : Like t t' := by
  cases shifted with
  | before => exact ⟨rfl, fun _ => rfl⟩
  | behind => exact ⟨rfl, fun _ => rfl⟩

/-- Where the last token of two pieces stops, if the later piece has any tokens. -/
theorem exists_lastStop (ts : List Token) (some : us ≠ []) :
    ∃ x ∈ us, ∀ count, lastStop (ts ++ us.map (·.moved count)) = x.stop + count := by
  refine ⟨us.getLast some, List.getLast_mem some, fun count => ?_⟩
  rw [lastStop_eq, List.map_append, List.map_map, List.getLast?_append, List.getLast?_map,
    List.getLast?_eq_some_getLast some]
  exact Lexeme.stop_moved count (us.getLast some)

/-- From a token to the last one. -/
theorem Shifted.widened {last : Nat} (shifted : Shifted place count last t t') :
    (Span.mk t.start last).widened place count =
      ⟨t'.start, if last ≤ place then last else last + count⟩ := by
  cases shifted with
  | before early => rw [Span.widened, if_pos (.inl early)]
  | behind late _ short =>
    rw [Span.widened_behind late short, if_neg (Nat.not_le.mpr short)]
    rfl

theorem shifted_pieces (first : tokenize u = .ok ts) (second : tokenize v = .ok us) (count : Nat) :
    List.Forall₂ (Shifted (byteCount u) count (lastStop (ts ++ us.map (·.moved (byteCount u)))))
      (ts ++ us.map (·.moved (byteCount u))) (ts ++ us.map (·.moved (byteCount u + count))) := by
  refine List.rel_append (List.forall₂_same.mpr fun t member => ?_) ?_
  · have stop := stop_le first member
    exact .before ((start_lt_stop first member).trans_le stop) stop
  · rw [List.forall₂_map_left_iff, List.forall₂_map_right_iff, List.forall₂_same]
    intro t member
    obtain ⟨x, inside, last⟩ := exists_lastStop ts (List.ne_nil_of_mem member)
    have positive := start_lt_stop second member
    have positive' := start_lt_stop second inside
    have twice : t.moved (byteCount u + count) = (t.moved (byteCount u)).moved count :=
      congrArg (Lexeme.mk t.kind t.text) (Nat.add_assoc _ _ _).symm
    rw [twice]
    refine .behind (Nat.le_add_left _ _) ?_ ?_
    · rw [Lexeme.stop_moved]
      omega
    · rw [last]
      omega

theorem lastStop_pieces (first : tokenize u = .ok ts) (second : tokenize v = .ok us) (count : Nat) :
    lastStop (ts ++ us.map (·.moved (byteCount u + count))) =
      if lastStop (ts ++ us.map (·.moved (byteCount u))) ≤ byteCount u then
        lastStop (ts ++ us.map (·.moved (byteCount u)))
      else lastStop (ts ++ us.map (·.moved (byteCount u))) + count := by
  by_cases none : us = []
  · subst none
    rw [List.map_nil, List.map_nil, List.append_nil, if_pos (lastStop_le first)]
  · obtain ⟨x, inside, last⟩ := exists_lastStop ts none
    have positive := start_lt_stop second inside
    rw [last, last, if_neg (by omega), Nat.add_assoc]

theorem known_of_blank (blanks : ∀ c ∈ w, Text.isBlank c = true) :
    ∀ c ∈ w, (TokenKind.ofChar? c).isSome = true := by
  intro c member
  rw [ofChar?_of_isBlank (blanks c member)]
  rfl

theorem known_of_not_unknown (known : ¬ ∃ c ∈ cs, TokenKind.ofChar? c = none) :
    ∀ c ∈ cs, (TokenKind.ofChar? c).isSome = true := fun c member =>
  Option.isSome_iff_ne_none.mpr fun none => known ⟨c, member, none⟩

/-- Blanks between no digits leave what is read as it is, and only move what is blamed. -/
theorem parse_blanks
    (apart : ∀ c ∈ u.getLast?, ∀ d ∈ v.head?, ¬ (c.isDigit = true ∧ d.isDigit = true))
    (blanks : ∀ c ∈ w, Text.isBlank c = true) :
    Agree (Widened (byteCount u) (byteCount w)) (parse (u ++ v)) (parse (u ++ w ++ v)) := by
  by_cases unknown : ∃ c ∈ u, TokenKind.ofChar? c = none
  · obtain ⟨x, c, y, rfl, known, unknown⟩ := exists_first_unknown unknown
    have size := byteCount_append (x ++ [c]) y
    have less := byteCount_append x [c]
    have positive := c.utf8Size_pos
    rw [List.append_assoc, List.singleton_append] at size
    rw [byteCount_cons] at less
    rw [List.append_assoc, List.append_assoc, List.append_assoc, List.cons_append, List.cons_append,
      parse_of_unknown known unknown, parse_of_unknown known unknown]
    refine .error ?_
    rw [Widened, Span.widened_before (by omega) (by omega)]
  have known := known_of_not_unknown unknown
  by_cases unknown' : ∃ c ∈ v, TokenKind.ofChar? c = none
  · obtain ⟨x, c, y, rfl, known', unknown'⟩ := exists_first_unknown unknown'
    have first : ∀ c ∈ u ++ x, (TokenKind.ofChar? c).isSome = true :=
      List.forall_mem_append.mpr ⟨known, known'⟩
    have second : ∀ c ∈ u ++ w ++ x, (TokenKind.ofChar? c).isSome = true :=
      List.forall_mem_append.mpr ⟨List.forall_mem_append.mpr ⟨known, known_of_blank blanks⟩, known'⟩
    have positive := c.utf8Size_pos
    rw [← List.append_assoc, ← List.append_assoc, parse_of_unknown first unknown',
      parse_of_unknown second unknown']
    refine .error ?_
    simp only [byteCount_append, byteCount_cons]
    rw [Widened, Span.widened_behind (by omega) (by omega)]
    congr 2 <;> omega
  have known' := known_of_not_unknown unknown'
  obtain ⟨ts, first⟩ := tokenize_total known
  obtain ⟨us, second⟩ := tokenize_total known'
  obtain ⟨whole, parted⟩ := tokenize_pieces apart blanks first second
  have ended := lastStop_pieces first second (byteCount w)
  refine parse_agree whole parted Shifted.like (shifted_pieces first second (byteCount w))
    (fun shifted => ?_) (fun shifted => ?_) (fun shifted => ?_) ?_
  · cases shifted with
    | before early stop => rw [Widened, Span.widened_before early stop]
    | behind late stop => rw [Widened, Span.widened_behind late stop, Lexeme.stop_moved]; rfl
  · cases shifted with
    | before early stop => rw [Widened, Span.widened_before early stop]
    | behind late stop => rw [Widened, Span.widened_behind late stop, Lexeme.stop_moved]; rfl
  · rw [Widened, ended, shifted.widened]
  · rw [Widened, ended, Span.widened_empty]

/-! ### Bracket styles -/

/-- The same character, or a bracket of the same side in any style. -/
inductive Restyled : Char → Char → Prop
  | same (c : Char) : Restyled c c
  | opening {c d : Char} : c ∈ ['(', '[', '\x7b'] → d ∈ ['(', '[', '\x7b'] → Restyled c d
  | closing {c d : Char} : c ∈ [')', ']', '\x7d'] → d ∈ [')', ']', '\x7d'] → Restyled c d

theorem ofChar?_of_opening (opening : c ∈ ['(', '[', '\x7b']) :
    TokenKind.ofChar? c = some .opening ∧ c.utf8Size = 1 := by
  simp only [List.mem_cons, List.not_mem_nil, or_false] at opening
  rcases opening with rfl | rfl | rfl <;> decide

theorem ofChar?_of_closing (closing : c ∈ [')', ']', '\x7d']) :
    TokenKind.ofChar? c = some .closing ∧ c.utf8Size = 1 := by
  simp only [List.mem_cons, List.not_mem_nil, or_false] at closing
  rcases closing with rfl | rfl | rfl <;> decide

namespace Restyled

theorem kind (restyled : Restyled c d) : TokenKind.ofChar? d = TokenKind.ofChar? c := by
  cases restyled with
  | same => rfl
  | opening first second =>
    rw [(ofChar?_of_opening first).1, (ofChar?_of_opening second).1]
  | closing first second =>
    rw [(ofChar?_of_closing first).1, (ofChar?_of_closing second).1]

theorem utf8Size (restyled : Restyled c d) : d.utf8Size = c.utf8Size := by
  cases restyled with
  | same => rfl
  | opening first second =>
    rw [(ofChar?_of_opening first).2, (ofChar?_of_opening second).2]
  | closing first second =>
    rw [(ofChar?_of_closing first).2, (ofChar?_of_closing second).2]

/-- What is no bracket stays what it is. -/
theorem eq (restyled : Restyled c d) (opens : TokenKind.ofChar? c ≠ some .opening)
    (closes : TokenKind.ofChar? c ≠ some .closing) : d = c := by
  cases restyled with
  | same => rfl
  | opening first => exact absurd (ofChar?_of_opening first).1 opens
  | closing first => exact absurd (ofChar?_of_closing first).1 closes

theorem byteCount (restyled : List.Forall₂ Restyled cs ds) : byteCount ds = byteCount cs := by
  induction restyled with
  | nil => rfl
  | cons first _ ih => rw [byteCount_cons, byteCount_cons, first.utf8Size, ih]

theorem known (restyled : List.Forall₂ Restyled cs ds)
    (known : ∀ c ∈ cs, (TokenKind.ofChar? c).isSome = true) :
    ∀ d ∈ ds, (TokenKind.ofChar? d).isSome = true := by
  induction restyled with
  | nil => exact nofun
  | cons first _ ih =>
    obtain ⟨head, tail⟩ := List.forall_mem_cons.mp known
    exact List.forall_mem_cons.mpr ⟨first.kind ▸ head, ih tail⟩

/-- A cut in front of a character is one in the other text. -/
theorem exists_cut (restyled : List.Forall₂ Restyled (u ++ c :: w) ds) :
    ∃ u' d w', ds = u' ++ d :: w' ∧ List.Forall₂ Restyled u u' ∧ Restyled c d := by
  induction u generalizing ds with
  | nil =>
    obtain ⟨d, w', first, _, rfl⟩ := List.forall₂_cons_left_iff.mp restyled
    exact ⟨[], d, w', rfl, .nil, first⟩
  | cons b u ih =>
    obtain ⟨e, ds, first, later, rfl⟩ := List.forall₂_cons_left_iff.mp restyled
    obtain ⟨u', d, w', rfl, before, here⟩ := ih later
    exact ⟨e :: u', d, w', rfl, .cons first before, here⟩

end Restyled

/-- The lexeme with its bracket in another style, if it is one. -/
structure Lexeme.Restyled (l l' : Lexeme (Option TokenKind)) : Prop where
  kind : l'.kind = l.kind
  start : l'.start = l.start
  text : List.Forall₂ Formula.Restyled l.text l'.text
  plain : l.kind ≠ some .opening → l.kind ≠ some .closing → l'.text = l.text

theorem Restyled.lexeme (restyled : Restyled c d) (start : Nat) :
    Lexeme.Restyled ⟨TokenKind.ofChar? c, [c], start⟩ ⟨TokenKind.ofChar? d, [d], start⟩ where
  kind := restyled.kind
  start := rfl
  text := .cons restyled .nil
  plain opens closes := congrArg (· :: []) (restyled.eq opens closes)

theorem scanFrom_restyled (restyled : List.Forall₂ Restyled cs ds) (start : Nat) :
    List.Forall₂ Lexeme.Restyled (scanFrom start cs) (scanFrom start ds) := by
  induction restyled generalizing start with
  | nil => exact .nil
  | @cons c d cs ds first _ ih =>
    have later := ih (start + c.utf8Size)
    rw [scanFrom, scanFrom, first.utf8Size]
    generalize scanFrom (start + c.utf8Size) cs = ls, scanFrom (start + c.utf8Size) ds = ls' at later
    cases later with
    | nil => exact .cons (first.lexeme start) .nil
    | @cons next next' rest rest' same others =>
      dsimp only
      rw [same.kind, first.kind]
      by_cases merging : merges (TokenKind.ofChar? c) = true ∧ next.kind = TokenKind.ofChar? c
      · -- only blanks and digits merge, which are no brackets
        rw [if_pos merging, if_pos merging]
        have opens : TokenKind.ofChar? c ≠ some .opening := fun kind => by
          rw [kind] at merging; cases merging.1
        have closes : TokenKind.ofChar? c ≠ some .closing := fun kind => by
          rw [kind] at merging; cases merging.1
        refine .cons ⟨rfl, rfl, .cons first same.text, fun _ _ => ?_⟩ others
        rw [first.eq opens closes, same.plain (merging.2 ▸ opens) (merging.2 ▸ closes)]
      · rw [if_neg merging, if_neg merging, ← first.kind]
        exact .cons (first.kind ▸ first.lexeme start) (.cons same others)

/-- The token with its bracket in another style, if it is one. -/
def TokenRestyled (t t' : Token) : Prop :=
  Lexeme.Restyled ⟨some t.kind, t.text, t.start⟩ ⟨some t'.kind, t'.text, t'.start⟩

namespace TokenRestyled

theorem like (restyled : TokenRestyled t t') : Like t t' where
  kind := Option.some.inj restyled.kind
  text spelled := by
    refine restyled.plain (fun kind => ?_) fun kind => ?_
    all_goals
      rw [Option.some.inj kind] at spelled
      simp at spelled

theorem stop (restyled : TokenRestyled t t') : t'.stop = t.stop := by
  rw [Lexeme.stop, Lexeme.stop, Restyled.byteCount restyled.text]
  exact congrArg (· + _) restyled.start

theorem lastStop (restyled : List.Forall₂ TokenRestyled ts ts') : lastStop ts' = lastStop ts := by
  have stops : ts'.map (·.stop) = ts.map (·.stop) := by
    induction restyled with
    | nil => rfl
    | cons first _ ih => rw [List.map_cons, List.map_cons, first.stop, ih]
  rw [lastStop_eq, lastStop_eq, stops]

end TokenRestyled

theorem visible_restyled {ls ls' : List (Lexeme (Option TokenKind))}
    (restyled : List.Forall₂ Lexeme.Restyled ls ls') (read : visible ls = .ok ts) :
    ∃ ts', visible ls' = .ok ts' ∧ List.Forall₂ TokenRestyled ts ts' := by
  induction restyled generalizing ts with
  | nil =>
    cases read
    exact ⟨[], rfl, .nil⟩
  | @cons l l' ls ls' first _ ih =>
    obtain ⟨kind | kind, text, start⟩ := l
    · cases read
    · obtain ⟨kind', text', start'⟩ := l'
      obtain rfl : kind' = some kind := first.kind
      by_cases blank : kind = .blank
      · subst blank
        rw [visible_blank] at read ⊢
        exact ih read
      · obtain ⟨us, later, rfl⟩ := (visible_cons_eq_ok blank).mp read
        obtain ⟨us', later', others⟩ := ih later
        exact ⟨_, (visible_cons_eq_ok blank).mpr ⟨us', later', rfl⟩, .cons first others⟩

/-- The cause is the same, but for the style of a bracket that it names. -/
inductive CauseRestyled : ParseCause → ParseCause → Prop
  | same (cause : ParseCause) : CauseRestyled cause cause
  | unexpectedToken {cs ds : List Char} : List.Forall₂ Restyled cs ds →
      CauseRestyled (.unexpectedToken cs) (.unexpectedToken ds)

/-- The error is of the same kind and about the same bytes. -/
def ErrorRestyled (e e' : ParseError) : Prop := CauseRestyled e.cause e'.cause ∧ e'.span = e.span

/-- The style of brackets makes no difference to what is read, nor to what is blamed. -/
theorem parse_restyled (restyled : List.Forall₂ Restyled cs ds) :
    Agree ErrorRestyled (parse cs) (parse ds) := by
  by_cases unknown : ∃ c ∈ cs, TokenKind.ofChar? c = none
  · obtain ⟨u, c, w, rfl, known, unknown⟩ := exists_first_unknown unknown
    obtain ⟨u', d, w', rfl, before, here⟩ := Restyled.exists_cut restyled
    obtain rfl := here.eq (by rw [unknown]; nofun) (by rw [unknown]; nofun)
    rw [parse_of_unknown known unknown, parse_of_unknown (Restyled.known before known) unknown,
      byteCount_append, byteCount_append, Restyled.byteCount before]
    exact .error ⟨.same _, rfl⟩
  have known := known_of_not_unknown unknown
  obtain ⟨ts, read⟩ := tokenize_total known
  obtain ⟨ts', read', tokens⟩ := visible_restyled (scanFrom_restyled restyled 0) read
  refine parse_agree read read' TokenRestyled.like tokens (fun same => ?_) (fun same => ?_)
    (fun same => ?_) ?_
  · exact ⟨.same _, congrArg₂ Span.mk same.start same.stop⟩
  · exact ⟨.unexpectedToken same.text, congrArg₂ Span.mk same.start same.stop⟩
  · exact ⟨.same _, congrArg₂ Span.mk same.start (TokenRestyled.lastStop tokens)⟩
  · have last := TokenRestyled.lastStop tokens
    exact ⟨.same _, congrArg₂ Span.mk last last⟩

/-- Wherever a text may be cut but between two digits, blanks that are put in leave what it is read
as: the expression is equal, or the error is of the same cause, with the same text, and blames what
was blamed, at its new place. So does writing brackets in other styles, and then what is blamed is
where it was. -/
theorem blanks_and_styles_do_not_matter :
    (∀ u v w, (∀ c ∈ u.getLast?, ∀ d ∈ v.head?, ¬ (c.isDigit = true ∧ d.isDigit = true)) →
      (∀ c ∈ w, Text.isBlank c = true) →
      ReadAlike (Widened (byteCount u) (byteCount w)) (u ++ v) (u ++ w ++ v)) ∧
    ∀ cs ds, List.Forall₂ Restyled cs ds → ReadAlike ErrorRestyled cs ds :=
  ⟨fun _ _ _ apart blanks => (parse_blanks apart blanks).readAlike,
    fun _ _ restyled => (parse_restyled restyled).readAlike⟩

/-- In `a*)` the bracket is to blame, also where a space and a wider one of three bytes stand behind
the `a`. Brackets need not even match in style. -/
theorem blanks_and_styles_do_not_matter_of_brackets :
    (∃ a b, (Edit.plantText ['a', '*', ')']).run .zero =
        .ok (.error ⟨.unexpectedToken [')'], ⟨2, 3⟩⟩) a ∧
      (Edit.plantText ['a', ' ', '\u2003', '*', ')']).run .zero =
        .ok (.error ⟨.unexpectedToken [')'], ⟨6, 7⟩⟩) b) ∧
    ∃ h k a b, (Edit.plantText ['2', '(', 'x', ')']).run .zero = .ok (.ok h) a ∧
      (Edit.plantText ['2', '[', 'x', '\x7d']).run .zero = .ok (.ok k) b ∧
      a.equalAcross b h k = .ok true := by
  obtain ⟨blanks, styles⟩ := blanks_and_styles_do_not_matter
  have wf := Arena.wellFormed_zero
  constructor
  · have refused : ∃ a, (Edit.plantText ['a', '*', ')']).run .zero =
        .ok (.error ⟨.unexpectedToken [')'], ⟨2, 3⟩⟩) a := ⟨_, rfl⟩
    obtain ⟨a, refused⟩ := refused
    have blank : ∀ c ∈ [' ', '\u2003'], Text.isBlank c = true :=
      List.forall_mem_cons.mpr ⟨rfl, List.forall_mem_singleton.mpr rfl⟩
    have spread := blanks ['a'] ['*', ')'] [' ', '\u2003'] (by simp) blank .zero .zero wf wf
    rcases spread with ⟨_, _, _, _, read, -⟩ | ⟨_, _, _, b, read, read', rfl⟩
    · cases refused.symm.trans read
    · cases refused.symm.trans read
      exact ⟨_, b, read, read'⟩
  · have accepted : ∃ h a, (Edit.plantText ['2', '(', 'x', ')']).run .zero = .ok (.ok h) a :=
      ⟨_, _, rfl⟩
    obtain ⟨h, a, accepted⟩ := accepted
    have restyled : List.Forall₂ Restyled ['2', '(', 'x', ')'] ['2', '[', 'x', '\x7d'] :=
      .cons (.same _) (.cons (.opening (by decide) (by decide))
        (.cons (.same _) (.cons (.closing (by decide) (by decide)) .nil)))
    rcases styles _ _ restyled .zero .zero wf wf with equal | ⟨_, _, _, _, read, -⟩
    · exact equal
    · cases accepted.symm.trans read

/-- Between two digits a blank does make a difference. -/
example : parse ['1', '2'] = .ok (.integer 12) ∧
    parse ['1', ' ', '2'] = .ok (.product [.integer 1, .integer 2]) := ⟨rfl, rfl⟩

end AlgebraEditor.Formula
