import AlgebraEditor.Proofs.Formula.Groups
import AlgebraEditor.Proofs.Formula.Normal
import AlgebraEditor.Proofs.Formula.Reducing

/-!
# Reading expressions into an arena

Reading an expression ends as it does token by token, and adds to the arena what it says: the
expression that is read, or, where there is a parse error, the operands that are left over from it.
Each function is followed from the arena in which it starts (`Agrees`), so that what was read before
it is added to in `Agrees.bind`. Nothing ends in a fault: brackets are nested less deep than there are
tokens, and each round of a chain consumes one.
-/

namespace AlgebraEditor

/-- Elements of terms in normal form are added. -/
structure Arena.AddsNormal (a : Arena) (ts : List Term) (xs : List Handle) (b : Arena) : Prop
    extends a.Adds ts xs b where
  normal : ∀ t ∈ ts, t.IsNormal

variable {a b d : Arena} {t u : Term} {x y : Handle} {ts us : List Term} {xs ys : List Handle}

theorem Arena.AddsNormal.trans (first : a.AddsNormal ts xs b) (second : b.AddsNormal us ys d) :
    a.AddsNormal (ts ++ us) (xs ++ ys) d where
  toAdds := first.toAdds.trans second.toAdds
  normal := List.forall_mem_append.mpr ⟨first.normal, second.normal⟩

theorem Arena.AddsNormal.refl (wf : a.WellFormed) : a.AddsNormal [] [] a :=
  ⟨.refl wf, List.forall_mem_nil _⟩

namespace Formula

open Arena

variable {tokens rest left : List Token} {token : Token} {r r' : Reader} {e : ParseError}

/-! ### Readers -/

/-- The reader stands in front of the last tokens of a text. -/
structure Reader.Faces (r : Reader) (tokens rest : List Token) : Prop where
  tokens_eq : r.tokens = tokens
  rest_eq : r.rest = rest
  cursor_le : r.cursor ≤ tokens.length

namespace Reader.Faces

theorem start (tokens : List Token) : Reader.Faces ⟨tokens, 0⟩ tokens tokens :=
  ⟨rfl, rfl, Nat.zero_le _⟩

theorem current?_eq (faces : r.Faces tokens rest) : r.current? = rest.head? := by
  rw [← faces.rest_eq, Reader.rest, List.head?_drop, current?]

theorem advance (faces : r.Faces tokens (token :: rest)) : r.advance.Faces tokens rest := by
  have behind : r.tokens.drop r.cursor = token :: rest := faces.rest_eq
  refine ⟨faces.tokens_eq, ?_, ?_⟩
  · change r.tokens.drop (r.cursor + 1) = rest
    rw [← List.tail_drop, behind, List.tail_cons]
  · have inside : r.cursor < r.tokens.length :=
      Nat.lt_of_not_le fun past => by rw [List.drop_of_length_le past] at behind; cases behind
    rw [← faces.tokens_eq]
    exact inside

theorem endSpan_eq (faces : r.Faces tokens rest) :
    r.endSpan = ⟨lastStop tokens, lastStop tokens⟩ := by
  rw [endSpan, faces.tokens_eq, lastStop]
  cases tokens.getLast? <;> rfl

theorem next_nil (faces : r.Faces tokens []) :
    r.next = .error ⟨.unexpectedEnd, ⟨lastStop tokens, lastStop tokens⟩⟩ := by
  have none : r.current? = none := faces.current?_eq
  rw [next, none]
  simp only [span, none, Option.map_none, Option.getD_none, faces.endSpan_eq]

theorem next_cons (faces : r.Faces tokens (token :: rest)) : r.next = .ok (token, r.advance) := by
  rw [next, faces.current?_eq, List.head?_cons]

theorem span_cons (faces : r.Faces tokens (token :: rest)) : r.span = tokenSpan token := by
  rw [span, faces.current?_eq]
  rfl

theorem mem_tokens (faces : r.Faces tokens rest) (member : token ∈ rest) : token ∈ tokens := by
  rw [← faces.rest_eq, Reader.rest, faces.tokens_eq] at member
  exact List.mem_of_mem_drop member

end Reader.Faces

namespace Reading

/-- Reading ends with the answer when it starts with `b`. By then, what `a` has gained is the
expression that was read, or else what a parse error leaves behind. -/
def Agrees (z : Reading Handle) (tokens : List Token) (r : Reader) (a b : Arena) :
    Except ParseError (Term × List Token) → Prop
  | .ok (t, rest) => ∃ x r' d, (z.startAt r).run b = .ok (.ok x, r') d ∧ r'.Faces tokens rest ∧
      a.AddsNormal [t] [x] d
  | .error e => ∃ r' ts xs d, (z.startAt r).run b = .ok (.error e, r') d ∧ a.AddsNormal ts xs d

variable {α : Type} {z : Reading Handle} {k : α → Reading Handle} {v : α}
  {answer : Except ParseError (Term × List Token)}

theorem agrees_throw (e : ParseError) (r : Reader) (wf : a.WellFormed) :
    (throw e : Reading Handle).Agrees tokens r a a (.error e) :=
  ⟨r, [], [], a, rfl, .refl wf⟩

/-- What is computed before does not matter once it is done. -/
theorem Agrees.after {w : Reading α} (first : (w.startAt r).run b = .ok (.ok v, r') d)
    (next : (k v).Agrees tokens r' a d answer) : (w >>= k).Agrees tokens r a b answer := by
  cases answer with
  | ok out =>
    obtain ⟨x, r'', d', run, faces, adds⟩ := next
    exact ⟨x, r'', d', by rw [run_bind_of_ok first, run], faces, adds⟩
  | error e =>
    obtain ⟨r'', ts, xs, d', run, adds⟩ := next
    exact ⟨r'', ts, xs, d', by rw [run_bind_of_ok first, run], adds⟩

/-- What is read adds to what was added before. -/
theorem Agrees.bind {k : Handle → Reading Handle}
    {f : Term × List Token → Except ParseError (Term × List Token)}
    (first : z.Agrees tokens r b b answer) (before : a.AddsNormal ts xs b)
    (next : ∀ t rest x r' d, answer = .ok (t, rest) → r'.Faces tokens rest →
      a.AddsNormal (ts ++ [t]) (xs ++ [x]) d → (k x).Agrees tokens r' a d (f (t, rest))) :
    (z >>= k).Agrees tokens r a b (answer >>= f) := by
  cases answer with
  | ok out =>
    obtain ⟨x, r', d, run, faces, adds⟩ := first
    exact Agrees.after run (next out.1 out.2 x r' d rfl faces (before.trans adds))
  | error e =>
    obtain ⟨r', us, ys, d, run, adds⟩ := first
    exact ⟨r', _, _, d, run_bind_of_error run, before.trans adds⟩

/-- One more token is consumed. -/
theorem agrees_token_cons {k : Token → Reading Handle} {t : Token} (faces : r.Faces tokens (t :: rest))
    (next : (k t).Agrees tokens r.advance a b answer) :
    (Reading.token >>= k).Agrees tokens r a b answer := by
  have consumed : (Reading.token.startAt r).run b = .ok (.ok t, r.advance) b := by
    rw [Reading.token, run_get_bind, faces.next_cons]
    rfl
  exact Agrees.after consumed next

theorem agrees_token_nil {k : Token → Reading Handle} (faces : r.Faces tokens [])
    (before : a.AddsNormal ts xs b) : (Reading.token >>= k).Agrees tokens r a b
      (.error ⟨.unexpectedEnd, ⟨lastStop tokens, lastStop tokens⟩⟩) := by
  refine ⟨r, ts, xs, b, run_bind_of_error ?_, before⟩
  rw [Reading.token, run_get_bind, faces.next_nil]
  rfl

/-! ### Atoms -/

theorem agrees_leaf {y : Edit Handle} (wf : a.WellFormed) (normal : t.IsNormal)
    (faces : r.Faces tokens rest) (builds : Edit.Builds a y t) :
    (liftM y : Reading Handle).Agrees tokens r a a (.ok (t, rest)) := by
  obtain ⟨x, d, run, adds⟩ := builds a (.refl a) wf
  exact ⟨x, r, d, run_edit run, faces, adds, List.forall_mem_singleton.mpr normal⟩

/-- Reading the bracket that closes a group. -/
theorem agrees_unbracketed (faces : r.Faces tokens rest) (adds : a.AddsNormal [t] [x] b) :
    Agrees (do
      let close ← Reading.token
      if close.kind = .closing then return x
      else throw ⟨.unexpectedToken close.text, tokenSpan close⟩) tokens r a b
      (unbracketed (lastStop tokens) (t, rest)) := by
  cases rest with
  | nil => exact agrees_token_nil faces adds
  | cons close rest =>
    refine agrees_token_cons faces ?_
    rw [unbracketed]
    by_cases closing : close.kind = .closing
    · rw [if_pos closing, if_pos closing]
      exact ⟨x, r.advance, b, rfl, faces.advance, adds⟩
    · rw [if_neg closing, if_neg closing]
      exact ⟨r.advance, [t], [x], b, rfl, adds⟩

/-- An atom is read as it is token by token, if expressions are in what follows its bracket. -/
theorem agrees_atom (wf : a.WellFormed) (spelled : ∀ token ∈ tokens, Spelled token)
    (faces : r.Faces tokens rest)
    (inner : ∀ r' left, r'.Faces tokens left → left.length < rest.length →
      z.Agrees tokens r' a a ((ParseState.initial.run left).answer (lastStop tokens))) :
    (atom z).Agrees tokens r a a (atomAnswer (lastStop tokens) rest) := by
  cases rest with
  | nil => exact agrees_token_nil faces (.refl wf)
  | cons t rest =>
    refine agrees_token_cons faces ?_
    rw [atomAnswer]
    cases kind : t.kind with
    | letter =>
      obtain ⟨c, text, letter⟩ := spelled t (faces.mem_tokens List.mem_cons_self) kind
      rw [text]
      exact agrees_leaf wf (.symbol letter) faces.advance (Edit.builds_symbol a _)
    | number =>
      dsimp only
      by_cases fits : Nat.ofDigitChars 10 t.text 0 < UInt64.size
      · rw [if_pos fits, if_pos fits]
        exact agrees_leaf wf (.integer _) faces.advance (Edit.builds_integer a _)
      · rw [if_neg fits, if_neg fits]
        exact agrees_throw _ _ wf
    | opening =>
      exact Agrees.bind (inner r.advance rest faces.advance (Nat.lt_succ_self _)) (.refl wf)
        fun u left x r' d _ faces' adds => agrees_unbracketed faces' adds
    | _ => exact agrees_throw _ _ wf

/-! ### Chains -/

/-- The sign of an expression is consumed. -/
theorem run_sign (faces : r.Faces tokens rest) : ∃ r',
    (sign.startAt r).run a = .ok (.ok (leadOf (signOf rest).1, leadSigns (signOf rest).1), r') a ∧
      r'.Faces tokens (signOf rest).2 := by
  have run : (sign.startAt r).run a = _ := run_get_bind _
  rw [faces.current?_eq] at run
  cases rest with
  | nil => exact ⟨r, run, faces⟩
  | cons t rest =>
    rw [List.head?_cons, Option.map_some] at run
    rw [signOf]
    cases kind : t.kind with
    | plus | minus =>
      rw [kind] at run
      exact ⟨r.advance, run, faces.advance⟩
    | _ =>
      rw [kind] at run
      exact ⟨r, run, faces⟩

/-- The operator in front of the next operand is consumed, if it is written. -/
theorem run_operator? (faces : r.Faces tokens rest) : match operatorOf rest with
    | none => (operator?.startAt r).run a = .ok (.ok none, r) a
    | some (op, left) => ∃ r', (operator?.startAt r).run a = .ok (.ok (some op), r') a ∧
        r'.Faces tokens left := by
  have run : (operator?.startAt r).run a = _ := run_get_bind _
  rw [faces.current?_eq] at run
  cases rest with
  | nil => exact run
  | cons t rest =>
    rw [List.head?_cons] at run
    rw [operatorOf]
    cases written : Operator.ofToken? t.kind with
    | some op =>
      simp only [written] at run
      exact ⟨r.advance, run, faces.advance⟩
    | none =>
      simp only [written] at run
      by_cases starts : t.kind.startsAtom = true
      · simp only [if_pos starts] at run ⊢
        exact ⟨r, run, faces⟩
      · simp only [if_neg starts] at run ⊢
        exact run

/-- One round of a chain, and what comes behind it. -/
theorem chain_bind (z : Reading Handle) (rounds : Nat) (operands : List Operand)
    (ops : List Operator) (k : List Operand × List Operator → Reading Handle) :
    chain z (rounds + 1) operands ops >>= k = operator? >>= fun
      | none => k (operands, ops)
      | some op => atom z >>= fun h =>
          chain z rounds (operands ++ [.element h]) (ops ++ [op]) >>= k := by
  rw [chain, bind_assoc]
  refine bind_congr fun next => ?_
  cases next with
  | none => exact pure_bind _ k
  | some op => exact bind_assoc _ _ k

/-- The operands that are read make one element. -/
def close (span : Reader → Span) (chain : List Operand × List Operator) : Reading Handle := do
  let r ← get
  reduce (span r) chain.1 chain.2

theorem agrees_close {sign : Operator} {first : Term} {items : List Item} (span : Reader → Span)
    (wf : a.WellFormed) (faces : r.Faces tokens rest)
    (adds : a.AddsNormal (first :: items.map (·.2)) (x :: xs) b) :
    (close span (leadOf sign ++ (x :: xs).map .element, leadSigns sign ++ items.map (·.1))).Agrees
      tokens r a b (.ok (Formula.reduce ((sign, first) :: items), rest)) := by
  obtain ⟨y, d, reduced, made⟩ := run_reduce (span r) r sign wf adds.toAdds
  have normal : (Formula.reduce ((sign, first) :: items)).IsNormal :=
    normal_of_reduce fun item member => adds.normal item.2 (List.mem_map_of_mem (f := (·.2)) member)
  have run := run_get_bind (r := r) (a := b) fun r => Reading.reduce (span r)
    (leadOf sign ++ (x :: xs).map .element) (leadSigns sign ++ items.map (·.1))
  exact ⟨y, r, d, run.trans reduced, faces, made, List.forall_mem_singleton.mpr normal⟩

/-- The operands of an expression, from the first one on, and what they are reduced to. -/
theorem agrees_chain (sign : Operator) (first : Term) (items : List Item) (span : Reader → Span)
    (wf : a.WellFormed) {rounds : Nat} (enough : rest.length < rounds) (faces : r.Faces tokens rest)
    (adds : a.AddsNormal (first :: items.map (·.2)) (x :: xs) b)
    (atoms : ∀ r' left d, r'.Faces tokens left → left.length ≤ rest.length → d.WellFormed →
      (atom z).Agrees tokens r' d d (atomAnswer (lastStop tokens) left)) :
    (chain z rounds (leadOf sign ++ (x :: xs).map .element) (leadSigns sign ++ items.map (·.1)) >>=
      close span).Agrees tokens r a b
        (chainAnswer (lastStop tokens) ((sign, first) :: items).reverse rest) := by
  induction rounds generalizing rest r b items xs with
  | zero => exact absurd enough (Nat.not_lt_zero _)
  | succ rounds ih =>
    have run := run_operator? (a := b) faces
    rw [chainAnswer_eq, chain_bind]
    cases next : operatorOf rest with
    | none =>
      rw [next] at run
      rw [List.reverse_reverse]
      exact Agrees.after run (agrees_close span wf faces adds)
    | some found =>
      obtain ⟨op, left⟩ := found
      rw [next] at run
      obtain ⟨r', consumed, faces'⟩ := run
      have shorter := length_operatorOf_le next
      refine Agrees.after consumed ?_
      refine Agrees.bind (atoms r' left b faces' shorter adds.wf) adds
        fun u left' h r'' d read faces'' more => ?_
      have consumed' := length_lt_of_atomAnswer read
      have longer : a.AddsNormal (first :: (items ++ [(op, u)]).map (·.2)) (x :: (xs ++ [h])) d := by
        rwa [List.map_append]
      have later := ih _ (by omega) faces'' longer fun r left d faces fewer wf' =>
        atoms r left d faces (by omega) wf'
      simpa using later

/-! ### Expressions -/

/-- The span of an expression that is read from `start` on up to a reader. -/
def spanFrom (start : Span) (r : Reader) : Span :=
  ⟨start.start, (r.tokens[r.cursor - 1]?.map (·.stop)).getD start.stop⟩

theorem expression_succ (depth : Nat) : expression (depth + 1) = get >>= fun r => sign >>= fun s =>
    atom (expression depth) >>= fun first => get >>= fun r' =>
      chain (expression depth) (r'.rest.length + 1) (s.1 ++ [.element first]) s.2 >>=
        close (spanFrom r.span) := rfl

/-- An expression is read as it is token by token. -/
theorem agrees_expression (spelled : ∀ token ∈ tokens, Spelled token) {depth : Nat}
    (wf : a.WellFormed) (faces : r.Faces tokens rest) (enough : rest.length < depth) :
    (expression depth).Agrees tokens r a a
      ((ParseState.initial.run rest).answer (lastStop tokens)) := by
  induction depth generalizing rest r a with
  | zero => exact absurd enough (Nat.not_lt_zero _)
  | succ depth ih =>
    obtain ⟨r', signed, faces'⟩ := run_sign (a := a) faces
    have shorter := length_signOf_le rest
    have atoms : ∀ r left d, r.Faces tokens left → left.length ≤ rest.length → d.WellFormed →
        (atom (expression depth)).Agrees tokens r d d (atomAnswer (lastStop tokens) left) :=
      fun r left d faces fewer wf' => agrees_atom wf' spelled faces fun r' left' faces' inner =>
        ih wf' faces' (by omega)
    rw [expression_succ, answer_initial]
    refine Agrees.after (run_get r a) (Agrees.after signed ?_)
    refine Agrees.bind (atoms r' _ a faces' shorter wf) (.refl wf)
      fun t left x r'' d read faces'' adds => Agrees.after (run_get r'' d) ?_
    have consumed := length_lt_of_atomAnswer read
    rw [faces''.rest_eq]
    have later := agrees_chain (signOf rest).1 t [] (z := expression depth) (spanFrom r.span) wf
      (Nat.lt_succ_self left.length) faces'' adds
      fun r left d faces fewer wf' => atoms r left d faces (by omega) wf'
    simpa using later

/-- Nothing may stand behind the expression. -/
theorem agrees_complete (faces : r.Faces tokens rest) (adds : a.AddsNormal [t] [x] b) :
    Agrees (do
      let r ← get
      if r.cursor = r.tokens.length then return x
      else throw ⟨.expectedEnd, ⟨r.span.start, r.endSpan.stop⟩⟩) tokens r a b
      (complete (lastStop tokens) (t, rest) >>= fun t => .ok (t, [])) := by
  refine Agrees.after (run_get r b) ?_
  have behind : r.tokens.drop r.cursor = rest := faces.rest_eq
  cases rest with
  | nil =>
    have past := List.drop_eq_nil_iff.mp behind
    rw [faces.tokens_eq] at past ⊢
    rw [if_pos (Nat.le_antisymm faces.cursor_le past)]
    exact ⟨x, r, b, rfl, faces, adds⟩
  | cons extra rest =>
    have before : r.cursor ≠ r.tokens.length := fun past => by
      rw [past, List.drop_length] at behind
      cases behind
    rw [if_neg before, faces.span_cons, faces.endSpan_eq]
    exact ⟨r, [t], [x], b, rfl, adds⟩

/-- What takes up all the tokens is read as it is token by token. -/
theorem agrees_whole (spelled : ∀ token ∈ tokens, Spelled token) (wf : a.WellFormed) :
    whole.Agrees tokens ⟨tokens, 0⟩ a a (parseTokens tokens >>= fun t => .ok (t, [])) := by
  have faces := Reader.Faces.start tokens
  rw [parseTokens, bind_assoc]
  exact Agrees.after (run_get _ a) (Agrees.bind
    (agrees_expression spelled wf faces (Nat.lt_succ_self _)) (.refl wf)
    fun t rest x r d _ faces' adds => agrees_complete faces' adds)

end Reading

theorem tokenize_of_ofText {cs : List Char} (read : Reader.ofText cs = .ok r) :
    ∃ tokens, tokenize cs = .ok tokens ∧ r = ⟨tokens, 0⟩ := by
  unfold Reader.ofText at read
  cases found : tokenize cs with
  | error e =>
    rw [found] at read
    cases read
  | ok tokens =>
    rw [found] at read
    cases read
    exact ⟨tokens, rfl, rfl⟩

/-- A text that is read is consumed, and the term that it writes is all that is added. -/
theorem run_parseAll_of_ok {cs : List Char} (wf : a.WellFormed) (parsed : parse cs = .ok t) :
    ∃ r x r' b, Reader.ofText cs = .ok r ∧ r.parseAll.run a = .ok (.ok x, r') b ∧ r'.rest = [] ∧
      a.AddsNormal [t] [x] b := by
  obtain ⟨r, read, parsed⟩ := bind_eq_ok.mp parsed
  obtain ⟨tokens, read', rfl⟩ := tokenize_of_ofText read
  have agrees := Reading.agrees_whole (fun _ member => letter_of_tokenize read' member) wf
  rw [parsed] at agrees
  obtain ⟨x, r', b, run, faces, adds⟩ := agrees
  exact ⟨_, x, r', b, read, run, faces.rest_eq, adds⟩

end Formula

namespace Edit

open Formula

variable {cs : List Char} {e : ParseError}

theorem run_plantText_of_parseAll {answer : Except ParseError Handle} {r r' : Reader}
    (read : Reader.ofText cs = .ok r) (run : r.parseAll.run a = .ok (answer, r') b) :
    (plantText cs).run a = .ok answer b := by
  rw [plantText, read]
  exact run_bind_of_ok run

/-- A text that is read adds the term that it writes, and nothing else. -/
theorem run_plantText_of_ok (wf : a.WellFormed) (parsed : parse cs = .ok t) :
    ∃ x b, (plantText cs).run a = .ok (.ok x) b ∧ a.AddsNormal [t] [x] b := by
  obtain ⟨r, x, r', b, read, run, -, adds⟩ := run_parseAll_of_ok wf parsed
  exact ⟨x, b, run_plantText_of_parseAll read run, adds⟩

/-- A text that is not read may leave terms behind. -/
theorem run_plantText_of_error (wf : a.WellFormed) (failed : parse cs = .error e) :
    ∃ ts xs b, (plantText cs).run a = .ok (.error e) b ∧ a.AddsNormal ts xs b := by
  cases read : Reader.ofText cs with
  | error e' =>
    rw [parse, read] at failed
    cases failed
    exact ⟨[], [], a, by rw [plantText, read]; rfl, .refl wf⟩
  | ok r =>
    obtain ⟨tokens, read', rfl⟩ := tokenize_of_ofText read
    have answer : parseTokens tokens = .error e := by
      rw [parse, read] at failed
      exact failed
    have agrees := Reading.agrees_whole (fun _ member => letter_of_tokenize read' member) wf
    rw [answer] at agrees
    obtain ⟨r', ts, xs, b, run, adds⟩ := agrees
    exact ⟨ts, xs, b, run_plantText_of_parseAll read run, adds⟩

/-- What reading a text into an arena ends with says what the text is. -/
theorem parse_of_run_ok (wf : a.WellFormed) (run : (plantText cs).run a = .ok (.ok x) b) :
    ∃ t, parse cs = .ok t ∧ a.AddsNormal [t] [x] b := by
  cases parsed : parse cs with
  | ok t =>
    obtain ⟨y, d, run', adds⟩ := run_plantText_of_ok wf parsed
    cases run.symm.trans run'
    exact ⟨t, rfl, adds⟩
  | error e =>
    obtain ⟨ts, xs, d, run', adds⟩ := run_plantText_of_error wf parsed
    cases run.symm.trans run'

theorem parse_of_run_error (wf : a.WellFormed) (run : (plantText cs).run a = .ok (.error e) b) :
    parse cs = .error e ∧ ∃ ts xs, a.AddsNormal ts xs b := by
  cases parsed : parse cs with
  | ok t =>
    obtain ⟨y, d, run', adds⟩ := run_plantText_of_ok wf parsed
    cases run.symm.trans run'
  | error e' =>
    obtain ⟨ts, xs, d, run', adds⟩ := run_plantText_of_error wf parsed
    cases run.symm.trans run'
    exact ⟨rfl, ts, xs, adds⟩

/-- Reading a text ends without a fault. -/
theorem plantText_total (wf : a.WellFormed) (cs : List Char) :
    ∃ answer ts xs b, (plantText cs).run a = .ok answer b ∧ a.AddsNormal ts xs b := by
  cases parsed : parse cs with
  | ok t =>
    obtain ⟨x, b, run, adds⟩ := run_plantText_of_ok wf parsed
    exact ⟨_, _, _, b, run, adds⟩
  | error e =>
    obtain ⟨ts, xs, b, run, adds⟩ := run_plantText_of_error wf parsed
    exact ⟨_, ts, xs, b, run, adds⟩

end Edit

end AlgebraEditor
