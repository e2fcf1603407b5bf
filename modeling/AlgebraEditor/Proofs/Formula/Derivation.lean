import AlgebraEditor.Proofs.Formula.Chains
import AlgebraEditor.Proofs.Formula.Stepping

/-!
# The parser and the grammar

Reading tokens one at a time finds exactly the derivations of the grammar: `parsed_iff` is the main
statement. In one direction, `Reads` says which tokens a state of the parser stands for, and every
step keeps it. In the other direction, the tokens of an atom take the parser from any state that
awaits an operand to the state behind that operand.
-/

namespace AlgebraEditor.Formula

open Grammar

theorem Atom.startsAtom (ts : List Token) (t : Term) (h : Atom ts t) : StartsAtom ts := by
  cases h with
  | letter kind => exact ⟨_, [], rfl, by rw [kind]; rfl⟩
  | number kind => exact ⟨_, [], rfl, by rw [kind]; rfl⟩
  | group kind _ _ => exact ⟨_, _, rfl, by rw [kind]; rfl⟩

/-! ### The tokens of a state -/

/-- The tokens of one or more operands, latest first, with the sign in front. -/
def Written (items : List Item) (ts : List Token) : Prop :=
  ∃ sign sep us first rest, items.reverse = (sign, first) :: rest ∧ ts = sep ++ us ∧
    Lead sign sep ∧ Chain Atom us first rest

/-- The tokens of the operands so far and of the operator in front of the next one. -/
def Opened (items : List Item) (op : Operator) (ts : List Token) : Prop :=
  (items = [] ∧ Lead op ts) ∨ ∃ us sep, ts = us ++ sep ∧ Written items us ∧ Link op sep

/-- The tokens in front of the innermost group, up to the bracket that opens it. -/
inductive Enclosed : List Enclosing → List Token → Prop where
  | nil : Enclosed [] []
  | cons {items : List Item} {op : Operator} {enclosing : List Enclosing} {ts us : List Token}
      {opening : Token} : Enclosed enclosing ts → Opened items op us → opening.kind = .opening →
      Enclosed (⟨items, op⟩ :: enclosing) (ts ++ (us ++ [opening]))

/-- The tokens that the innermost group of a state stands for. -/
def Expecting.Reads (items : List Item) (ts : List Token) : Expecting → Prop
  | .sign => items = [] ∧ ts = []
  | .operand op => Opened items op ts
  | .operator => Written items ts

/-- The tokens that a state stands for. -/
def ParseState.Reads (s : ParseState) (ts : List Token) : Prop :=
  ∃ us vs, ts = us ++ vs ∧ Enclosed s.enclosing us ∧ s.expecting.Reads s.items vs

theorem Opened.operand {items : List Item} {op : Operator} {ts us : List Token} {t : Term}
    (opened : Opened items op ts) (atom : Atom us t) : Written ((op, t) :: items) (ts ++ us) := by
  rcases opened with ⟨rfl, lead⟩ | ⟨vs, link, rfl, ⟨sign, sep, ws, first, rest, same, rfl, lead, chain⟩, linked⟩
  · exact ⟨op, ts, us, t, [], rfl, rfl, lead, .atom atom⟩
  · refine ⟨sign, sep, ws ++ (link ++ us), first, rest ++ [(op, t)], ?_, by simp, lead,
      chain.append linked (.atom atom)⟩
    rw [List.reverse_cons, same, List.cons_append]

theorem Written.expression {items : List Item} {ts : List Token} (written : Written items ts) :
    Expression Atom ts (reduce items.reverse) := by
  obtain ⟨sign, sep, us, first, rest, same, rfl, lead, chain⟩ := written
  rw [same]
  exact (expression_iff Atom.startsAtom).mpr ⟨sign, sep, us, first, rest, rfl, lead, chain, rfl⟩

/-! ### What is parsed is derived -/

namespace ParseState

theorem reads_initial : initial.Reads [] := ⟨[], [], rfl, .nil, rfl, rfl⟩

theorem readOperand_reads {s next : ParseState} {op : Operator} {token : Token}
    {us vs : List Token} (enclosed : Enclosed s.enclosing us) (opened : Opened s.items op vs)
    (h : s.readOperand op token = .ok next) :
    next.Reads (us ++ (vs ++ [token])) ∧ Fits token := by
  unfold readOperand at h
  split at h
  · rename_i kind
    cases h
    refine ⟨⟨us, _, rfl, enclosed, opened.operand (.letter kind)⟩, fun number => ?_⟩
    rw [kind] at number
    cases number
  · rename_i kind
    dsimp only at h
    split at h
    · rename_i small
      cases h
      exact ⟨⟨us, _, rfl, enclosed, opened.operand (.number kind)⟩, fun _ => small⟩
    · cases h
  · rename_i kind
    cases h
    refine ⟨⟨us ++ (vs ++ [token]), [], by simp, .cons enclosed opened kind, rfl, rfl⟩,
      fun number => ?_⟩
    rw [kind] at number
    cases number
  · cases h

theorem Takes.opened {s : ParseState} {op : Operator} {token : Token} {vs : List Token}
    (takes : s.Takes token op) (inner : s.expecting.Reads s.items vs) : Opened s.items op vs := by
  cases takes with
  | sign expecting =>
    rw [expecting] at inner
    obtain ⟨empty, rfl⟩ := inner
    exact .inl ⟨empty, .omitted⟩
  | operand expecting =>
    rw [expecting] at inner
    exact inner
  | operator expecting =>
    rw [expecting] at inner
    exact .inr ⟨vs, [], by simp, inner, .omitted⟩

/-- A token that is accepted extends the tokens that the state stands for. -/
theorem step_reads {s next : ParseState} {ts : List Token} {token : Token} (reads : s.Reads ts)
    (h : s.step token = .ok (some next)) : next.Reads (ts ++ [token]) ∧ Fits token := by
  obtain ⟨us, vs, rfl, enclosed, inner⟩ := reads
  have unsized : ∀ {kind}, token.kind = kind → kind ≠ .number → Fits token :=
    fun same other number => absurd (same.symm.trans number) other
  cases moves_iff.mpr h with
  | plus expecting kind =>
    rw [expecting] at inner
    obtain ⟨empty, rfl⟩ := inner
    exact ⟨⟨us, [token], by simp, enclosed, .inl ⟨empty, .plus kind⟩⟩, unsized kind (by decide)⟩
  | minus expecting kind =>
    rw [expecting] at inner
    obtain ⟨empty, rfl⟩ := inner
    exact ⟨⟨us, [token], by simp, enclosed, .inl ⟨empty, .minus kind⟩⟩, unsized kind (by decide)⟩
  | operator expecting kind =>
    rw [expecting] at inner
    refine ⟨⟨us, vs ++ [token], by simp, enclosed, .inr ⟨vs, _, rfl, inner, .written kind⟩⟩,
      fun number => ?_⟩
    rw [number] at kind
    cases kind
  | operand takes read =>
    rw [List.append_assoc]
    exact readOperand_reads enclosed (takes.opened inner) read
  | close expecting kind same =>
    rw [expecting] at inner
    rw [same] at enclosed
    cases enclosed with
    | @cons items op _ ts ws opening enclosed opened bracket =>
      refine ⟨⟨ts, ws ++ (opening :: (vs ++ [token])), by simp, enclosed, ?_⟩,
        unsized kind (by decide)⟩
      exact opened.operand (.group bracket inner.expression kind)

theorem run_parsed {s : ParseState} {ts us : List Token} {t : Term} (reads : s.Reads ts)
    (h : s.run us = .parsed t []) :
    Expression Atom (ts ++ us) t ∧ ∀ token ∈ us, Fits token := by
  induction us generalizing s ts with
  | nil =>
    rw [run, finish] at h
    split at h
    · rename_i complete
      obtain ⟨us, vs, rfl, enclosed, inner⟩ := reads
      rw [complete.2] at enclosed
      rw [complete.1] at inner
      cases enclosed
      cases h
      simpa [reduced] using inner.expression
    · cases h
  | cons token us ih =>
    rw [run] at h
    split at h
    · rename_i next accepted
      obtain ⟨reads', fits⟩ := step_reads reads accepted
      obtain ⟨derived, all⟩ := ih reads' h
      exact ⟨by simpa using derived, by simpa using ⟨fits, all⟩⟩
    · cases h
    · cases h

/-! ### What is derived is parsed -/

/-- A state that awaits an operand, and the operator in front of that operand. Behind an operand,
the next one multiplies. -/
inductive Awaits : ParseState → Operator → Prop where
  | sign {items : List Item} {enclosing : List Enclosing} : Awaits ⟨.sign, items, enclosing⟩ .add
  | operand {op : Operator} {items : List Item} {enclosing : List Enclosing} :
      Awaits ⟨.operand op, items, enclosing⟩ op
  | operator {items : List Item} {enclosing : List Enclosing} :
      Awaits ⟨.operator, items, enclosing⟩ .multiply

/-- The tokens take every state that awaits an operand to the state behind the operand `t`. -/
def Consumes (ts : List Token) (t : Term) : Prop :=
  ∀ (s : ParseState) (op : Operator) (more : List Token), Awaits s op →
    s.run (ts ++ more) = (⟨.operator, (op, t) :: s.items, s.enclosing⟩ : ParseState).run more

theorem run_cons {s next : ParseState} {token : Token} (h : s.step token = .ok (some next))
    (more : List Token) : s.run (token :: more) = next.run more := by
  rw [run, h]

theorem Awaits.takes {s : ParseState} {op : Operator} {token : Token} (awaits : Awaits s op)
    (starts : token.kind.startsAtom = true) : s.Takes token op := by
  cases awaits with
  | sign =>
    refine .sign rfl ?_ ?_
    · intro kind
      rw [kind] at starts
      cases starts
    · intro kind
      rw [kind] at starts
      cases starts
  | operand => exact .operand rfl
  | operator => exact .operator rfl starts

theorem run_tail {ts : List Token} {rest : List Item} (tail : Tail Consumes ts rest)
    (items : List Item) (enclosing : List Enclosing) (more : List Token) :
    (⟨.operator, items, enclosing⟩ : ParseState).run (ts ++ more) =
      (⟨.operator, rest.reverse ++ items, enclosing⟩ : ParseState).run more := by
  induction tail generalizing items with
  | nil => rfl
  | @cons op t sep us vs rest link consumes _ ih =>
    have operand : (⟨.operator, items, enclosing⟩ : ParseState).run (sep ++ (us ++ (vs ++ more))) =
        (⟨.operator, (op, t) :: items, enclosing⟩ : ParseState).run (vs ++ more) := by
      cases link with
      | omitted => exact consumes _ _ _ .operator
      | @written op token kind =>
        have accepted : (⟨.operator, items, enclosing⟩ : ParseState).step token =
            .ok (some ⟨.operand op, items, enclosing⟩) := moves_iff.mp (.operator rfl kind)
        rw [List.cons_append, run_cons accepted]
        exact consumes _ _ _ .operand
    rw [List.append_assoc, List.append_assoc, operand, ih]
    simp

/-- The tokens of an expression take the start of a group to its end. -/
theorem run_chain {sign : Operator} {sep us : List Token} {first : Term} {rest : List Item}
    (lead : Lead sign sep) (chain : Chain Consumes us first rest) (enclosing : List Enclosing)
    (more : List Token) :
    (⟨.sign, [], enclosing⟩ : ParseState).run ((sep ++ us) ++ more) =
      (⟨.operator, ((sign, first) :: rest).reverse, enclosing⟩ : ParseState).run more := by
  obtain ⟨vs, ws, rfl, consumes, tail⟩ := chain
  have operand : (⟨.sign, [], enclosing⟩ : ParseState).run (sep ++ (vs ++ (ws ++ more))) =
      (⟨.operator, [(sign, first)], enclosing⟩ : ParseState).run (ws ++ more) := by
    cases lead with
    | omitted => exact consumes _ _ _ .sign
    | @plus token kind =>
      have accepted : (⟨.sign, [], enclosing⟩ : ParseState).step token =
          .ok (some ⟨.operand .add, [], enclosing⟩) := moves_iff.mp (.plus rfl kind)
      rw [List.cons_append, run_cons accepted]
      exact consumes _ _ _ .operand
    | @minus token kind =>
      have accepted : (⟨.sign, [], enclosing⟩ : ParseState).step token =
          .ok (some ⟨.operand .subtract, [], enclosing⟩) := moves_iff.mp (.minus rfl kind)
      rw [List.cons_append, run_cons accepted]
      exact consumes _ _ _ .operand
  rw [List.append_assoc, List.append_assoc, operand, run_tail tail]
  simp

theorem run_operand {s next : ParseState} {op : Operator} {token : Token} (awaits : Awaits s op)
    (starts : token.kind.startsAtom = true) (h : s.readOperand op token = .ok next)
    (more : List Token) : s.run (token :: more) = next.run more :=
  run_cons (moves_iff.mp (.operand (awaits.takes starts) h)) more

/-- The induction is on the tokens: those of an operand inside of brackets are fewer. -/
theorem consumes_of_atom {ts : List Token} {t : Term} (atom : Atom ts t)
    (fits : ∀ token ∈ ts, Fits token) : Consumes ts t := by
  intro s op more awaits
  cases atom with
  | @letter token kind =>
    refine run_operand awaits (by rw [kind]; rfl) ?_ more
    simp only [readOperand, kind]
  | @number token kind =>
    have small : literal token < UInt64.size := fits token List.mem_cons_self kind
    refine run_operand awaits (by rw [kind]; rfl) ?_ more
    simp only [readOperand, kind]
    exact if_pos small
  | @group opening closing ts t opens expression closes =>
    obtain ⟨sign, sep, us, first, rest, same, lead, ⟨vs, ws, cut, head, tail⟩, reduced⟩ :=
      chain_of_expression expression
    have inside : ∀ (xs : List Token) (u : Term), xs.Sublist ts → Atom xs u → Consumes xs u := by
      intro xs u part atom
      have short := part.length_le
      exact consumes_of_atom atom fun token member =>
        fits token (List.mem_cons_of_mem _ (List.mem_append_left _ (part.subset member)))
    have consumed : Chain Consumes us first rest := by
      have vsPart : vs.Sublist ts := by rw [same, cut]; simp
      have wsPart : ws.Sublist ts := by rw [same, cut]; simp
      exact ⟨vs, ws, cut, inside vs first vsPart head,
        tail.imp fun xs u part => inside xs u (part.trans wsPart)⟩
    have entered : s.run (opening :: (ts ++ closing :: more)) =
        (⟨.sign, [], ⟨s.items, op⟩ :: s.enclosing⟩ : ParseState).run (ts ++ closing :: more) := by
      refine run_operand awaits (by rw [opens]; rfl) ?_ _
      simp only [readOperand, opens]
    have left : (⟨.operator, ((sign, first) :: rest).reverse, ⟨s.items, op⟩ :: s.enclosing⟩ :
        ParseState).step closing = .ok (some ⟨.operator, (op, t) :: s.items, s.enclosing⟩) := by
      have close := moves_iff.mp (.close (s := ⟨.operator, ((sign, first) :: rest).reverse,
        ⟨s.items, op⟩ :: s.enclosing⟩) rfl closes rfl)
      rwa [ParseState.reduced, List.reverse_reverse, ← reduced] at close
    rw [List.cons_append, List.append_assoc, List.singleton_append, entered, same,
      run_chain lead consumed, run_cons left]
termination_by ts.length
decreasing_by subst_vars; simp only [List.length_cons, List.length_append] at short ⊢; omega

end ParseState

/-- The parser reads all of the tokens as an expression if and only if the grammar derives it and
every number fits. -/
theorem parsed_iff {ts : List Token} {t : Term} : ParseState.initial.run ts = .parsed t [] ↔
    Expression Atom ts t ∧ ∀ token ∈ ts, Fits token := by
  constructor
  · intro parsed
    simpa using ParseState.run_parsed ParseState.reads_initial parsed
  · rintro ⟨expression, fits⟩
    obtain ⟨sign, sep, us, first, rest, rfl, lead, ⟨vs, ws, rfl, head, tail⟩, rfl⟩ :=
      (expression_iff Atom.startsAtom).mp expression
    have consumed : Chain ParseState.Consumes (vs ++ ws) first rest := by
      refine ⟨vs, ws, rfl, ParseState.consumes_of_atom head fun token member => ?_,
        tail.imp fun xs u part atom => ParseState.consumes_of_atom atom fun token member => ?_⟩
      · exact fits token (by simp [member])
      · have inside := part.subset member
        exact fits token (by simp [inside])
    have run := ParseState.run_chain lead consumed [] []
    rw [List.append_nil] at run
    rw [ParseState.initial, run]
    simp [ParseState.run, ParseState.finish, ParseState.reduced]

end AlgebraEditor.Formula
