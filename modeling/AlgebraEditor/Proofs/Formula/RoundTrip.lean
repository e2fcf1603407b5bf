import AlgebraEditor.Proofs.Formula.Spelling

/-!
# The round trip through text

The text of a normal term reads back as the term. The text of a part is spelled as a stratum of the
grammar, the one that the part's precedence names; parentheses lift it to an atom where a tighter
stratum is asked for. Its tokens are those that any lexer finds by longest matches
(`tokenize_of_lexes`).
-/

namespace AlgebraEditor

namespace Formula

open Grammar

/-- The text of a term is spelled in the stratum of the term's precedence. -/
def Readable (t : Term) : Prop :=
  Spells (t.write .text) (Stratum t · t.kind.precedence)

namespace Readable

variable {t u : Term} {ts : List Term}

theorem enclosed (readable : Readable t) (container : Kind) (p : Precedence)
    (tighter : ∀ kind : Kind, ¬ kind.precedence ≤ container.precedence → p ≤ kind.precedence) :
    Legible t p (Term.enclosed container t.kind (t.write .text)) :=
  Legible.enclosed readable container p tighter

theorem negation (readable : Readable t) : Readable (.negation t) :=
  (readable.enclosed .negation .factor (by intro kind; cases kind <;> decide)).negation

theorem fraction (numerator : Readable t) (denominator : Readable u) :
    Readable (.fraction t u) := by
  have left := numerator.enclosed .fraction .exponent (by
    intro kind; cases kind <;> decide)
  have right := denominator.enclosed .fraction .exponent (by
    intro kind; cases kind <;> decide)
  exact left.fraction right

theorem power (base : Readable t) (exponent : Readable u) : Readable (.power t u) := by
  have left := base.enclosed .power .atom (by
    intro kind; cases kind <;> decide)
  have right := exponent.enclosed .power .atom (by
    intro kind; cases kind <;> decide)
  exact left.power right

theorem symbol {c : Char} (letter : IsLetter c) : Readable (.symbol (String.ofList [c])) := by
  have text : (Term.symbol (String.ofList [c])).write .text = [c] := by
    rw [Term.write, String.toList_ofList]
  rw [Readable, text]
  exact Legible.symbol letter

theorem integer (value : UInt64) : Readable (.integer value) := Legible.integer value

theorem product (several : 2 ≤ ts.length) (readable : ∀ t ∈ ts, Readable t) :
    Readable (.product ts) := by
  rw [Readable, Term.write, Term.writeFactors_eq]
  refine Legible.product several (List.forall₂_map_right_iff.mpr (List.forall₂_same.mpr ?_))
  exact fun t member => (readable t member).enclosed .product .fraction
    (by intro kind; cases kind <;> decide)

/-- A term of a sum is spelled, apart from its sign, as a product. -/
theorem signed (readable : Readable t) (inner : ∀ u ∈ t.children, Readable u) :
    LegibleSigned t (t.writeSigned .text) := by
  by_cases negated : t.kind = .negation
  · cases t with
    | negation u =>
      exact .negation ((inner u List.mem_cons_self).enclosed .negation .factor
        (by intro kind; cases kind <;> decide))
    | _ => cases negated
  · rw [Term.writeSigned_of_ne negated]
    exact .of_factor (readable.enclosed .sum .factor (by intro kind; cases kind <;> decide))

theorem sum (several : 2 ≤ ts.length)
    (readable : ∀ t ∈ ts, Readable t ∧ ∀ u ∈ t.children, Readable u) : Readable (.sum ts) := by
  rw [Readable, Term.write, Term.writeTerms_eq]
  refine Legible.sum several (List.forall₂_map_right_iff.mpr (List.forall₂_same.mpr ?_))
  exact fun t member => signed (readable t member).1 (readable t member).2

end Readable

/-- Every normal term is spelled in its stratum. -/
theorem readable_of_normal {t : Term} (normal : t.IsNormal) : Readable t := by
  suffices both : Readable t ∧ ∀ u ∈ t.children, Readable u from both.1
  induction t using Term.induction with
  | step t ih =>
    have parts : ∀ u ∈ t.children, Readable u ∧ ∀ v ∈ u.children, Readable v := fun u member =>
      ih u member (normal.child member)
    refine ⟨?_, fun u member => (parts u member).1⟩
    cases t with
    | symbol name =>
      obtain ⟨c, rfl, letter⟩ := normal.self.letter name rfl
      exact .symbol letter
    | integer value => exact .integer value
    | negation inner => exact .negation (parts inner List.mem_cons_self).1
    | fraction numerator denominator =>
      exact .fraction (parts numerator List.mem_cons_self).1
        (parts denominator (List.mem_cons_of_mem _ List.mem_cons_self)).1
    | power base exponent =>
      exact .power (parts base List.mem_cons_self).1
        (parts exponent (List.mem_cons_of_mem _ List.mem_cons_self)).1
    | product factors =>
      exact .product (normal.self.filled rfl) fun u member => (parts u member).1
    | sum terms => exact .sum (normal.self.filled rfl) parts
    | root inner => exact absurd rfl normal.self.unwrapped

/-- The text of a normal term is parsed as the term. -/
theorem parse_write {t : Term} (normal : t.IsNormal) : parse (t.write .text) = .ok t :=
  Legible.parse (readable_of_normal normal)

end Formula

/-- What a wrapper holds, and any other term itself. -/
def Term.unwrap : Term → Term
  | root inner => inner
  | t => t

namespace Arena

open Formula

variable {a b : Arena} {h : Handle}

/-- The expression at an element: what the root wrapper holds, or the element itself. -/
def expressionAt (a : Arena) (h : Handle) : Except Fault Handle :=
  if h = a.root then a.content else .ok h

/-- The expression at an element is in normal form. -/
def IsNormalAt (a : Arena) (h : Handle) : Prop := ∃ t, a.term h = .ok t ∧ t.unwrap.IsNormal

theorem stored_of_term {t : Term} (read : a.term h = .ok t) : ∃ n, a.get? h = some n := by
  obtain ⟨e, element, _⟩ := bind_eq_ok.mp read
  obtain ⟨n, stored, _⟩ := element_eq_ok.mp element
  exact ⟨n, stored⟩

namespace WellFormed

/-- The text of an element in normal form is that of the expression at it. -/
theorem write_expressionAt (wf : a.WellFormed) (normal : a.IsNormalAt h) :
    ∃ e n, a.expressionAt h = .ok e ∧ a.get? e = some n ∧ (a.denote e).IsNormal ∧
      a.write .text h = .ok ((a.denote e).write .text) := by
  obtain ⟨t, read, normal⟩ := normal
  obtain ⟨n, stored⟩ := stored_of_term read
  cases (wf.term_eq_ok stored).symm.trans read
  rw [wf.write_eq_ok stored]
  by_cases wrapper : h = a.root
  · subst wrapper
    obtain ⟨inner, stored'⟩ := wf.wrapper
    obtain ⟨m, held⟩ := wf.stored_of_mem_children stored' List.mem_cons_self
    have denoted := wf.denote_eq stored'
    rw [denoted] at normal ⊢
    refine ⟨inner, m, ?_, held, normal, ?_⟩
    · rw [expressionAt, if_pos rfl, content, element_of_get? stored']
      rfl
    · have tight : ¬ (a.denote inner).kind.precedence ≤ Kind.root.precedence := by
        have other : (a.denote inner).kind ≠ .root := normal.self.unwrapped
        cases kind : (a.denote inner).kind <;> simp_all <;> decide
      simp only [Element.toTerm, Term.write, Term.enclosed, if_neg tight]
  · refine ⟨h, n, if_neg wrapper, stored, ?_, rfl⟩
    have other := wf.kind_ne_root stored wrapper
    rw [← kind_denote wf stored] at other
    cases shape : a.denote h <;> simp_all [Term.unwrap, Term.kind]

/-- The text of a term in normal form is read back, all of it. -/
theorem parseAll_write (wf : a.WellFormed) {t : Term} (normal : t.IsNormal) :
    ∃ r x r' b, Reader.ofText (t.write .text) = .ok r ∧ r.parseAll.run a = .ok (.ok x, r') b ∧
      r'.rest = [] ∧ a.Adds [t] [x] b := by
  obtain ⟨r, x, r', b, read, run, consumed, adds⟩ := run_parseAll_of_ok wf (parse_write normal)
  exact ⟨r, x, r', b, read, run, consumed, adds.toAdds⟩

end WellFormed

theorem Adds.write_top {t : Term} {x : Handle} (adds : a.Adds [t] [x] b) :
    b.write .text x = .ok (t.write .text) := by
  obtain ⟨n, found, -⟩ := adds.top_stored (List.mem_singleton_self x)
  rw [adds.wf.write_eq_ok found, adds.denote_top]

/-- The text of an element in normal form is read back, all of it, as an equal element; so equal
texts come from equal elements only, and what was read is written and read again without change. -/
theorem text_round_trip (wf : a.WellFormed) :
    (∀ h, a.IsNormalAt h → ∃ cs e, a.write .text h = .ok cs ∧ a.expressionAt h = .ok e ∧
      ∀ b : Arena, b.WellFormed → ∃ r x r' b', Reader.ofText cs = .ok r ∧
        r.parseAll.run b = .ok (.ok x, r') b' ∧ r'.rest = [] ∧
        (Edit.plantText cs).run b = .ok (.ok x) b' ∧ b'.equalAcross a x e = .ok true) ∧
    (∀ (b : Arena) (h k : Handle), b.WellFormed → a.IsNormalAt h → b.IsNormalAt k →
      a.write .text h = b.write .text k → ∃ e f, a.expressionAt h = .ok e ∧
        b.expressionAt k = .ok f ∧ a.equalAcross b e f = .ok true) ∧
    (∀ cs x b, (Edit.plantText cs).run a = .ok (.ok x) b → ∃ ds, b.write .text x = .ok ds ∧
      ∃ y c, (Edit.plantText ds).run b = .ok (.ok y) c ∧ c.write .text y = .ok ds) := by
  refine ⟨fun h normal => ?_, fun b h k wf' normal normal' same => ?_, fun cs x b read => ?_⟩
  · obtain ⟨e, n, expression, stored, normal, written⟩ := wf.write_expressionAt normal
    refine ⟨_, e, written, expression, fun b wf' => ?_⟩
    obtain ⟨r, x, r', b', read, run, consumed, adds⟩ := wf'.parseAll_write normal
    obtain ⟨m, found, -⟩ := adds.top_stored (List.mem_singleton_self x)
    obtain ⟨_, compared, equal⟩ := adds.wf.equalAcross_eq_ok wf found stored
    exact ⟨r, x, r', b', read, run, consumed, Edit.run_plantText_of_parseAll read run,
      by rw [compared, equal.mpr adds.denote_top]⟩
  · obtain ⟨e, n, expression, stored, normal, written⟩ := wf.write_expressionAt normal
    obtain ⟨f, m, expression', stored', normal', written'⟩ := wf'.write_expressionAt normal'
    rw [written, written'] at same
    have parsed := parse_write normal
    rw [Except.ok.inj same, parse_write normal'] at parsed
    obtain ⟨_, compared, equal⟩ := wf.equalAcross_eq_ok wf' stored stored'
    exact ⟨e, f, expression, expression', by
      rw [compared, equal.mpr (Except.ok.inj parsed).symm]⟩
  · obtain ⟨t, -, adds⟩ := Edit.parse_of_run_ok wf read
    have normal := adds.normal t List.mem_cons_self
    obtain ⟨y, c, again, adds'⟩ := Edit.run_plantText_of_ok adds.wf (parse_write normal)
    exact ⟨t.write .text, adds.write_top, y, c, again, adds'.write_top⟩

/-- Signs, a fraction, a power and brackets are read back, into any arena. The two factors have one
text and are equal. A text with other brackets and blanks is read, written, and read again as it was
written. -/
theorem text_round_trip_of_factors : ∃ a : Arena,
    a.write .text ⟨0⟩ = .ok "(-(x + 1)^2/(-y))*(-(x + 1)^2/(-y))".toList ∧
    (∀ b : Arena, b.WellFormed → ∃ r x r' b',
      Reader.ofText "(-(x + 1)^2/(-y))*(-(x + 1)^2/(-y))".toList = .ok r ∧
      r.parseAll.run b = .ok (.ok x, r') b' ∧ r'.rest = [] ∧
      (Edit.plantText "(-(x + 1)^2/(-y))*(-(x + 1)^2/(-y))".toList).run b = .ok (.ok x) b' ∧
      b'.equalAcross a x ⟨2⟩ = .ok true) ∧
    (a.write .text ⟨3⟩ = a.write .text ⟨12⟩ ∧ a.equalAcross a ⟨3⟩ ⟨12⟩ = .ok true) ∧
    ∃ x b y c, (Edit.plantText "-[ x+1 ]^2 / {-y}".toList).run a = .ok (.ok x) b ∧
      b.write .text x = .ok "-(x + 1)^2/(-y)".toList ∧
      (Edit.plantText "-(x + 1)^2/(-y)".toList).run b = .ok (.ok y) c ∧
      c.write .text y = .ok "-(x + 1)^2/(-y)".toList := by
  obtain ⟨u, shape⟩ : ∃ u : Term, u = .negation (.fraction (.power (.sum [.symbol "x", .integer 1])
    (.integer 2)) (.negation (.symbol "y"))) := ⟨_, rfl⟩
  obtain ⟨a, same⟩ : ∃ a, a = (zero.plant (.product [u, u])).rewire ⟨0⟩ (.root ⟨2⟩) := ⟨_, rfl⟩
  have wf : a.WellFormed := by
    rw [same, shape]
    exact Edit.wellFormed_expression (by decide)
  have normal : u.IsNormal := by
    have letter : ∀ c, IsLetter c → Term.IsNormal (.symbol (String.ofList [c])) := fun _ => .symbol
    have sum : Term.IsNormal (.sum [.symbol "x", .integer 1]) := .sumOf
      (List.forall_mem_cons.mpr ⟨letter 'x' (.inl rfl), List.forall_mem_singleton.mpr (.integer 1)⟩)
    rw [shape]
    exact .signed (.fraction (.power sum (.integer 2)) (.signed (letter 'y' (.inl rfl)) true)) true
  have product : Term.IsNormal (.product [u, u]) :=
    .productOf (List.forall_mem_cons.mpr ⟨normal, List.forall_mem_singleton.mpr normal⟩)
  obtain ⟨reads, injective, stable⟩ := text_round_trip wf
  have text : a.write .text ⟨0⟩ = .ok "(-(x + 1)^2/(-y))*(-(x + 1)^2/(-y))".toList := by
    subst shape same
    rfl
  have texts : a.write .text ⟨3⟩ = a.write .text ⟨12⟩ := by
    subst shape same
    rfl
  have inner : a.term ⟨0⟩ = .ok (.root (.product [u, u])) := by
    subst shape same
    rfl
  have factors : a.term ⟨3⟩ = .ok u ∧ a.term ⟨12⟩ = .ok u := by
    subst shape same
    exact ⟨rfl, rfl⟩
  have content : a.expressionAt ⟨0⟩ = .ok ⟨2⟩ := by
    subst shape same
    rfl
  have parts : a.expressionAt ⟨3⟩ = .ok ⟨3⟩ ∧ a.expressionAt ⟨12⟩ = .ok ⟨12⟩ := by
    subst shape same
    exact ⟨rfl, rfl⟩
  have plain : u.unwrap.IsNormal := by
    subst shape
    exact normal
  obtain ⟨cs, e, written, inside, read⟩ := reads ⟨0⟩ ⟨_, inner, product⟩
  obtain ⟨f, g, first, second, equal⟩ := injective a ⟨3⟩ ⟨12⟩ wf ⟨u, factors.1, plain⟩
    ⟨u, factors.2, plain⟩ texts
  cases text.symm.trans written
  cases content.symm.trans inside
  cases parts.1.symm.trans first
  cases parts.2.symm.trans second
  have parsed : parse "-[ x+1 ]^2 / \x7b-y\x7d".toList = .ok u := by
    subst shape
    rfl
  obtain ⟨x, b, run, adds⟩ := Edit.run_plantText_of_ok wf parsed
  have shown : b.write .text x = .ok "-(x + 1)^2/(-y)".toList := by
    rw [adds.write_top, shape]
    rfl
  obtain ⟨ds, written', y, c, again, fixed⟩ := stable _ x b run
  cases shown.symm.trans written'
  exact ⟨a, text, read, ⟨texts, equal⟩, x, b, y, c, run, shown, again, fixed⟩

end Arena

end AlgebraEditor
