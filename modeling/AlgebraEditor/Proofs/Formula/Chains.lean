import AlgebraEditor.Proofs.Formula.Grammar

/-!
# Chains and strata

Before reduction an expression is a chain: an operand and the items behind it. `Chain` says which
tokens write a chain, over any notion of atom. Reduction turns chains into exactly the terms that
the strata of the grammar derive: `expression_iff` is the main statement, and each pass of the
reduction lifts a chain of one stratum to a chain of the next.
-/

namespace AlgebraEditor.Formula

/-! ### What the passes do to the operators -/

theorem operators_joinPairs (c : OperatorClass) (join : Term → Term → Term) (first : Term)
    (rest : List Item) : (joinPairs c join first rest).2.map (·.1) =
      (rest.map (·.1)).filter (fun op => decide (op.opClass ≠ c)) := by
  induction rest generalizing first with
  | nil => rfl
  | cons item rest ih =>
    obtain ⟨op, t⟩ := item
    by_cases same : op.opClass = c <;> simp [joinPairs, same, ih]

theorem operators_joinRuns (c : OperatorClass) (join : List Term → Term) (first : Term)
    (rest : List Item) : (joinRuns c join first rest).2.map (·.1) =
      (rest.map (·.1)).filter (fun op => decide (op.opClass ≠ c)) := by
  induction rest generalizing first with
  | nil => rfl
  | cons item rest ih =>
    obtain ⟨op, t⟩ := item
    by_cases same : op.opClass = c <;> simp [joinRuns, same, ih]

/-- Pairs are not joined across an operator of another class. -/
theorem joinPairs_append {c : OperatorClass} {op : Operator} (other : op.opClass ≠ c)
    (join : Term → Term → Term) (first second : Term) (before after : List Item) :
    joinPairs c join first (before ++ (op, second) :: after) =
      ((joinPairs c join first before).1, (joinPairs c join first before).2 ++
        (op, (joinPairs c join second after).1) :: (joinPairs c join second after).2) := by
  induction before generalizing first with
  | nil => simp [joinPairs, other]
  | cons item before ih =>
    obtain ⟨op', t⟩ := item
    by_cases same : op'.opClass = c <;> simp [joinPairs, same, ih]

/-- Runs do not go on across an operator of another class. -/
theorem joinRuns_append {c : OperatorClass} {op : Operator} (other : op.opClass ≠ c)
    (join : List Term → Term) (first second : Term) (before after : List Item) :
    joinRuns c join first (before ++ (op, second) :: after) =
      ((joinRuns c join first before).1, (joinRuns c join first before).2 ++
        (op, join (joinRuns c join second after).1) :: (joinRuns c join second after).2) := by
  induction before generalizing first with
  | nil => simp [joinRuns, other]
  | cons item before ih =>
    obtain ⟨op', t⟩ := item
    by_cases same : op'.opClass = c <;> simp [joinRuns, same, ih]

/-- The chain after powers and fractions are joined. -/
def fractionsOf (first : Term) (rest : List Item) : Term × List Item :=
  joinPairs .quotient .fraction (joinPairs .power .power first rest).1
    (joinPairs .power .power first rest).2

/-- The first product's factors, and the products behind it. -/
def productsOf (first : Term) (rest : List Item) : List Term × List Item :=
  joinRuns .product .productOf (fractionsOf first rest).1 (fractionsOf first rest).2

theorem reduce_cons (sign : Operator) (first : Term) (rest : List Item) :
    reduce ((sign, first) :: rest) =
      .sumOf (((sign, .productOf (productsOf first rest).1) :: (productsOf first rest).2).map
        Item.signed) := rfl

theorem fractionsOf_append {op : Operator} (notPower : op.opClass ≠ .power)
    (notQuotient : op.opClass ≠ .quotient) (first second : Term) (before after : List Item) :
    fractionsOf first (before ++ (op, second) :: after) =
      ((fractionsOf first before).1, (fractionsOf first before).2 ++
        (op, (fractionsOf second after).1) :: (fractionsOf second after).2) := by
  simp only [fractionsOf, joinPairs_append notPower, joinPairs_append notQuotient]

theorem productsOf_append {op : Operator} (sum : op.opClass = .sum) (first second : Term)
    (before after : List Item) :
    productsOf first (before ++ (op, second) :: after) =
      ((productsOf first before).1, (productsOf first before).2 ++
        (op, .productOf (productsOf second after).1) :: (productsOf second after).2) := by
  have notPower : op.opClass ≠ .power := by simp [sum]
  have notQuotient : op.opClass ≠ .quotient := by simp [sum]
  have notProduct : op.opClass ≠ .product := by simp [sum]
  simp only [productsOf, fractionsOf_append notPower notQuotient, joinRuns_append notProduct]

theorem operators_productsOf (first : Term) (rest : List Item) {item : Item}
    (member : item ∈ (productsOf first rest).2) : item.1.opClass = .sum := by
  have kept := List.mem_map_of_mem (f := (·.1)) member
  simp only [productsOf, fractionsOf, operators_joinRuns, operators_joinPairs, List.mem_filter,
    decide_eq_true_eq] at kept
  generalize item.1 = op at kept ⊢
  cases op <;> simp_all [Operator.opClass]

/-! ### The tokens of a chain -/

/-- The tokens between two operands that an operator joins. -/
inductive Link : Operator → List Token → Prop where
  | written {op : Operator} {t : Token} : Operator.ofToken? t.kind = some op → Link op [t]
  | omitted : Link .multiply []

/-- The tokens of the sign in front of a chain. -/
inductive Lead : Operator → List Token → Prop where
  | plus {t : Token} : t.kind = .plus → Lead .add [t]
  | minus {t : Token} : t.kind = .minus → Lead .subtract [t]
  | omitted : Lead .add []

/-- The tokens of the items behind an operand. -/
inductive Tail (A : List Token → Term → Prop) : List Token → List Item → Prop where
  | nil : Tail A [] []
  | cons {op : Operator} {t : Term} {sep us vs : List Token} {rest : List Item} : Link op sep →
      A us t → Tail A vs rest → Tail A (sep ++ (us ++ vs)) ((op, t) :: rest)

/-- The tokens of an operand and the items behind it. -/
def Chain (A : List Token → Term → Prop) (ts : List Token) (first : Term) (rest : List Item) : Prop :=
  ∃ us vs, ts = us ++ vs ∧ A us first ∧ Tail A vs rest

/-- The tokens begin with one that begins an atom. -/
def StartsAtom (ts : List Token) : Prop := ∃ t us, ts = t :: us ∧ t.kind.startsAtom = true

theorem StartsAtom.append {ts : List Token} (h : StartsAtom ts) (us : List Token) :
    StartsAtom (ts ++ us) := by
  obtain ⟨t, vs, rfl, starts⟩ := h
  exact ⟨t, vs ++ us, rfl, starts⟩

variable {A : List Token → Term → Prop}

theorem Tail.append {ts us : List Token} {before after : List Item} (h : Tail A ts before)
    (k : Tail A us after) : Tail A (ts ++ us) (before ++ after) := by
  induction h with
  | nil => exact k
  | cons link atom _ ih => simpa only [List.append_assoc, List.cons_append] using .cons link atom ih

theorem Tail.imp {A B : List Token → Term → Prop} {ts : List Token} {items : List Item}
    (h : Tail A ts items) (imp : ∀ us u, us.Sublist ts → A us u → B us u) : Tail B ts items := by
  induction h with
  | nil => exact .nil
  | @cons op t sep us vs rest link atom _ ih =>
    have inner : us.Sublist (sep ++ (us ++ vs)) :=
      (List.sublist_append_left us vs).trans (List.sublist_append_right sep _)
    have later : vs.Sublist (sep ++ (us ++ vs)) :=
      (List.sublist_append_right us vs).trans (List.sublist_append_right sep _)
    exact .cons link (imp us t inner atom) (ih fun ws u short => imp ws u (short.trans later))

theorem Chain.append {ts us sep : List Token} {first second : Term} {before after : List Item}
    {op : Operator} (h : Chain A ts first before) (link : Link op sep) (k : Chain A us second after) :
    Chain A (ts ++ (sep ++ us)) first (before ++ (op, second) :: after) := by
  obtain ⟨ts₁, ts₂, rfl, atom, tail⟩ := h
  obtain ⟨us₁, us₂, rfl, atom', tail'⟩ := k
  exact ⟨ts₁, ts₂ ++ (sep ++ (us₁ ++ us₂)), by simp, atom, tail.append (.cons link atom' tail')⟩

/-! ### From chains to the strata -/

section Lifting

variable {c : OperatorClass}

/-- A pass that joins pairs lifts a chain over `A` to a chain over any relation that contains `A` and
is closed under joining. -/
theorem lift_joinPairs {P : List Token → Term → Prop} {join : Term → Term → Term}
    (base : ∀ {ts t}, A ts t → P ts t)
    (step : ∀ {ts us sep op b t}, op.opClass = c → P ts b → Link op sep → A us t →
      P (ts ++ (sep ++ us)) (join b t))
    {us vs : List Token} {first : Term} {rest : List Item} (head : P us first) (tail : Tail A vs rest) :
    Chain P (us ++ vs) (joinPairs c join first rest).1 (joinPairs c join first rest).2 := by
  induction tail generalizing us first with
  | nil => exact ⟨us, [], rfl, head, .nil⟩
  | @cons op t sep ws vs rest link atom _ ih =>
    by_cases same : op.opClass = c
    · have joined := ih (step same head link atom)
      simpa only [joinPairs, same, if_true, List.append_assoc] using joined
    · obtain ⟨ts₁, ts₂, cut, atom', tail'⟩ := ih (base atom)
      simp only [joinPairs, same, if_false]
      exact ⟨us, sep ++ (ts₁ ++ ts₂), by rw [cut], head, .cons link atom' tail'⟩

/-- A pass that joins runs lifts a chain over `A` to one over the joined runs. -/
theorem lift_joinRuns {P : List Token → List Term → Prop} {join : List Term → Term}
    (base : ∀ {ts t}, A ts t → P ts [t])
    (step : ∀ {ts us sep op t run}, op.opClass = c → A ts t → Link op sep → P us run →
      P (ts ++ (sep ++ us)) (t :: run))
    {us vs : List Token} {first : Term} {rest : List Item} (head : A us first) (tail : Tail A vs rest) :
    ∃ ts₁ ts₂, us ++ vs = ts₁ ++ ts₂ ∧ P ts₁ (joinRuns c join first rest).1 ∧
      Tail (fun ts t => ∃ run, P ts run ∧ t = join run) ts₂ (joinRuns c join first rest).2 := by
  induction tail generalizing us first with
  | nil => exact ⟨us, [], rfl, base head, .nil⟩
  | @cons op t sep ws vs rest link atom _ ih =>
    obtain ⟨ts₁, ts₂, cut, run, tail'⟩ := ih atom
    by_cases same : op.opClass = c
    · simp only [joinRuns, same, if_true]
      exact ⟨us ++ (sep ++ ts₁), ts₂, by simp [cut], step same head link run, tail'⟩
    · simp only [joinRuns, same, if_false]
      exact ⟨us, sep ++ (ts₁ ++ ts₂), by simp [cut], base head, .cons link ⟨_, run, rfl⟩ tail'⟩

end Lifting

/-- A link of a class of which no operator may be left out is one token. -/
theorem Link.token {op : Operator} {sep : List Token} (link : Link op sep)
    (notProduct : op.opClass ≠ .product) : ∃ t, sep = [t] ∧ Operator.ofToken? t.kind = some op := by
  cases link with
  | written h => exact ⟨_, rfl, h⟩
  | omitted => exact absurd rfl notProduct

theorem kind_of_ofToken? {k : TokenKind} {op : Operator} (h : Operator.ofToken? k = some op) :
    k = match op with
      | .raise => .caret
      | .divide => .slash
      | .multiply => .times
      | .add => .plus
      | .subtract => .minus := by
  cases k <;> simp [Operator.ofToken?] at h <;> subst h <;> rfl

open Grammar

theorem chain_fractions {us vs : List Token} {first : Term} {rest : List Item} (head : A us first)
    (tail : Tail A vs rest) :
    Chain (Fraction A) (us ++ vs) (fractionsOf first rest).1 (fractionsOf first rest).2 := by
  have powers : Chain (Power A) (us ++ vs) (joinPairs .power .power first rest).1
      (joinPairs .power .power first rest).2 := by
    refine lift_joinPairs .atom ?_ (.atom head) tail
    intro ts us sep op b t same power link atom
    obtain ⟨token, rfl, kind⟩ := link.token (by simp [same])
    have raise : op = .raise := by cases op <;> simp [Operator.opClass] at same ⊢
    subst raise
    exact .raise power (kind_of_ofToken? kind) atom
  obtain ⟨ts₁, ts₂, cut, head', tail'⟩ := powers
  rw [cut]
  refine lift_joinPairs .power ?_ (.power head') tail'
  intro ts us sep op b t same fraction link power
  obtain ⟨token, rfl, kind⟩ := link.token (by simp [same])
  have divide : op = .divide := by cases op <;> simp [Operator.opClass] at same ⊢
  subst divide
  exact .divide fraction (kind_of_ofToken? kind) power

theorem Power.startsAtom (starts : ∀ ts t, A ts t → StartsAtom ts) {ts : List Token} {t : Term}
    (h : Power A ts t) : StartsAtom ts := by
  induction h with
  | atom atom => exact starts _ _ atom
  | raise _ _ _ ih => exact ih.append _

theorem Fraction.startsAtom (starts : ∀ ts t, A ts t → StartsAtom ts) {ts : List Token} {t : Term}
    (h : Fraction A ts t) : StartsAtom ts := by
  induction h with
  | power power => exact Power.startsAtom starts power
  | divide _ _ _ ih => exact ih.append _

theorem Factors.startsAtom (starts : ∀ ts t, A ts t → StartsAtom ts) {ts : List Token}
    {fs : List Term} (h : Factors A ts fs) : StartsAtom ts := by
  cases h with
  | last fraction => exact Fraction.startsAtom starts fraction
  | times fraction | adjacent fraction => exact (Fraction.startsAtom starts fraction).append _

theorem chain_products (starts : ∀ ts t, A ts t → StartsAtom ts) {us vs : List Token}
    {first : Term} {rest : List Item} (head : A us first) (tail : Tail A vs rest) :
    ∃ ts₁ ts₂, us ++ vs = ts₁ ++ ts₂ ∧ Factors A ts₁ (productsOf first rest).1 ∧
      Tail (fun ts t => ∃ run, Factors A ts run ∧ t = .productOf run) ts₂
        (productsOf first rest).2 := by
  obtain ⟨ts₁, ts₂, cut, head', tail'⟩ := chain_fractions head tail
  rw [cut]
  refine lift_joinRuns .last ?_ head' tail'
  intro ts us sep op t run same fraction link factors
  cases link with
  | omitted =>
    obtain ⟨next, ws, rfl, begins⟩ := Factors.startsAtom starts factors
    exact .adjacent fraction begins factors
  | written kind =>
    have multiply : op = .multiply := by cases op <;> simp [Operator.opClass] at same ⊢
    subst multiply
    exact .times fraction (kind_of_ofToken? kind) factors

/-- Items behind which only signs are left are the further terms of a sum. -/
theorem terms_of_tail {ts : List Token} {items : List Item}
    (tail : Tail (fun ts t => ∃ run, Factors A ts run ∧ t = .productOf run) ts items)
    (sums : ∀ item ∈ items, item.1.opClass = .sum) : Terms A ts (items.map Item.signed) := by
  induction tail with
  | nil => exact .nil
  | @cons op t sep us vs rest link product _ ih =>
    obtain ⟨run, factors, rfl⟩ := product
    have sum : op.opClass = .sum := sums _ List.mem_cons_self
    obtain ⟨token, rfl, kind⟩ := link.token (by simp [sum])
    have later := ih fun item member => sums item (List.mem_cons_of_mem _ member)
    have sign : Sign token (op = .subtract) := by
      cases op with
      | add => exact .plus (kind_of_ofToken? kind)
      | subtract => exact .minus (kind_of_ofToken? kind)
      | _ => simp [Operator.opClass] at sum
    show Terms A (token :: (us ++ vs)) _
    exact .cons sign factors later

theorem expression_of_chain (starts : ∀ ts t, A ts t → StartsAtom ts) {sign : Operator}
    {sep ts : List Token} {first : Term} {rest : List Item} (lead : Lead sign sep)
    (chain : Chain A ts first rest) : Expression A (sep ++ ts) (reduce ((sign, first) :: rest)) := by
  obtain ⟨us, vs, rfl, head, tail⟩ := chain
  obtain ⟨ts₁, ts₂, cut, factors, tail'⟩ := chain_products starts head tail
  have terms := terms_of_tail tail' fun item member => operators_productsOf first rest member
  rw [cut, reduce_cons, List.map_cons]
  cases lead with
  | @plus token kind =>
    show Expression A (token :: (ts₁ ++ ts₂)) _
    exact .signed (.cons (.plus kind) factors terms)
  | @minus token kind =>
    show Expression A (token :: (ts₁ ++ ts₂)) _
    exact .signed (.cons (.minus kind) factors terms)
  | omitted =>
    show Expression A (ts₁ ++ ts₂) _
    exact .unsigned factors terms

/-! ### From the strata to chains -/

theorem Chain.atom {ts : List Token} {t : Term} (atom : A ts t) : Chain A ts t [] :=
  ⟨ts, [], by simp, atom, .nil⟩

/-- Where every operator is of the class, all operands are joined into one. -/
theorem joinPairs_eq_foldl {c : OperatorClass} (join : Term → Term → Term) {rest : List Item}
    (all : ∀ item ∈ rest, item.1.opClass = c) (first : Term) :
    joinPairs c join first rest = (rest.foldl (fun joined item => join joined item.2) first, []) := by
  induction rest generalizing first with
  | nil => rfl
  | cons item rest ih =>
    have same : item.1.opClass = c := all item List.mem_cons_self
    simp only [joinPairs, same, if_true, List.foldl_cons]
    exact ih (fun later member => all later (List.mem_cons_of_mem _ member)) _

/-- An item joins a chain that its class has joined into one operand. -/
theorem joinPairs_concat {c : OperatorClass} {op : Operator} (same : op.opClass = c)
    (join : Term → Term → Term) {rest : List Item} (all : ∀ item ∈ rest, item.1.opClass = c)
    (first t : Term) :
    joinPairs c join first (rest ++ [(op, t)]) = (join (joinPairs c join first rest).1 t, []) := by
  have extended : ∀ item ∈ rest ++ [(op, t)], item.1.opClass = c := by
    intro item member
    rcases List.mem_append.mp member with old | new
    · exact all item old
    · rw [List.mem_singleton.mp new]; exact same
  rw [joinPairs_eq_foldl join extended, joinPairs_eq_foldl join all, List.foldl_append]
  rfl

theorem chain_of_power {ts : List Token} {t : Term} (power : Power A ts t) :
    ∃ first rest, Chain A ts first rest ∧ (∀ item ∈ rest, item.1.opClass = .power) ∧
      joinPairs .power .power first rest = (t, []) := by
  induction power with
  | @atom ts t atom => exact ⟨t, [], .atom atom, by simp, rfl⟩
  | @raise ts us b e caret _ kind atom ih =>
    obtain ⟨first, rest, chain, all, joined⟩ := ih
    refine ⟨first, rest ++ [(.raise, e)],
      chain.append (.written (by rw [kind]; rfl)) (.atom atom), ?_, ?_⟩
    · intro item member
      rcases List.mem_append.mp member with old | new
      · exact all item old
      · rw [List.mem_singleton.mp new]; rfl
    · have same : Operator.raise.opClass = .power := rfl
      rw [joinPairs_concat same _ all, joined]

theorem chain_of_fraction {ts : List Token} {t : Term} (fraction : Fraction A ts t) :
    ∃ first rest, Chain A ts first rest ∧
      (∀ item ∈ (joinPairs .power .power first rest).2, item.1.opClass = .quotient) ∧
      fractionsOf first rest = (t, []) := by
  induction fraction with
  | power power =>
    obtain ⟨first, rest, chain, _, joined⟩ := chain_of_power power
    exact ⟨first, rest, chain, by simp [joined], by simp [fractionsOf, joined, joinPairs]⟩
  | @divide ts us n d slash _ kind power ih =>
    obtain ⟨first, before, chain, all, joined⟩ := ih
    obtain ⟨second, after, chain', _, joined'⟩ := chain_of_power power
    have other : Operator.divide.opClass ≠ .power := by decide
    have same : Operator.divide.opClass = .quotient := rfl
    have powers := joinPairs_append other .power first second before after
    rw [joined'] at powers
    refine ⟨first, before ++ (.divide, second) :: after,
      chain.append (.written (by rw [kind]; rfl)) chain', ?_, ?_⟩
    · rw [powers]
      intro item member
      rcases List.mem_append.mp member with old | new
      · exact all item old
      · rw [List.mem_singleton.mp new]; rfl
    · rw [fractionsOf] at joined ⊢
      rw [powers]
      simp only
      rw [joinPairs_concat same _ all, joined]

theorem chain_of_factors {ts : List Token} {fs : List Term} (factors : Factors A ts fs) :
    ∃ first rest, Chain A ts first rest ∧ productsOf first rest = (fs, []) := by
  -- A `*` that is left out links like one that is written.
  have linked : ∀ {ts us sep : List Token} {t : Term} {fs : List Term}, Fraction A ts t →
      Link .multiply sep → (∃ first rest, Chain A us first rest ∧ productsOf first rest = (fs, [])) →
      ∃ first rest, Chain A (ts ++ (sep ++ us)) first rest ∧
        productsOf first rest = (t :: fs, []) := by
    intro ts us sep t fs fraction link later
    obtain ⟨second, after, chain', joined'⟩ := later
    obtain ⟨first, before, chain, _, joined⟩ := chain_of_fraction fraction
    refine ⟨first, before ++ (.multiply, second) :: after, chain.append link chain', ?_⟩
    rw [productsOf] at joined' ⊢
    rw [fractionsOf_append (by decide) (by decide), joined]
    simp only [List.nil_append, joinRuns, Operator.opClass, if_true, joined']
  induction factors with
  | last fraction =>
    obtain ⟨first, rest, chain, _, joined⟩ := chain_of_fraction fraction
    exact ⟨first, rest, chain, by simp [productsOf, joined, joinRuns]⟩
  | times fraction kind _ ih => exact linked fraction (.written (by rw [kind]; rfl)) ih
  | adjacent fraction _ _ ih => exact linked fraction .omitted ih

/-- The further terms of a sum, as the items behind any chain that makes one product. -/
theorem tail_of_terms {ts : List Token} {xs : List Term} (terms : Terms A ts xs) :
    ∃ items, Tail A ts items ∧ ∀ {first rest fs}, productsOf first rest = (fs, []) →
      (productsOf first (rest ++ items)).1 = fs ∧
      (productsOf first (rest ++ items)).2.map Item.signed = xs := by
  induction terms with
  | nil => exact ⟨[], .nil, fun joined => by simp [joined]⟩
  | @cons ts us fs xs token negated sign factors _ ih =>
    obtain ⟨items, tail, later⟩ := ih
    obtain ⟨first', rest', ⟨us₁, us₂, rfl, atom, tail'⟩, joined'⟩ := chain_of_factors factors
    obtain ⟨op, kind, sum, negative⟩ : ∃ op, Operator.ofToken? token.kind = some op ∧
        op.opClass = .sum ∧ negated = decide (op = .subtract) := by
      cases sign with
      | plus kind => exact ⟨.add, by rw [kind]; rfl, rfl, rfl⟩
      | minus kind => exact ⟨.subtract, by rw [kind]; rfl, rfl, rfl⟩
    obtain ⟨product, signed⟩ := later joined'
    refine ⟨(op, first') :: (rest' ++ items), ?_, ?_⟩
    · have whole := Tail.cons (.written kind) atom (tail'.append tail)
      simpa using whole
    · intro first rest fs joined
      rw [productsOf_append sum, joined]
      simp [product, signed, Item.signed, negative]

theorem chain_of_expression {ts : List Token} {t : Term} (expression : Expression A ts t) :
    ∃ sign sep us first rest, ts = sep ++ us ∧ Lead sign sep ∧ Chain A us first rest ∧
      t = reduce ((sign, first) :: rest) := by
  cases expression with
  | @unsigned ts us fs xs factors terms =>
    obtain ⟨first, rest, ⟨ts₁, ts₂, rfl, atom, tail⟩, joined⟩ := chain_of_factors factors
    obtain ⟨items, tail', later⟩ := tail_of_terms terms
    obtain ⟨product, signed⟩ := later joined
    refine ⟨.add, [], _, first, rest ++ items, rfl, .omitted,
      ⟨ts₁, ts₂ ++ us, by simp, atom, tail.append tail'⟩, ?_⟩
    simp [reduce_cons, product, signed, Item.signed, Term.signed]
  | @signed ts x xs terms =>
    cases terms with
    | @cons ts us fs xs token negated sign factors terms =>
      obtain ⟨first, rest, ⟨ts₁, ts₂, rfl, atom, tail⟩, joined⟩ := chain_of_factors factors
      obtain ⟨items, tail', later⟩ := tail_of_terms terms
      obtain ⟨product, signed⟩ := later joined
      have chain : Chain A ((ts₁ ++ ts₂) ++ us) first (rest ++ items) :=
        ⟨ts₁, ts₂ ++ us, by simp, atom, tail.append tail'⟩
      cases sign with
      | plus kind =>
        refine ⟨.add, [token], _, first, rest ++ items, rfl, .plus kind, chain, ?_⟩
        simp [reduce_cons, product, signed, Item.signed, Term.signed]
      | minus kind =>
        refine ⟨.subtract, [token], _, first, rest ++ items, rfl, .minus kind, chain, ?_⟩
        simp [reduce_cons, product, signed, Item.signed, Term.signed]

/-- The strata derive exactly the terms to which the chains of their tokens are reduced. -/
theorem expression_iff (starts : ∀ ts t, A ts t → StartsAtom ts) {ts : List Token} {t : Term} :
    Expression A ts t ↔ ∃ sign sep us first rest, ts = sep ++ us ∧ Lead sign sep ∧
      Chain A us first rest ∧ t = reduce ((sign, first) :: rest) := by
  constructor
  · exact chain_of_expression
  · rintro ⟨sign, sep, us, first, rest, rfl, lead, chain, rfl⟩
    exact expression_of_chain starts lead chain

end AlgebraEditor.Formula
