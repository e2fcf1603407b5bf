import AlgebraEditor.Proofs.Arena.Assembling
import AlgebraEditor.Proofs.Formula.Chains
import AlgebraEditor.Proofs.Formula.Running

/-!
# Reducing lists of operands

The operands of an expression and the operators between them are two lists. Where in them the next
round drains a range is found by induction along the chain that they stand for: an operator of
another class goes to the front of the lists, where no round looks at it again, and an operator of the
class, or the run that starts with it, is what the round takes out. So every range is there, the new
element stands where its operands stood, and each class does to the lists what joining does to the
chain.
-/

namespace AlgebraEditor.Formula

open Term Arena

/-! ### Rounds -/

section Lists

variable {α : Type} {a : Arena}

theorem run_drain {xs : List α} (front back : List α) {first last : Nat}
    (start : front.length = first) (stop : last + 1 = first + xs.length) :
    (drain (front ++ (xs ++ back)) first last).run a = .ok (xs, front ++ back) a := by
  subst start
  rw [drain, if_pos (by simp; omega), stop]
  have taken : (front ++ (xs ++ back)).extract front.length (front.length + xs.length) = xs := by
    rw [List.extract_eq_take_drop, List.drop_left, Nat.add_sub_cancel_left, List.take_left]
  have left : (front ++ (xs ++ back)).drop (front.length + xs.length) = back := by
    rw [← List.append_assoc, List.drop_left' (by simp)]
  rw [taken, left, List.take_left]
  rfl

theorem run_entry {xs : List α} {i : Nat} {x : α} (there : xs[i]? = some x) :
    (entry xs i).run a = .ok x a := by
  rw [entry, there]
  rfl

end Lists

variable {a b : Arena} {c : OperatorClass} {span : Span} {r : Reader} {rounds : Nat}
  {front back : List Operand} {signs ops : List Operator} {op : Operator}
  {first t : Term} {ts us : List Term} {rest : List Item} {x y : Handle} {xs ys : List Handle}

/-- The front of the lists, which the rounds of a class have passed. -/
structure Passed (c : OperatorClass) (front : List Operand) (signs : List Operator) : Prop where
  aligned : front.length = signs.length
  others : ∀ op ∈ signs, op.opClass ≠ c

theorem Passed.nil (c : OperatorClass) : Passed c [] [] := ⟨rfl, List.forall_mem_nil _⟩

theorem Passed.concat (passed : Passed c front signs) (other : op.opClass ≠ c) (x : Operand) :
    Passed c (front ++ [x]) (signs ++ [op]) where
  aligned := by rw [List.length_append, List.length_append, passed.aligned]; rfl
  others := List.forall_mem_append.mpr ⟨passed.others, List.forall_mem_singleton.mpr other⟩

theorem findIdx?_class (others : ∀ op ∈ signs, op.opClass ≠ c) (same : op.opClass = c)
    (later : List Operator) :
    (signs ++ op :: later).findIdx? (fun op => op.opClass = c) = some signs.length := by
  rw [List.findIdx?_append, List.findIdx?_eq_none_iff.mpr (by simpa using others),
    List.findIdx?_cons, decide_eq_true same]
  simp

/-- Without an operator of the class there is nothing to do. -/
theorem run_reduceClass_none (others : ∀ op ∈ signs, op.opClass ≠ c) (some : 0 < rounds) :
    ((Reading.reduceClass span c rounds front signs).startAt r).run a =
      .ok (.ok (front, signs), r) a := by
  obtain ⟨rounds, rfl⟩ := Nat.exists_eq_add_one.mpr some
  rw [Reading.reduceClass, List.findIdx?_eq_none_iff.mpr (by simpa using others)]
  rfl

/-- A round takes the first operators of the class and their operands out of the lists, and the
element that is made of them takes their place. -/
theorem run_reduceClass_round {runOps : List Operator} {run : List Operand} {z : Handle}
    (rounds : Nat) (back : List Operand) (passed : Passed c front signs) (same : op.opClass = c)
    (operands : run.length = runOps.length + 2)
    (last : Reading.lastOfRun c (signs ++ (op :: runOps ++ ops)) signs.length =
      signs.length + runOps.length)
    (joined : ((Reading.join span c (op :: runOps) run).startAt r).run a = .ok (.ok z, r) b) :
    ((Reading.reduceClass span c (rounds + 1) (front ++ (run ++ back))
        (signs ++ (op :: runOps ++ ops))).startAt r).run a =
      ((Reading.reduceClass span c rounds (front ++ .element z :: back) (signs ++ ops)).startAt r).run
        b := by
  have found : (signs ++ (op :: runOps ++ ops)).findIdx? (fun op => op.opClass = c) =
      some signs.length := findIdx?_class passed.others same _
  rw [Reading.reduceClass, found]
  dsimp only
  rw [last, Reading.run_edit_bind (run_drain signs ops rfl (by simp; omega)),
    Reading.run_edit_bind (run_drain front back passed.aligned (by omega)),
    Reading.run_bind_of_ok joined, ← passed.aligned, insertIdx_between]

/-! ### Powers and fractions -/

/-- Pairs are joined in the lists as they are in the chain. -/
theorem run_reducePairs (span : Span) (r : Reader) (c : OperatorClass)
    (k : Handle → Handle → Element) (join : Term → Term → Term) (wf : a.WellFormed)
    (pairs : c.joinsRuns = false)
    (makes : ∀ op x y, Reading.join span c [op] [.element x, .element y] =
      (liftM (Edit.create (k x y)) : Reading Handle))
    (kind : ∀ x y, (k x y).kind ≠ .root) (parts : ∀ x y, (k x y).children = [x, y])
    (term : ∀ f x y, (k x y).toTerm f = join (f x) (f y))
    (adds : a.Adds (ts ++ first :: rest.map (·.2)) (xs ++ x :: ys) b) (before : xs.length = ts.length)
    (passed : Passed c front signs) (enough : rest.length < rounds) : ∃ x' ys' d,
      ((Reading.reduceClass span c rounds (front ++ (x :: ys).map .element)
          (signs ++ rest.map (·.1))).startAt r).run b =
        .ok (.ok (front ++ (x' :: ys').map .element,
          signs ++ (joinPairs c join first rest).2.map (·.1)), r) d ∧
      a.Adds (ts ++ (joinPairs c join first rest).1 :: (joinPairs c join first rest).2.map (·.2))
        (xs ++ x' :: ys') d := by
  induction rest generalizing first x ys ts xs front signs rounds b with
  | nil =>
    refine ⟨x, ys, b, ?_, adds⟩
    rw [joinPairs, List.map_nil, List.append_nil]
    exact run_reduceClass_none passed.others enough
  | cons item rest ih =>
    obtain ⟨op, t⟩ := item
    obtain ⟨y, ys, rfl⟩ : ∃ y zs, ys = y :: zs := by
      have lengths := adds.length_eq
      cases ys with
      | nil => simp [before] at lengths
      | cons y ys => exact ⟨y, ys, rfl⟩
    by_cases same : op.opClass = c
    · -- the first operator of the class takes the operands on both sides
      obtain ⟨rounds, rfl⟩ := Nat.exists_eq_add_one.mpr (Nat.zero_lt_of_lt enough)
      have two : a.Adds (ts ++ ([first, t] ++ rest.map (·.2))) (xs ++ ([x, y] ++ ys)) b := adds
      obtain ⟨z, d, created, joined⟩ := two.join_between (u := join first t) before rfl wf (kind x y)
        (parts x y) fun tops => by
          obtain ⟨left, right⟩ := List.cons.inj tops
          rw [term, left, List.singleton_inj.mp right]
      obtain ⟨x', ys', d', run, adds'⟩ := ih joined before passed (Nat.lt_of_succ_lt_succ enough)
      rw [joinPairs, if_pos same]
      refine ⟨x', ys', d', ?_, adds'⟩
      rw [← run]
      have last : Reading.lastOfRun c (signs ++ ([op] ++ rest.map (·.1))) signs.length =
          signs.length + 0 := by
        rw [Reading.lastOfRun, pairs]
        rfl
      have result : ((Reading.join span c [op] [.element x, .element y]).startAt r).run b =
          .ok (.ok z, r) d := by
        rw [makes]
        exact Reading.run_edit created
      exact run_reduceClass_round rounds (ys.map .element) passed same rfl last result
    · have later : a.Adds ((ts ++ [first]) ++ t :: rest.map (·.2)) ((xs ++ [x]) ++ y :: ys) b := by
        simpa using adds
      obtain ⟨x', ys', d, run, adds'⟩ := ih later (by simp [before]) (passed.concat same (.element x))
        (Nat.lt_of_succ_lt enough)
      rw [joinPairs, if_neg same]
      exact ⟨x, x' :: ys', d, by simpa using run, by simpa using adds'⟩

/-! ### Products -/

/-- Where a run of operators of the class ends, it ends. -/
theorem lastOfRun_eq {runOps : List Operator} (runs : c.joinsRuns = true)
    (all : ∀ o ∈ op :: runOps, o.opClass = c) (stops : ∀ o ∈ ops.head?, o.opClass ≠ c) :
    Reading.lastOfRun c (signs ++ (op :: runOps ++ ops)) signs.length =
      signs.length + runOps.length := by
  have run : (op :: runOps ++ ops).takeWhile (fun o => o.opClass = c) = op :: runOps := by
    rw [List.takeWhile_append_of_pos (by simpa using all)]
    cases ops with
    | nil => simp
    | cons o ops => rw [List.takeWhile_cons_of_neg (by simpa using stops o rfl), List.append_nil]
  rw [Reading.lastOfRun, runs, if_pos rfl, List.drop_left, run, List.length_cons]
  omega

theorem run_handles (xs : List Handle) :
    ((xs.map Operand.element).mapM Operand.handle).run a = .ok xs a := by
  induction xs with
  | nil => rfl
  | cons x xs ih =>
    have element : (Operand.element x).handle.run a = .ok x a := rfl
    rw [List.map_cons, List.mapM_cons, Edit.run_bind_of_ok element, Edit.run_bind_of_ok ih]
    rfl

/-- The items up to the first operator of another class are a run. -/
theorem exists_run (c : OperatorClass) (items : List Item) : ∃ run back, items = run ++ back ∧
    (∀ item ∈ run, item.1.opClass = c) ∧ ∀ item ∈ back.head?, item.1.opClass ≠ c := by
  induction items with
  | nil => exact ⟨[], [], rfl, nofun, nofun⟩
  | cons item items ih =>
    by_cases same : item.1.opClass = c
    · obtain ⟨run, back, rfl, all, stops⟩ := ih
      exact ⟨item :: run, back, rfl, List.forall_mem_cons.mpr ⟨same, all⟩, stops⟩
    · refine ⟨[], item :: items, rfl, nofun, fun other head => ?_⟩
      cases head
      exact same

/-- In front of another class a run has no more operands. -/
theorem joinRuns_stop (join : List Term → Term) {back : List Item}
    (stops : ∀ item ∈ back.head?, item.1.opClass ≠ c) (first z : Term) :
    joinRuns c join first back = ([first], (joinRuns c join z back).2) := by
  cases back with
  | nil => rfl
  | cons item back => simp only [joinRuns, if_neg (stops item rfl)]

/-- A chain whose first operators are of the class has these operands in its first run. -/
theorem joinRuns_run (join : List Term → Term) {run back : List Item}
    (all : ∀ item ∈ run, item.1.opClass = c) (stops : ∀ item ∈ back.head?, item.1.opClass ≠ c)
    (first z : Term) : joinRuns c join first (run ++ back) =
      (first :: run.map (·.2), (joinRuns c join z back).2) := by
  induction run generalizing first with
  | nil => exact joinRuns_stop join stops first z
  | cons item run ih =>
    obtain ⟨same, all⟩ := List.forall_mem_cons.mp all
    simp only [List.cons_append, joinRuns, ih all, if_pos same, List.map_cons]

/-- One round makes a product of a run. -/
theorem run_productRound {run back : List Item} {hs : List Handle} (wf : a.WellFormed)
    (adds : a.Adds (ts ++ (first :: run.map (·.2) ++ back.map (·.2))) (xs ++ (hs ++ ys)) b)
    (before : xs.length = ts.length) (held : hs.length = run.length + 1) (several : run ≠ [])
    (all : ∀ item ∈ run, item.1.opClass = .product)
    (stops : ∀ item ∈ back.head?, item.1.opClass ≠ .product)
    (passed : Passed .product front signs) : ∃ z d,
      ((Reading.reduceClass span .product (rounds + 1) (front ++ (hs ++ ys).map .element)
          (signs ++ (run ++ back).map (·.1))).startAt r).run b =
        ((Reading.reduceClass span .product rounds (front ++ (z :: ys).map .element)
          (signs ++ back.map (·.1))).startAt r).run d ∧
      a.Adds (ts ++ .productOf (first :: run.map (·.2)) :: back.map (·.2)) (xs ++ z :: ys) d := by
  obtain ⟨item, run, rfl⟩ := List.exists_cons_of_ne_nil several
  obtain ⟨x, hs, rfl⟩ := List.exists_cons_of_length_eq_add_one held
  obtain ⟨y, hs, rfl⟩ := List.exists_cons_of_length_eq_add_one (Nat.succ.inj held)
  obtain ⟨z, d, created, made⟩ := adds.join_between before (by simpa using held) wf
    (e := .product (x :: y :: hs)) nofun rfl fun tops => congrArg Term.product tops
  refine ⟨z, d, ?_, made⟩
  have stops' : ∀ o ∈ (back.map (·.1)).head?, o.opClass ≠ .product := by
    rw [List.head?_map]
    rintro o member
    obtain ⟨later, head, rfl⟩ := Option.map_eq_some_iff.mp member
    exact stops later head
  have joined : ((Reading.join span .product (item.1 :: run.map (·.1))
      ((x :: y :: hs).map .element)).startAt r).run b = .ok (.ok z, r) d :=
    (Reading.run_edit_bind (run_handles (x :: y :: hs))).trans (Reading.run_edit created)
  have round := run_reduceClass_round rounds (ys.map .element) passed
    (all item List.mem_cons_self) (by simpa using held)
    (lastOfRun_eq rfl (by simpa using all) stops') joined
  simpa using round

/-- Runs are joined in the lists as they are in the chain. -/
theorem run_reduceRuns (span : Span) (r : Reader) (wf : a.WellFormed)
    (adds : a.Adds (ts ++ first :: rest.map (·.2)) (xs ++ x :: ys) b) (before : xs.length = ts.length)
    (passed : Passed .product front signs) (enough : rest.length < rounds) : ∃ x' ys' d,
      ((Reading.reduceClass span .product rounds (front ++ (x :: ys).map .element)
          (signs ++ rest.map (·.1))).startAt r).run b =
        .ok (.ok (front ++ (x' :: ys').map .element,
          signs ++ (joinRuns .product .productOf first rest).2.map (·.1)), r) d ∧
      a.Adds (ts ++ .productOf (joinRuns .product .productOf first rest).1 ::
        (joinRuns .product .productOf first rest).2.map (·.2)) (xs ++ x' :: ys') d := by
  obtain ⟨n, length⟩ : ∃ n, n = rest.length := ⟨_, rfl⟩
  induction n using Nat.strongRecOn generalizing first x ys ts xs front signs rounds b rest with
  | ind n ih =>
  subst length
  cases rest with
  | nil =>
    refine ⟨x, ys, b, ?_, adds⟩
    rw [joinRuns, List.map_nil, List.append_nil]
    exact run_reduceClass_none passed.others enough
  | cons item rest =>
    obtain ⟨op, t⟩ := item
    have lengths := adds.length_eq
    simp only [List.length_append, List.length_cons, List.length_map, before] at lengths
    by_cases same : op.opClass = .product
    · -- the whole run is drained, and what is left starts with another class or is empty
      obtain ⟨rounds, rfl⟩ := Nat.exists_eq_add_one.mpr (Nat.zero_lt_of_lt enough)
      obtain ⟨run, back, rfl, all, stops⟩ := exists_run .product rest
      obtain ⟨hs, zs, rfl, held⟩ : ∃ hs zs, ys = hs ++ zs ∧ hs.length = run.length + 1 :=
        ⟨ys.take (run.length + 1), ys.drop (run.length + 1), (List.take_append_drop _ _).symm, by
          simp at lengths ⊢; omega⟩
      have all' : ∀ item ∈ (op, t) :: run, item.1.opClass = .product :=
        List.forall_mem_cons.mpr ⟨same, all⟩
      have apart : a.Adds (ts ++ (first :: ((op, t) :: run).map (·.2) ++ back.map (·.2)))
          (xs ++ ((x :: hs) ++ zs)) b := by
        simpa using adds
      obtain ⟨z, d, round, made⟩ := run_productRound wf apart before (by simp [held])
        (List.cons_ne_nil _ _) all' stops passed
      rw [List.length_cons, List.length_append] at enough
      have fewer : back.length < rounds := by omega
      have shorter : back.length < ((op, t) :: (run ++ back)).length := by
        rw [List.length_cons, List.length_append]
        omega
      obtain ⟨x', ys', d', reduced, adds'⟩ := ih back.length shorter made before passed fewer rfl
      rw [joinRuns_stop _ stops _ first] at reduced adds'
      have whole := joinRuns_run .productOf all' stops first first
      rw [List.cons_append] at whole
      rw [whole]
      exact ⟨x', ys', d', round.trans reduced, adds'⟩
    · obtain ⟨y, ys, rfl⟩ := List.exists_cons_of_length_eq_add_one (by simpa using lengths)
      have later : a.Adds ((ts ++ [first]) ++ t :: rest.map (·.2)) ((xs ++ [x]) ++ y :: ys) b := by
        simpa using adds
      obtain ⟨x', ys', d, run, adds'⟩ := ih rest.length (by simp) later (by simp [before])
        (passed.concat same (.element x)) (Nat.lt_of_succ_lt enough) rfl
      simp only [joinRuns, if_neg same]
      exact ⟨x, x' :: ys', d, by simpa using run, by simpa [Term.productOf] using adds'⟩

/-! ### Sums -/

/-- A subtracted operand gets a sign of its own. -/
theorem run_sumTerm {i : Nat} (wf : a.WellFormed) (adds : a.Adds (ts ++ t :: us) (xs ++ y :: ys) b)
    (before : xs.length = ts.length) (here : ops[i]? = some op) : ∃ z d,
      (sumTerm ops (i + 1) y).run b = .ok z d ∧
      a.Adds (ts ++ Item.signed (op, t) :: us) (xs ++ z :: ys) d := by
  have subtracted : (isSubtracted ops (i + 1)).run b = .ok (decide (op = .subtract)) b := by
    rw [isSubtracted, Edit.run_bind_of_ok (run_entry here)]
    rfl
  by_cases minus : op = .subtract
  · have apart : a.Adds (ts ++ ([t] ++ us)) (xs ++ ([y] ++ ys)) b := adds
    obtain ⟨z, d, created, made⟩ := apart.join_between (u := .negation t) before rfl wf
      (e := .negation y) nofun rfl fun top => congrArg Term.negation (List.singleton_inj.mp top)
    refine ⟨z, d, ?_, by rwa [Item.signed, decide_eq_true minus]⟩
    rw [sumTerm, Edit.run_bind_of_ok subtracted, decide_eq_true minus]
    exact created
  · refine ⟨y, b, ?_, by rwa [Item.signed, decide_eq_false minus]⟩
    rw [sumTerm, Edit.run_bind_of_ok subtracted, decide_eq_false minus]
    rfl

/-- The terms of a sum, behind the first operand: each takes the sign in front of it. -/
theorem run_sumTerms (ops : List Operator) (i : Nat) (wf : a.WellFormed)
    (adds : a.Adds (ts ++ rest.map (·.2)) (xs ++ ys) b) (before : xs.length = ts.length)
    (between : ops.drop i = rest.map (·.1)) : ∃ zs d,
      (sumTerms ops (i + 1) (ys.map .element)).run b = .ok zs d ∧
      a.Adds (ts ++ rest.map Item.signed) (xs ++ zs) d := by
  have lengths := adds.length_eq
  simp only [List.length_append, List.length_map, before, Nat.add_left_cancel_iff] at lengths
  induction rest generalizing ts xs ys i b with
  | nil =>
    rw [List.eq_nil_of_length_eq_zero lengths] at adds ⊢
    exact ⟨[], b, rfl, adds⟩
  | cons item rest ih =>
    obtain ⟨y, ys, rfl⟩ := List.exists_cons_of_length_eq_add_one lengths
    have here : ops[i]? = some item.1 := by
      rw [← List.head?_drop, between]
      rfl
    have later : ops.drop (i + 1) = rest.map (·.1) := by
      rw [← List.tail_drop, between]
      rfl
    obtain ⟨z, d, made, signed⟩ := run_sumTerm wf adds before here
    rw [List.append_cons, List.append_cons xs] at signed
    obtain ⟨zs, d', run, all⟩ := ih (i + 1) signed (by simp [before]) later
      (by simpa using lengths)
    refine ⟨z :: zs, d', ?_, by simpa using all⟩
    rw [List.map_cons, sumTerms, Edit.run_bind_of_ok made, Edit.run_bind_of_ok run]
    rfl

/-- The zero that a leading `-` subtracts from. -/
def leadOf (sign : Operator) : List Operand := if sign = .subtract then [.zero] else []

/-- The operator behind the zero that a leading `-` subtracts from. -/
def leadSigns (sign : Operator) : List Operator := if sign = .subtract then [.subtract] else []

/-- All terms of a sum, where the sign of the first one subtracts from zero. -/
theorem run_sumTerms_all (sign : Operator) (wf : a.WellFormed)
    (adds : a.Adds (first :: rest.map (·.2)) (x :: ys) b) : ∃ zs d,
      (sumTerms (leadSigns sign ++ rest.map (·.1)) 0 (leadOf sign ++ (x :: ys).map .element)).run b =
        .ok zs d ∧ a.Adds (((sign, first) :: rest).map Item.signed) zs d := by
  by_cases minus : sign = .subtract
  · subst minus
    have all : a.Adds ([] ++ ((.subtract, first) :: rest : List Item).map (·.2)) ([] ++ x :: ys) b :=
      adds
    exact run_sumTerms (.subtract :: rest.map (·.1)) 0 wf all rfl rfl
  · have others : a.Adds ([first] ++ rest.map (·.2)) ([x] ++ ys) b := adds
    obtain ⟨zs, d, run, signed⟩ := run_sumTerms (rest.map (·.1)) 0 wf others rfl rfl
    refine ⟨x :: zs, d, ?_, by rwa [List.map_cons, Item.signed, decide_eq_false minus]⟩
    have added : (sumTerm (rest.map (·.1)) 0 x).run b = .ok x b := rfl
    rw [leadSigns, leadOf, if_neg minus, if_neg minus, List.nil_append, List.nil_append,
      List.map_cons, sumTerms, Edit.run_bind_of_ok added, Edit.run_bind_of_ok run]
    rfl

theorem length_leadOf (sign : Operator) : (leadOf sign).length = (leadSigns sign).length := by
  unfold leadOf leadSigns
  split <;> rfl

theorem opClass_leadSigns (sign : Operator) : ∀ op ∈ leadSigns sign, op.opClass = .sum := by
  intro op member
  unfold leadSigns at member
  split at member
  · rw [List.mem_singleton.mp member]
    rfl
  · cases member

theorem passed_lead (sign : Operator) (other : c ≠ .sum) :
    Passed c (leadOf sign) (leadSigns sign) where
  aligned := length_leadOf sign
  others op member := by
    rw [opClass_leadSigns sign op member]
    exact other.symm

/-- One round makes a sum of all operands. -/
theorem run_sumRound {run : List Operand} {z : Handle} {zs : List Handle} {d d' : Arena}
    (all : ∀ o ∈ op :: ops, o.opClass = .sum) (count : run.length = ops.length + 2)
    (terms : (sumTerms (op :: ops) 0 run).run b = .ok zs d) (some : zs ≠ [])
    (gathered : (Edit.sum zs).run d = .ok z d') (enough : 0 < rounds) :
    ((Reading.reduceClass span .sum (rounds + 1) run (op :: ops)).startAt r).run b =
      .ok (.ok ([.element z], []), r) d' := by
  have joined : ((Reading.join span .sum (op :: ops) run).startAt r).run b = .ok (.ok z, r) d' := by
    refine (Reading.run_edit_bind terms).trans ?_
    rw [if_neg (by simpa using some)]
    exact Reading.run_edit gathered
  have last : Reading.lastOfRun .sum ([] ++ (op :: ops ++ [])) 0 = 0 + ops.length :=
    lastOfRun_eq rfl all nofun
  have round : ((Reading.reduceClass span .sum (rounds + 1) ([] ++ (run ++ []))
      ([] ++ (op :: ops ++ []))).startAt r).run b = _ :=
    run_reduceClass_round rounds [] (.nil _) (all op List.mem_cons_self) count last joined
  rw [List.append_nil, List.append_nil, List.nil_append, List.nil_append] at round
  rw [round]
  exact run_reduceClass_none (List.forall_mem_nil _) enough

/-- What only signs stand between is one sum. -/
theorem run_reduceSum (span : Span) (r : Reader) (sign : Operator) (wf : a.WellFormed)
    (adds : a.Adds (first :: rest.map (·.2)) (x :: ys) b)
    (sums : ∀ item ∈ rest, item.1.opClass = .sum)
    (enough : (leadSigns sign ++ rest.map (·.1)).length < rounds) : ∃ z d,
      ((Reading.reduceClass span .sum rounds (leadOf sign ++ (x :: ys).map .element)
        (leadSigns sign ++ rest.map (·.1))).startAt r).run b = .ok (.ok ([.element z], []), r) d ∧
      a.Adds [.sumOf (((sign, first) :: rest).map Item.signed)] [z] d := by
  have lengths : ys.length = rest.length := by simpa using adds.length_eq
  have all : ∀ op ∈ leadSigns sign ++ rest.map (·.1), op.opClass = .sum := by
    intro op member
    rcases List.mem_append.mp member with lead | later
    · exact opClass_leadSigns sign op lead
    · obtain ⟨item, inside, rfl⟩ := List.mem_map.mp later
      exact sums item inside
  obtain ⟨zs, d, terms, signed⟩ := run_sumTerms_all sign wf adds
  obtain ⟨z, d', gathered, made⟩ := Edit.run_sum_adds signed wf
  have some : zs ≠ [] := fun none => by simpa [none] using signed.length_eq
  have count : (leadOf sign ++ (x :: ys).map Operand.element).length =
      (leadSigns sign ++ rest.map (·.1)).length + 1 := by
    simp [length_leadOf, lengths]
    omega
  obtain ⟨rounds, rfl⟩ := Nat.exists_eq_add_one.mpr (Nat.zero_lt_of_lt enough)
  cases between : leadSigns sign ++ rest.map (·.1) with
  | nil =>
    -- a single operand without a sign is the sum itself
    obtain ⟨unsigned, none⟩ := List.append_eq_nil_iff.mp between
    obtain rfl := List.map_eq_nil_iff.mp none
    obtain rfl := List.eq_nil_of_length_eq_zero lengths
    have positive : sign ≠ .subtract := fun minus => by simp [leadSigns, minus] at unsigned
    refine ⟨x, b, ?_, ?_⟩
    · rw [leadOf, if_neg positive]
      exact run_reduceClass_none (List.forall_mem_nil _) (Nat.succ_pos _)
    · rw [List.map_singleton, Term.sumOf, Item.signed, decide_eq_false positive]
      exact adds
  | cons op ops =>
    rw [between] at all terms count enough
    rw [List.length_cons] at enough
    exact ⟨z, d', run_sumRound all count terms some gathered (by omega), made⟩

/-! ### Whole expressions -/

theorem run_reduceClasses_cons {classes : List OperatorClass}
    (done : ((Reading.reduceClass span c (ops.length + 1) front ops).startAt r).run a =
      .ok (.ok (back, signs), r) b) :
    ((Reading.reduceClasses span (c :: classes) front ops).startAt r).run a =
      ((Reading.reduceClasses span classes back signs).startAt r).run b :=
  Reading.run_bind_of_ok done

/-- Reducing the operands of an expression goes through, and makes one element of them: the term that
their chain is reduced to. -/
theorem run_reduce (span : Span) (r : Reader) (sign : Operator) (wf : a.WellFormed)
    (adds : a.Adds (first :: rest.map (·.2)) (x :: ys) b) : ∃ z d,
      ((Reading.reduce span (leadOf sign ++ (x :: ys).map .element)
        (leadSigns sign ++ rest.map (·.1))).startAt r).run b = .ok (.ok z, r) d ∧
      a.Adds [reduce ((sign, first) :: rest)] [z] d := by
  have enough : ∀ items : List Item,
      items.length < (leadSigns sign ++ items.map (·.1)).length + 1 := fun items => by
    rw [List.length_append, List.length_map]
    omega
  have operands : a.Adds ([] ++ first :: rest.map (·.2)) ([] ++ x :: ys) b := adds
  obtain ⟨x₁, ys₁, d₁, powers, bases⟩ := run_reducePairs span r .power .power .power wf rfl
    (fun _ _ _ => rfl) nofun (fun _ _ => rfl) (fun _ _ _ => rfl) operands rfl
    (passed_lead sign nofun) (enough _)
  obtain ⟨x₂, ys₂, d₂, quotients, factors⟩ := run_reducePairs span r .quotient .fraction .fraction wf
    rfl (fun _ _ _ => rfl) nofun (fun _ _ => rfl) (fun _ _ _ => rfl) bases rfl
    (passed_lead sign nofun) (enough _)
  obtain ⟨x₃, ys₃, d₃, products, terms⟩ := run_reduceRuns span r wf factors rfl
    (passed_lead sign nofun) (enough _)
  obtain ⟨z, d₄, sum, adds⟩ := run_reduceSum span r sign wf terms
    (fun item member => operators_productsOf first rest member) (Nat.lt_succ_self _)
  have classes : ((Reading.reduceClasses span OperatorClass.reductionOrder
      (leadOf sign ++ (x :: ys).map .element) (leadSigns sign ++ rest.map (·.1))).startAt r).run b =
        .ok (.ok ([.element z], []), r) d₄ := by
    rw [OperatorClass.reductionOrder, run_reduceClasses_cons powers, run_reduceClasses_cons quotients,
      run_reduceClasses_cons products, run_reduceClasses_cons sum]
    rfl
  refine ⟨z, d₄, ?_, adds⟩
  rw [Reading.reduce, Reading.run_bind_of_ok classes]
  rfl

end AlgebraEditor.Formula
