import AlgebraEditor.Proofs.Formula.Running
import AlgebraEditor.Proofs.Renaming.Editing

/-!
# Reading texts under other names

What a text is read as does not depend on the handles in the arena: the same text can be read into
every arena that embeds the first one, with the same parse error or the same element under its other
name, and one arena embeds the other again.
-/

namespace AlgebraEditor

open Function (Injective)

variable {f : Handle → Handle}

namespace Formula

/-- The operand with its element under another name. -/
def Operand.rename (f : Handle → Handle) : Operand → Operand
  | element h => element (f h)
  | zero => zero

namespace Reading

/-- Wherever they start, the second reading can follow the first one, and leaves the same reader. -/
def Follows {α β : Type} (f : Handle → Handle) (g : α → β) (x : Reading α) (y : Reading β) : Prop :=
  ∀ r, Edit.Follows f (Prod.map (Except.map g) id) (x.startAt r) (y.startAt r)

namespace Follows

variable {α β γ δ : Type} {g : α → β} {g' : γ → δ} {x : Reading α} {y : Reading β}

theorem pure {v : α} {w : β} (same : g v = w) :
    Follows f g (Pure.pure v : Reading α) (Pure.pure w : Reading β) := fun _ =>
  .pure (by rw [← same]; rfl)

theorem bind {k : α → Reading γ} {k' : β → Reading δ} (first : Follows f g x y)
    (rest : ∀ v, Follows f g' (k v) (k' (g v))) : Follows f g' (x >>= k) (y >>= k') := by
  intro r
  rw [startAt_bind, startAt_bind]
  refine (first r).bind fun out => ?_
  obtain ⟨answer, r'⟩ := out
  cases answer with
  | ok v => exact rest v r'
  | error e => exact .pure rfl

theorem edit {z : Edit α} {w : Edit β} (follows : Edit.Follows f g z w) :
    Follows f g (liftM z : Reading α) (liftM w : Reading β) := by
  intro r
  rw [startAt_edit, startAt_edit]
  exact follows.bind fun v => .pure rfl

theorem throw (e : ParseError) :
    Follows f g (MonadExcept.throw e : Reading α) (MonadExcept.throw e : Reading β) :=
  fun _ => .pure rfl

theorem fault {c : Fault} : Follows f g (Reading.fault c : Reading α) y := by
  intro r
  rw [Reading.fault, startAt_edit]
  exact .throw_bind

theorem get : Follows f id (MonadState.get : Reading Reader) MonadState.get := fun _ => .pure rfl

theorem set (r : Reader) : Follows f id (MonadStateOf.set r : Reading PUnit) (MonadStateOf.set r) :=
  fun _ => .pure rfl

/-! ### Runs -/

theorem handle (o : Operand) : Edit.Follows f f o.handle (o.rename f).handle := by
  cases o with
  | element h => exact .pure rfl
  | zero => exact .throw

theorem drain (g : α → β) (xs : List α) (first last : Nat) :
    Edit.Follows f (Prod.map (List.map g) (List.map g)) (Formula.drain xs first last)
      (Formula.drain (xs.map g) first last) := by
  refine Edit.Follows.guard (by rw [List.length_map]) (fun _ => .pure ?_) fun _ => .throw
  simp [List.extract, List.map_take, List.map_drop]

theorem entry (g : α → β) (xs : List α) (i : Nat) :
    Edit.Follows f g (Formula.entry xs i) (Formula.entry (xs.map g) i) := by
  unfold Formula.entry
  rw [List.getElem?_map]
  cases xs[i]? with
  | none => exact .throw
  | some x => exact .pure rfl

theorem isSubtracted (ops : List Operator) (i : Nat) :
    Edit.Follows f id (Formula.isSubtracted ops i) (Formula.isSubtracted ops i) := by
  cases i with
  | zero => exact .pure rfl
  | succ i =>
    have same := entry (f := f) id ops i
    rw [List.map_id] at same
    exact same.bind fun op => .pure rfl

/-! ### Tokens -/

theorem token : Follows f id Reading.token Reading.token := by
  refine Follows.get.bind fun r => ?_
  dsimp only [id]
  cases r.next with
  | error e => exact throw e
  | ok out => exact (set out.2).bind fun _ => .pure rfl

theorem sign : Follows f (Prod.map (List.map (Operand.rename f)) id) Reading.sign Reading.sign := by
  refine Follows.get.bind fun r => ?_
  dsimp only [id]
  split
  · exact (set _).bind fun _ => .pure rfl
  · exact (set _).bind fun _ => .pure rfl
  · exact .pure rfl

theorem operator? : Follows f id Reading.operator? Reading.operator? := by
  refine Follows.get.bind fun r => ?_
  dsimp only [id]
  split
  · split
    · exact (set _).bind fun _ => .pure rfl
    · exact .pure rfl
  · exact .pure rfl

/-! ### Reduction -/

section

variable (inj : Injective f)

include inj

theorem sumTerm (ops : List Operator) (i : Nat) (h : Handle) :
    Edit.Follows f f (Formula.sumTerm ops i h) (Formula.sumTerm ops i (f h)) := by
  refine (isSubtracted ops i).bind fun subtracted => ?_
  cases subtracted with
  | true => exact .negation inj h
  | false => exact .pure rfl

theorem sumTerms (ops : List Operator) (i : Nat) (run : List Operand) :
    Edit.Follows f (List.map f) (Formula.sumTerms ops i run)
      (Formula.sumTerms ops i (run.map (Operand.rename f))) := by
  induction run generalizing i with
  | nil => exact .pure rfl
  | cons o run ih =>
    cases o with
    | zero => exact ih (i + 1)
    | element h =>
      exact (sumTerm inj ops i h).bind fun term => (ih (i + 1)).bind fun rest => .pure rfl

theorem join (span : Span) (c : OperatorClass) (ops : List Operator) (run : List Operand) :
    Follows f f (Reading.join span c ops run)
      (Reading.join span c ops (run.map (Operand.rename f))) := by
  have operand : ∀ i, Edit.Follows f (Operand.rename f) (Formula.entry run i)
      (Formula.entry (run.map (Operand.rename f)) i) := entry _ run
  cases c with
  | power =>
    exact (edit (operand 0)).bind fun o => (edit (handle o)).bind fun x =>
      (edit (operand 1)).bind fun o' => (edit (handle o')).bind fun y =>
        edit (.create inj (.power x y))
  | quotient =>
    exact (edit (operand 0)).bind fun o => (edit (handle o)).bind fun x =>
      (edit (operand 1)).bind fun o' => (edit (handle o')).bind fun y =>
        edit (.create inj (.fraction x y))
  | product => exact (edit (.mapM handle)).bind fun hs => edit (.product inj hs)
  | sum =>
    refine (edit (sumTerms inj ops 0 run)).bind fun terms => ?_
    cases terms with
    | nil => exact throw _
    | cons t ts => exact edit (.sum inj (t :: ts))

theorem reduceClass (span : Span) (c : OperatorClass) (rounds : Nat) (operands : List Operand)
    (ops : List Operator) :
    Follows f (Prod.map (List.map (Operand.rename f)) id)
      (Reading.reduceClass span c rounds operands ops)
      (Reading.reduceClass span c rounds (operands.map (Operand.rename f)) ops) := by
  induction rounds generalizing operands ops with
  | zero => exact fault
  | succ rounds ih =>
    rw [Reading.reduceClass, Reading.reduceClass]
    cases ops.findIdx? (·.opClass = c) with
    | none => exact .pure rfl
    | some first =>
      have drained := drain (f := f) id ops first (lastOfRun c ops first)
      rw [List.map_id_fun, Prod.map_id, id_eq] at drained
      refine (edit drained).bind fun (runOps, left) => ?_
      refine (edit (drain (Operand.rename f) operands first _)).bind fun (run, others) => ?_
      refine (join inj span c runOps run).bind fun h => ?_
      have later := ih (others.insertIdx first (.element h)) left
      rw [List.map_insertIdx] at later
      exact later

theorem reduceClasses (span : Span) (classes : List OperatorClass) (operands : List Operand)
    (ops : List Operator) :
    Follows f (Prod.map (List.map (Operand.rename f)) id)
      (Reading.reduceClasses span classes operands ops)
      (Reading.reduceClasses span classes (operands.map (Operand.rename f)) ops) := by
  induction classes generalizing operands ops with
  | nil => exact .pure rfl
  | cons c classes ih => exact (reduceClass inj span c _ operands ops).bind fun out => ih out.1 out.2

theorem reduce (span : Span) (operands : List Operand) (ops : List Operator) :
    Follows f f (Reading.reduce span operands ops)
      (Reading.reduce span (operands.map (Operand.rename f)) ops) := by
  refine (reduceClasses inj span _ operands ops).bind fun (left, _) => ?_
  match left with
  | [.element h] => exact .pure rfl
  | [] | [.zero] | .element _ :: _ :: _ | .zero :: _ :: _ => exact fault

/-! ### Expressions -/

theorem atom {x y : Reading Handle} (inner : Follows f f x y) :
    Follows f f (Reading.atom x) (Reading.atom y) := by
  refine token.bind fun t => ?_
  dsimp only [id]
  cases t.kind with
  | letter => exact edit (.create inj (.symbol _))
  | number =>
    dsimp only
    split
    · exact edit (.integer inj _)
    · exact throw _
  | opening =>
    refine inner.bind fun h => token.bind fun close => ?_
    dsimp only [id]
    split
    · exact .pure rfl
    · exact throw _
  | _ => exact throw _

theorem chain {x y : Reading Handle} (inner : Follows f f x y) (rounds : Nat)
    (operands : List Operand) (ops : List Operator) :
    Follows f (Prod.map (List.map (Operand.rename f)) id) (Reading.chain x rounds operands ops)
      (Reading.chain y rounds (operands.map (Operand.rename f)) ops) := by
  induction rounds generalizing operands ops with
  | zero => exact fault
  | succ rounds ih =>
    refine operator?.bind fun next => ?_
    cases next with
    | none => exact .pure rfl
    | some op =>
      refine (atom inj inner).bind fun h => ?_
      have later := ih (operands ++ [.element h]) (ops ++ [op])
      rw [List.map_append] at later
      exact later

theorem expression (depth : Nat) :
    Follows f f (Reading.expression depth) (Reading.expression depth) := by
  induction depth with
  | zero => exact fault
  | succ depth ih =>
    refine Follows.get.bind fun r => sign.bind fun (zero, signs) => (atom inj ih).bind fun h =>
      Follows.get.bind fun r' => ?_
    have chained := chain inj ih (r'.rest.length + 1) (zero ++ [.element h]) signs
    rw [List.map_append] at chained
    exact chained.bind fun (operands, ops) => Follows.get.bind fun r => reduce inj _ operands ops

theorem whole : Follows f f Reading.whole Reading.whole := by
  refine Follows.get.bind fun r => (expression inj _).bind fun h => Follows.get.bind fun r => ?_
  dsimp only [id]
  split
  · exact .pure rfl
  · exact throw _

end

end Follows

end Reading

end Formula

theorem Edit.Follows.plantText (inj : Injective f) (text : List Char) :
    Edit.Follows f (Except.map f) (Edit.plantText text) (Edit.plantText text) := by
  unfold Edit.plantText
  cases Formula.Reader.ofText text with
  | error e => exact .pure rfl
  | ok r => exact (Formula.Reading.Follows.whole inj r).bind fun out => .pure rfl

end AlgebraEditor
