import AlgebraEditor.Proofs.Arena.Evolution
import AlgebraEditor.Proofs.Arena.Reachability
import AlgebraEditor.Proofs.Law.Basic

/-!
# Runs of operations

An arena is changed by operations, one after the other, with any handles. As long as each of them
goes through, the arena stays well-formed, so that everything stored is owned once, whether it is
part of the expression or not.
-/

namespace AlgebraEditor

open Arena

/-- A change of an arena. `replaceWith` builds by a run of operations, and may answer with any
handle. -/
inductive Operation where
  | symbol (name : String)
  | signedInteger (value : Int)
  | integer (value : UInt64)
  | negation (inner : Handle)
  | fraction (numerator denominator : Handle)
  | power (base exponent : Handle)
  | product (factors : List Handle)
  | sum (terms : List Handle)
  | copy (h : Handle)
  | replace (container old new : Handle)
  | replaceWith (h : Handle) (building : List Operation) (new : Handle)
  | setContent (new : Handle)
  | insertChild (list : Handle) (index : Nat) (child : Handle)
  | appendChild (list child : Handle)
  | removeChildren (list : Handle) (children : List Handle)
  | sweep

namespace Operation

mutual

/-- Carries out the operation. -/
def run : Operation → Edit Unit
  | symbol name => discard (Edit.symbol name)
  | signedInteger value => discard (Edit.signedInteger value)
  | integer value => discard (Edit.integer value)
  | negation inner => discard (Edit.negation inner)
  | fraction numerator denominator => discard (Edit.fraction numerator denominator)
  | power base exponent => discard (Edit.power base exponent)
  | product factors => discard (Edit.product factors)
  | sum terms => discard (Edit.sum terms)
  | copy h => discard (Edit.copy h)
  | replace container old new => Edit.replace container old new
  | replaceWith h building new =>
    discard (Edit.replaceWith h fun _ => do runAll building; return new)
  | setContent new => discard (Edit.setContent new)
  | insertChild list index child => Edit.insertChild list index child
  | appendChild list child => Edit.appendChild list child
  | removeChildren list children => discard (Edit.removeChildren list children)
  | sweep => discard Edit.sweep

/-- Carries out operations in turn, up to the first that ends with a fault. -/
def runAll : List Operation → Edit Unit
  | [] => return
  | operation :: rest => do
    run operation
    runAll rest

end

end Operation

namespace Edit

variable {a b : Arena} {h r c old new list x : Handle} {e : Element} {n : Node} {u : Unit}
  {hs : List Handle}

/-! ### What goes through -/

theorem run_integer_eq_ok {value : UInt64} : (integer value).run a = .ok r b ↔
    r = a.next ∧ b = a.plant (.integer value) := by
  rw [run_integer, EStateM.Result.ok.injEq, eq_comm, @eq_comm _ _ b]

/-- A list of fewer than two children is not made: its identity takes its place, or the child. -/
theorem run_gather {make : List Handle → Element} {identity : UInt64}
    (run : (gather make identity hs).run a = .ok r b) : b = a.plant (.integer identity) ∨ b = a ∨
      (2 ≤ hs.length ∧ (create (make hs)).run a = .ok r b) := by
  match hs with
  | [] => exact .inl (run_integer_eq_ok.mp run).2
  | [only] =>
    unfold gather at run
    simp only [parentOf, run_inspect_bind] at run
    obtain ⟨owner, _, run⟩ := run
    cases owner with
    | none => exact .inr (.inl (run_pure_eq_ok.mp run).2.symm)
    | some owner => cases run
  | first :: second :: rest => exact .inr (.inr ⟨by simp, run⟩)

/-- Only what is stored and is not the wrapper is copied. -/
theorem run_copy_eq_ok (wf : a.WellFormed) (run : (copy h).run a = .ok r b) :
    ∃ n, a.get? h = some n ∧ a.Adds [a.denote h] [r] b := by
  obtain ⟨e, read, copied⟩ := run_inspect_bind.mp (run_get_bind.mp run)
  obtain ⟨n, stored, rfl⟩ := element_eq_ok.mp read
  have other : h ≠ a.root := by
    rintro rfl
    obtain ⟨inner, held⟩ := wf.wrapper
    cases held.symm.trans stored
    cases copied
  obtain ⟨s, d, built, adds⟩ := builds_copy wf stored other a (.refl a) wf
  cases run.symm.trans built
  exact ⟨n, stored, adds⟩

/-- Setting the content is replacing what the wrapper holds. -/
theorem run_setContent_eq_ok : (setContent new).run a = .ok r b ↔
    a.content = .ok r ∧ (replace a.root r new).run a = .ok () b := by
  unfold setContent
  rw [run_inspect_bind]
  constructor
  · rintro ⟨old, read, run⟩
    obtain ⟨_, a₁, replaced, done⟩ := run_bind_eq_ok.mp (run_get_bind.mp run)
    obtain ⟨rfl, rfl⟩ := run_pure_eq_ok.mp done
    exact ⟨read, replaced⟩
  · rintro ⟨read, replaced⟩
    refine ⟨r, read, run_get_bind.mpr ?_⟩
    rw [run_bind_of_ok replaced]
    rfl

theorem run_appendChild_eq_ok : (appendChild list x).run a = .ok u b ↔
    ∃ n, a.get? list = some n ∧ (insertChild list n.element.children.length x).run a = .ok u b := by
  unfold appendChild childrenOf
  rw [run_inspect_bind]
  constructor
  · rintro ⟨_, read, inserted⟩
    obtain ⟨n, stored, rfl⟩ := children_eq_ok.mp read
    exact ⟨n, stored, inserted⟩
  · rintro ⟨n, stored, inserted⟩
    exact ⟨_, children_of_get? stored, inserted⟩

/-- A placeholder takes the slot, then something is built, and the placeholder leaves the slot to
it. -/
theorem run_replaceWith_eq_ok {build : Handle → Edit Handle} : (replaceWith h build).run a = .ok r b ↔
    ∃ p a₁ a₂, a.owner? h = some p ∧ (replace p h a.next).run (a.plant (.integer 0)) = .ok () a₁ ∧
      (build h).run a₁ = .ok r a₂ ∧ (replace p a.next r).run a₂ = .ok () b := by
  unfold replaceWith parentOf
  rw [run_inspect_bind]
  constructor
  · rintro ⟨owner, read, run⟩
    cases owner with
    | none => cases run
    | some p =>
      obtain ⟨placeholder, a₀, planted, run⟩ := run_bind_eq_ok.mp run
      obtain ⟨rfl, rfl⟩ := run_integer_eq_ok.mp planted
      obtain ⟨_, a₁, placed, run⟩ := run_bind_eq_ok.mp run
      obtain ⟨new, a₂, built, run⟩ := run_bind_eq_ok.mp run
      obtain ⟨_, a₃, replaced, run⟩ := run_bind_eq_ok.mp run
      obtain ⟨rfl, rfl⟩ := run_pure_eq_ok.mp run
      exact ⟨p, a₁, a₂, parent_eq_some.mp read, placed, built, replaced⟩
  · rintro ⟨p, a₁, a₂, owned, placed, built, replaced⟩
    refine ⟨some p, parent_eq_some.mpr owned, ?_⟩
    dsimp only
    rw [run_bind_of_ok (run_integer a 0), run_bind_of_ok placed, run_bind_of_ok built,
      run_bind_of_ok replaced]
    rfl

/-! ### What stays well-formed -/

theorem create_wellFormed (wf : a.WellFormed) (kind : e.kind ≠ .root)
    (run : (create e).run a = .ok r b) : b.WellFormed := by
  obtain ⟨nodup, free, _, rfl⟩ := (run_create_eq_ok wf).mp run
  exact (wf.plant (Term.unwrapped_integer 0)).rewire get?_plant_next
    (rewirable_create wf kind nodup free)

theorem gather_wellFormed (wf : a.WellFormed) {make : List Handle → Element} {identity : UInt64}
    (kind : (make hs).kind ≠ .root) (run : (gather make identity hs).run a = .ok r b) :
    b.WellFormed := by
  obtain rfl | rfl | ⟨_, created⟩ := run_gather run
  · exact wf.plant (Term.unwrapped_integer identity)
  · exact wf
  · exact create_wellFormed wf kind created

theorem signedInteger_wellFormed (wf : a.WellFormed) {value : Int}
    (run : (signedInteger value).run a = .ok r b) : b.WellFormed := by
  obtain ⟨magnitude, a₁, planted, run⟩ := run_bind_eq_ok.mp run
  obtain ⟨rfl, rfl⟩ := run_integer_eq_ok.mp planted
  have wf' := wf.plant (Term.unwrapped_integer (.ofNat value.natAbs))
  split at run
  · exact create_wellFormed wf' (by simp [Element.kind]) run
  · obtain ⟨_, rfl⟩ := run_pure_eq_ok.mp run
    exact wf'

theorem copy_wellFormed (wf : a.WellFormed) (run : (copy h).run a = .ok r b) : b.WellFormed := by
  obtain ⟨n, _, adds⟩ := run_copy_eq_ok wf run
  exact adds.wf

theorem insertChild_wellFormed (wf : a.WellFormed) {i : Nat}
    (run : (insertChild list i x).run a = .ok u b) : b.WellFormed := by
  obtain ⟨n, stored, isList, short, fits, rfl⟩ := (run_insertChild_eq_ok wf).mp run
  exact wf.rewire stored (rewirable_insert wf stored isList short fits)

/-- Whatever is built in place of an element, as long as building it keeps arenas well-formed. -/
theorem replaceWith_wellFormed (wf : a.WellFormed) {build : Handle → Edit Handle}
    (keeps : ∀ a₁ a₂ new, a₁.WellFormed → (build h).run a₁ = .ok new a₂ → a₂.WellFormed)
    (run : (replaceWith h build).run a = .ok r b) : b.WellFormed := by
  obtain ⟨p, a₁, a₂, _, placed, built, replaced⟩ := run_replaceWith_eq_ok.mp run
  have wf₁ := (replace_evolves (wf.plant (Term.unwrapped_integer 0)) placed).wf
  exact (replace_evolves (keeps a₁ a₂ r wf₁ built) replaced).wf

theorem sweep_wellFormed (wf : a.WellFormed) {count : Nat} (run : sweep.run a = .ok count b) :
    b.WellFormed := by
  obtain ⟨_, _, swept, holds⟩ := run_sweep wf
  cases swept.symm.trans run
  exact holds.wf wf

end Edit

namespace Operation

open Edit in
mutual

theorem run_wellFormed (operation : Operation) {a b : Arena} {u : Unit} (wf : a.WellFormed)
    (run : operation.run.run a = .ok u b) : b.WellFormed := by
  match operation with
  | symbol _ | integer _ | negation _ | fraction _ _ | power _ _ =>
    obtain ⟨_, created⟩ := run_discard_eq_ok.mp run
    exact create_wellFormed wf (by simp [Element.kind]) created
  | signedInteger _ =>
    obtain ⟨_, made⟩ := run_discard_eq_ok.mp run
    exact signedInteger_wellFormed wf made
  | product _ | sum _ =>
    obtain ⟨_, gathered⟩ := run_discard_eq_ok.mp run
    exact gather_wellFormed wf (by simp [Element.kind]) gathered
  | copy _ =>
    obtain ⟨_, copied⟩ := run_discard_eq_ok.mp run
    exact copy_wellFormed wf copied
  | replace _ _ _ => exact (replace_evolves wf run).wf
  | replaceWith h building new =>
    obtain ⟨_, replaced⟩ := run_discard_eq_ok.mp run
    refine replaceWith_wellFormed wf (fun a₁ a₂ new wf₁ built => ?_) replaced
    obtain ⟨_, a₃, before, done⟩ := run_bind_eq_ok.mp built
    obtain ⟨_, rfl⟩ := run_pure_eq_ok.mp done
    exact runAll_wellFormed building wf₁ before
  | setContent _ =>
    obtain ⟨_, set⟩ := run_discard_eq_ok.mp run
    exact (replace_evolves wf (run_setContent_eq_ok.mp set).2).wf
  | insertChild _ _ _ => exact insertChild_wellFormed wf run
  | appendChild _ _ =>
    obtain ⟨_, _, inserted⟩ := run_appendChild_eq_ok.mp run
    exact insertChild_wellFormed wf inserted
  | removeChildren _ _ =>
    obtain ⟨_, removed⟩ := run_discard_eq_ok.mp run
    exact (removeChildren_evolves wf removed).wf
  | sweep =>
    obtain ⟨_, swept⟩ := run_discard_eq_ok.mp run
    exact sweep_wellFormed wf swept
termination_by structural operation

theorem runAll_wellFormed (operations : List Operation) {a b : Arena} {u : Unit}
    (wf : a.WellFormed) (run : (runAll operations).run a = .ok u b) : b.WellFormed := by
  match operations with
  | [] =>
    obtain ⟨_, rfl⟩ := run_pure_eq_ok.mp run
    exact wf
  | operation :: rest =>
    obtain ⟨_, a₁, first, later⟩ := run_bind_eq_ok.mp run
    exact runAll_wellFormed rest (run_wellFormed operation wf first) later
termination_by structural operations

end

end Operation

/-! ### Owned once -/

/-- Every stored element, in the expression or not, has at most one place. -/
structure Arena.OwnedOnce (a : Arena) : Prop where
  recorded : ∀ {h n c}, a.get? h = some n → c ∈ n.element.children →
    ∃ m, a.get? c = some m ∧ m.parent = some h
  one_slot : ∀ {p q n m c} {i j : Nat}, a.get? p = some n → a.get? q = some m →
    n.element.children[i]? = some c → m.element.children[j]? = some c → p = q ∧ i = j
  listed : ∀ {h n p}, a.get? h = some n → n.parent = some p →
    ∃ m, a.get? p = some m ∧ h ∈ m.element.children
  ascends : ∀ {h n}, a.get? h = some n → ∃ hs, a.Ascends h hs
  wrapper : ∃ inner, a.get? a.root = some ⟨none, .root inner⟩
  only_wrapper : ∀ {h n}, a.get? h = some n → n.element.kind = .root → h = a.root

theorem Arena.WellFormed.ownedOnce {a : Arena} (wf : a.WellFormed) : a.OwnedOnce where
  recorded stored member := owner?_eq_some.mp (wf.records stored _ member)
  one_slot := by
    intro p q n m c i j stored held first second
    have owned := wf.records stored c (List.mem_of_getElem? first)
    have owned' := wf.records held c (List.mem_of_getElem? second)
    obtain rfl : p = q := Option.some.inj (owned.symm.trans owned')
    cases stored.symm.trans held
    obtain ⟨short, _⟩ := List.getElem?_eq_some_iff.mp first
    exact ⟨rfl, (List.getElem?_inj short (wf.distinct stored)).mp (first.trans second.symm)⟩
  listed stored parent := wf.holds (owner?_eq_some.mpr ⟨_, stored, parent⟩)
  ascends := wf.exists_ascends
  wrapper := wf.wrapper
  only_wrapper := wf.only_wrapper

namespace Operation

/-- However an arena comes out of the expression `0`, everything stored in it is owned once. -/
theorem runAll_ownedOnce {operations : List Operation} {b : Arena}
    (run : (runAll operations).run zero = .ok () b) : b.OwnedOnce :=
  (runAll_wellFormed operations wellFormed_zero run).ownedOnce

/-- One of two terms is removed from their sum, and the other one is negated. -/
theorem runAll_ownedOnce_of_negated : ∃ b,
    (runAll [.symbol "a", .symbol "b", .sum [⟨2⟩, ⟨3⟩], .setContent ⟨4⟩, .removeChildren ⟨4⟩ [⟨2⟩],
      .replaceWith ⟨3⟩ [.negation ⟨3⟩] ⟨6⟩, .copy ⟨6⟩, .sweep]).run zero = .ok () b ∧ b.OwnedOnce :=
  Exists.imp (fun _ run => ⟨run, runAll_ownedOnce run⟩)
    ⟨⟨#[some ⟨none, .root ⟨6⟩⟩, none, none, some ⟨some ⟨6⟩, .symbol "b"⟩, none, none,
      some ⟨some ⟨0⟩, .negation ⟨3⟩⟩, none, none], ⟨0⟩⟩, rfl⟩

end Operation

end AlgebraEditor
