import AlgebraEditor.Proofs.Arena.Audit
import AlgebraEditor.Proofs.Arena.Operation

/-!
# Careful runs

Lists are normalized when they are made and when they lose children. A list that was left with one
child or none gives up its slot, but it stays stored, and nothing keeps it from being attached again.
A run that never does this leaves every list of the expression with two children or more.
-/

namespace AlgebraEditor

open Arena Edit

namespace Arena

/-- The element is no list of fewer than two children. -/
def Whole (a : Arena) (h : Handle) : Prop := ∀ ⦃n⦄, a.get? h = some n → n.element.Filled

end Arena

namespace Operation

mutual

/-- No list of fewer than two children is attached. -/
def Careful : Operation → Arena → Prop
  | negation inner, a => a.Whole inner
  | fraction first second, a | power first second, a => a.Whole first ∧ a.Whole second
  | product hs, a | sum hs, a => 2 ≤ hs.length → ∀ h ∈ hs, a.Whole h
  | replace _ _ new, a | setContent new, a => a.Whole new
  | insertChild _ _ child, a | appendChild _ child, a => a.Whole child
  | replaceWith h building new, a => ∀ p a₁, a.owner? h = some p →
      (Edit.replace p h a.next).run (a.plant (.integer 0)) = .ok () a₁ →
      CarefulAll building a₁ ∧ ∀ a₂, (runAll building).run a₁ = .ok () a₂ → a₂.Whole new
  | symbol _, _ | signedInteger _, _ | integer _, _ | copy _, _ | removeChildren _ _, _
  | sweep, _ => True

/-- None of the operations attaches a list of fewer than two children. -/
def CarefulAll : List Operation → Arena → Prop
  | [], _ => True
  | operation :: rest, a =>
    Careful operation a ∧ ∀ b, operation.run.run a = .ok () b → CarefulAll rest b

end

end Operation

namespace Arena

variable {a b : Arena} {h p x : Handle} {n : Node} {t : Term}

theorem Whole.of_get? (stored : a.get? h = some n) (full : n.element.Filled) : a.Whole h := by
  intro m held
  cases stored.symm.trans held
  exact full

theorem whole_plant_integer (a : Arena) (value : UInt64) :
    (a.plant (.integer value)).Whole a.next :=
  .of_get? get?_plant_next nofun

/-- A top is owned by nothing, so that it may be short itself. -/
theorem Filled.adds_parts (filled : a.Filled ∅) (wf : a.WellFormed) (adds : a.Adds [t] [x] b)
    (all : ∀ u ∈ t.children, u.All Term.Filled) : b.Filled ∅ := by
  intro h p n owned found outside
  by_cases before : h.index < a.places.size
  · rw [adds.old h before] at found
    rw [adds.owner?_eq found] at owned
    exact filled owned found outside
  · obtain ⟨y, top, place⟩ := adds.exists_top wf (Nat.le_of_not_lt before) found
    obtain rfl := List.mem_singleton.mp top
    rcases place with rfl | above
    · rw [adds.unowned top] at owned
      cases owned
    refine adds.wf.filled_of_denote found (adds.wf.all_inside ?_ above).self
    rwa [adds.denote_top]

end Arena

namespace Edit

variable {a b : Arena} {h r c old new list x : Handle} {e : Element} {u : Unit} {hs : List Handle}

theorem create_filled (wf : a.WellFormed) (filled : a.Filled ∅) (kind : e.kind ≠ .root)
    (each : ∀ x ∈ e.children, a.Whole x) (run : (create e).run a = .ok r b) : b.Filled ∅ := by
  obtain ⟨nodup, free, _, rfl⟩ := (run_create_eq_ok wf).mp run
  have zero := Term.unwrapped_integer 0
  refine (filled.plant (Term.permits_filled.all_integer 0)).rewire (wf.plant zero)
    (rewirable_create wf kind nodup free) (fun x member _ n found => ?_) (fun _ _ _ => id) ?_
  · obtain ⟨m, stored⟩ := (free x member).1
    cases (get?_plant_of_stored stored _).symm.trans found
    exact each x member stored
  · intro p owned
    rw [owner?_of_get? get?_plant_next] at owned
    cases owned

theorem gather_filled (wf : a.WellFormed) (filled : a.Filled ∅) {make : List Handle → Element}
    {identity : UInt64} (kind : (make hs).kind ≠ .root) (children : (make hs).children = hs)
    (each : 2 ≤ hs.length → ∀ x ∈ hs, a.Whole x)
    (run : (gather make identity hs).run a = .ok r b) : b.Filled ∅ := by
  obtain rfl | rfl | ⟨long, created⟩ := run_gather run
  · exact filled.plant (Term.permits_filled.all_integer identity)
  · exact filled
  · exact create_filled wf filled kind (by rw [children]; exact each long) created

theorem signedInteger_filled (wf : a.WellFormed) (filled : a.Filled ∅) {value : Int}
    (run : (signedInteger value).run a = .ok r b) : b.Filled ∅ := by
  obtain ⟨magnitude, a₁, planted, run⟩ := run_bind_eq_ok.mp run
  obtain ⟨rfl, rfl⟩ := run_integer_eq_ok.mp planted
  have filled' := filled.plant (Term.permits_filled.all_integer (.ofNat value.natAbs))
  split at run
  · refine create_filled (wf.plant (Term.unwrapped_integer _)) filled' (by simp [Element.kind])
      (fun x member => ?_) run
    rw [List.mem_singleton.mp member]
    exact whole_plant_integer a _
  · obtain ⟨_, rfl⟩ := run_pure_eq_ok.mp run
    exact filled'

/-- A copy may be short itself, but its parts are copies of owned elements. -/
theorem copy_filled (wf : a.WellFormed) (filled : a.Filled ∅) (run : (copy h).run a = .ok r b) :
    b.Filled ∅ := by
  obtain ⟨n, stored, adds⟩ := run_copy_eq_ok wf run
  refine filled.adds_parts wf adds fun u part => ?_
  rw [wf.denote_eq stored, Element.children_toTerm] at part
  exact wf.children_throughout (wf.throughout_filled filled) stored u part

theorem replace_filled (wf : a.WellFormed) (filled : a.Filled ∅) (whole : a.Whole new)
    (run : (replace c old new).run a = .ok u b) : b.Filled ∅ := by
  obtain ⟨n, stored, member, ⟨_, rfl⟩ | ⟨_, fits, rfl⟩⟩ := (run_replace_eq_ok wf).mp run
  · exact filled
  · obtain ⟨m, held⟩ := fits.stored
    exact filled.replaced wf stored member fits held (whole held)

theorem insertChild_filled (wf : a.WellFormed) (filled : a.Filled ∅) {i : Nat} (whole : a.Whole x)
    (run : (insertChild list i x).run a = .ok u b) : b.Filled ∅ := by
  obtain ⟨n, stored, isList, short, fits, rfl⟩ := (run_insertChild_eq_ok wf).mp run
  refine filled.rewire wf (rewirable_insert wf stored isList short fits)
    (fun y member free m held => ?_) (fun _ _ _ => id) fun p owned outside _ => ?_
  · rw [Element.children_modifyList _ isList, List.mem_insertIdx short] at member
    rcases member with rfl | before
    · exact whole held
    · rw [wf.records stored y before] at free
      cases free
  · have enough := filled owned stored outside isList
    rw [Element.children_modifyList _ isList, List.length_insertIdx_of_le_length short]
    omega

theorem removeChildren_filled (wf : a.WellFormed) (filled : a.Filled ∅)
    (run : (removeChildren list hs).run a = .ok r b) : b.Filled ∅ := by
  obtain ⟨n, owner, m, stored, isList, owned, held, _, _, normalized⟩ :=
    (run_removeChildren_eq_ok wf).mp run
  exact normalized_filled wf filled stored isList held ((wf.mem_children_iff held).mpr owned)
    List.filter_sublist normalized

/-- The placeholder is no list, so that all depends on what is built. -/
theorem replaceWith_filled (wf : a.WellFormed) (filled : a.Filled ∅) {build : Handle → Edit Handle}
    (builds : ∀ p a₁ a₂, a.owner? h = some p →
      (replace p h a.next).run (a.plant (.integer 0)) = .ok () a₁ → a₁.WellFormed → a₁.Filled ∅ →
      (build h).run a₁ = .ok r a₂ → a₂.WellFormed ∧ a₂.Filled ∅ ∧ a₂.Whole r)
    (run : (replaceWith h build).run a = .ok r b) : b.Filled ∅ := by
  obtain ⟨p, a₁, a₂, owned, placed, built, replaced⟩ := run_replaceWith_eq_ok.mp run
  have wf₀ := wf.plant (Term.unwrapped_integer 0)
  have filled₀ := filled.plant (Term.permits_filled.all_integer 0)
  obtain ⟨wf₂, filled₂, whole⟩ := builds p a₁ a₂ owned placed (replace_evolves wf₀ placed).wf
    (replace_filled wf₀ filled₀ (whole_plant_integer a 0) placed) built
  exact replace_filled wf₂ filled₂ whole replaced

theorem sweep_filled (wf : a.WellFormed) (filled : a.Filled ∅) {count : Nat}
    (run : sweep.run a = .ok count b) : b.Filled ∅ := by
  obtain ⟨_, _, swept, holds⟩ := run_sweep wf
  cases swept.symm.trans run
  exact holds.filled filled

end Edit

namespace Operation

mutual

theorem run_filled (operation : Operation) {a b : Arena} {u : Unit} (wf : a.WellFormed)
    (filled : a.Filled ∅) (careful : operation.Careful a) (run : operation.run.run a = .ok u b) :
    b.Filled ∅ := by
  match operation with
  | symbol _ | integer _ =>
    obtain ⟨_, created⟩ := run_discard_eq_ok.mp run
    exact create_filled wf filled (by simp [Element.kind]) (List.forall_mem_nil _) created
  | negation _ =>
    obtain ⟨_, created⟩ := run_discard_eq_ok.mp run
    refine create_filled wf filled (by simp [Element.kind]) (fun x member => ?_) created
    rw [List.mem_singleton.mp member]
    exact careful
  | fraction _ _ | power _ _ =>
    obtain ⟨_, created⟩ := run_discard_eq_ok.mp run
    obtain ⟨first, second⟩ := careful
    refine create_filled wf filled (by simp [Element.kind]) ?_ created
    exact List.forall_mem_cons.mpr ⟨first, List.forall_mem_singleton.mpr second⟩
  | signedInteger _ =>
    obtain ⟨_, made⟩ := run_discard_eq_ok.mp run
    exact signedInteger_filled wf filled made
  | product _ | sum _ =>
    obtain ⟨_, gathered⟩ := run_discard_eq_ok.mp run
    exact gather_filled wf filled (by simp [Element.kind]) rfl careful gathered
  | copy _ =>
    obtain ⟨_, copied⟩ := run_discard_eq_ok.mp run
    exact copy_filled wf filled copied
  | replace _ _ _ => exact replace_filled wf filled careful run
  | replaceWith h building new =>
    obtain ⟨_, replaced⟩ := run_discard_eq_ok.mp run
    refine replaceWith_filled wf filled (fun p a₁ a₂ owned placed wf₁ filled₁ built => ?_) replaced
    obtain ⟨_, a₃, before, done⟩ := run_bind_eq_ok.mp built
    obtain ⟨rfl, rfl⟩ := run_pure_eq_ok.mp done
    obtain ⟨careful, whole⟩ := careful p a₁ owned placed
    exact ⟨runAll_wellFormed building wf₁ before, runAll_filled building wf₁ filled₁ careful before,
      whole a₃ before⟩
  | setContent _ =>
    obtain ⟨_, set⟩ := run_discard_eq_ok.mp run
    exact replace_filled wf filled careful (run_setContent_eq_ok.mp set).2
  | insertChild _ _ _ => exact insertChild_filled wf filled careful run
  | appendChild _ _ =>
    obtain ⟨_, _, inserted⟩ := run_appendChild_eq_ok.mp run
    exact insertChild_filled wf filled careful inserted
  | removeChildren _ _ =>
    obtain ⟨_, removed⟩ := run_discard_eq_ok.mp run
    exact removeChildren_filled wf filled removed
  | sweep =>
    obtain ⟨_, swept⟩ := run_discard_eq_ok.mp run
    exact sweep_filled wf filled swept
termination_by structural operation

theorem runAll_filled (operations : List Operation) {a b : Arena} {u : Unit} (wf : a.WellFormed)
    (filled : a.Filled ∅) (careful : CarefulAll operations a)
    (run : (runAll operations).run a = .ok u b) : b.Filled ∅ := by
  match operations with
  | [] =>
    obtain ⟨_, rfl⟩ := run_pure_eq_ok.mp run
    exact filled
  | operation :: rest =>
    obtain ⟨_, a₁, first, later⟩ := run_bind_eq_ok.mp run
    exact runAll_filled rest (run_wellFormed operation wf first)
      (run_filled operation wf filled careful.1 first) (careful.2 a₁ first) later
termination_by structural operations

end

variable {operations rest : List Operation} {operation : Operation} {a b : Arena}

/-- In an arena that comes out of the expression `0` the audit refuses nothing but short lists, and
after a careful run there are none in the expression. -/
theorem runAll_longLists (run : (runAll operations).run zero = .ok () b) :
    (b.audit = .ok () ↔ b.LongLists) ∧ (CarefulAll operations zero → b.LongLists) := by
  have wf := runAll_wellFormed operations wellFormed_zero run
  refine ⟨wf.audit_eq_ok_iff, fun careful => wf.longLists ?_⟩
  exact runAll_filled operations wellFormed_zero filled_zero careful run

theorem carefulAll_cons (careful : operation.Careful a) (run : operation.run.run a = .ok () b)
    (later : CarefulAll rest b) : CarefulAll (operation :: rest) a := by
  refine ⟨careful, fun b' run' => ?_⟩
  cases run.symm.trans run'
  exact later

/-- A sum of two symbols becomes the content. -/
theorem runAll_longLists_of_sum : ∃ b,
    (runAll [.symbol "a", .symbol "b", .sum [⟨2⟩, ⟨3⟩], .setContent ⟨4⟩]).run zero = .ok () b ∧
      CarefulAll [.symbol "a", .symbol "b", .sum [⟨2⟩, ⟨3⟩], .setContent ⟨4⟩] zero ∧
      b.LongLists ∧ b.audit = .ok () := by
  have careful : CarefulAll [.symbol "a", .symbol "b", .sum [⟨2⟩, ⟨3⟩], .setContent ⟨4⟩] zero :=
    carefulAll_cons trivial rfl (carefulAll_cons trivial rfl (carefulAll_cons
      (fun _ => List.forall_mem_cons.mpr ⟨.of_get? rfl nofun,
        List.forall_mem_singleton.mpr (.of_get? rfl nofun)⟩) rfl
      (carefulAll_cons (.of_get? rfl fun _ => Nat.le_refl 2) rfl trivial)))
  have passes : ∃ b, (runAll [.symbol "a", .symbol "b", .sum [⟨2⟩, ⟨3⟩], .setContent ⟨4⟩]).run zero =
      .ok () b :=
    ⟨⟨#[some ⟨none, .root ⟨4⟩⟩, some ⟨none, .integer 0⟩, some ⟨some ⟨4⟩, .symbol "a"⟩,
      some ⟨some ⟨4⟩, .symbol "b"⟩, some ⟨some ⟨0⟩, .sum [⟨2⟩, ⟨3⟩]⟩], ⟨0⟩⟩, rfl⟩
  obtain ⟨b, run⟩ := passes
  obtain ⟨audited, long⟩ := runAll_longLists run
  exact ⟨b, run, careful, long careful, audited.mpr (long careful)⟩

/-- The sum that a removal has emptied is made the content again. -/
theorem runAll_audit_of_collapsed : ∃ b,
    (runAll [.symbol "a", .symbol "b", .sum [⟨2⟩, ⟨3⟩], .setContent ⟨4⟩, .removeChildren ⟨4⟩ [⟨2⟩],
      .setContent ⟨4⟩]).run zero = .ok () b ∧ b.audit = .error (.listTooShort .sum ⟨4⟩ 0) :=
  ⟨⟨#[some ⟨none, .root ⟨4⟩⟩, some ⟨none, .integer 0⟩, some ⟨none, .symbol "a"⟩,
    some ⟨none, .symbol "b"⟩, some ⟨some ⟨0⟩, .sum []⟩], ⟨0⟩⟩, rfl, rfl⟩

end Operation

end AlgebraEditor
