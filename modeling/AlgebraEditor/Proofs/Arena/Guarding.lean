import AlgebraEditor.Proofs.Arena.Removing

/-!
# Guarded edits

An edit is guarded if it goes through exactly if it is legal, and ends with a fault before it has
written anything if it is not. The checks that are made once more between the writes of an edit
never fail, because what was checked in front of them is legal.
-/

namespace AlgebraEditor

open Arena

namespace Edit

variable {α β : Type} {a b : Arena} {c old new list x : Handle} {xs : List Handle} {i : Nat}
  {fault : Fault}

/-- A fault of the edit arises before anything is written. -/
def FaultsFirst (x : Edit α) (a : Arena) : Prop := ∀ ⦃fault b⦄, x.run a = .error fault b → b = a

/-- The edit goes through exactly if it is legal, and a fault leaves the arena as it was. -/
structure Guarded (x : Edit α) (a : Arena) (legal : Prop) : Prop where
  passes_iff : (∃ r b, x.run a = .ok r b) ↔ legal
  faults_first : x.FaultsFirst a

/-! ### Reading and refusing -/

theorem faultsFirst_of_ok {x : Edit α} {r : α} (run : x.run a = .ok r b) : x.FaultsFirst a := by
  intro fault c failed
  cases run.symm.trans failed

/-- What only reads may come in front. -/
theorem FaultsFirst.bind {x : Edit α} {f : α → Edit β} (first : x.FaultsFirst a)
    (rest : ∀ y b, x.run a = .ok y b → b = a ∧ (f y).FaultsFirst a) : (x >>= f).FaultsFirst a := by
  intro fault c failed
  rw [EStateM.run_bind] at failed
  cases run : x.run a with
  | ok y b =>
    obtain ⟨rfl, later⟩ := rest y b run
    rw [run] at failed
    exact later failed
  | error refused b =>
    rw [run] at failed
    cases failed
    exact first run

theorem faultsFirst_inspect (read : Arena → Except Fault α) : (inspect read).FaultsFirst a := by
  intro fault b failed
  rw [run_inspect] at failed
  cases answer : read a with
  | ok y =>
    rw [answer] at failed
    cases failed
  | error refused =>
    rw [answer] at failed
    cases failed
    rfl

theorem faultsFirst_inspect_bind {read : Arena → Except Fault α} {f : α → Edit β}
    (rest : ∀ y, read a = .ok y → (f y).FaultsFirst a) : (inspect read >>= f).FaultsFirst a := by
  refine (faultsFirst_inspect read).bind fun y b run => ?_
  obtain ⟨answer, rfl⟩ := run_inspect_eq_ok.mp run
  exact ⟨rfl, rest y answer⟩

theorem faultsFirst_throw (fault : Fault) : (throw fault : Edit α).FaultsFirst a := by
  intro refused b failed
  cases failed
  rfl

theorem faultsFirst_guard {p : Prop} [Decidable p] {f : PUnit → Edit β}
    (rest : ¬ p → (f ⟨⟩).FaultsFirst a) :
    (if p then throw fault >>= f else f ⟨⟩ : Edit β).FaultsFirst a := by
  split
  · exact (faultsFirst_throw fault).bind fun _ _ => nofun
  · rename_i passed
    exact rest passed

/-- Whether a child can be attached is found out by reading alone. -/
theorem faultsFirst_checkAttachable : (checkAttachable c x).FaultsFirst a := by
  unfold checkAttachable
  refine (faultsFirst_of_ok (EStateM.run_get a)).bind fun _ b run => ?_
  cases run
  refine ⟨rfl, faultsFirst_guard fun _ => faultsFirst_inspect_bind fun owner _ => ?_⟩
  cases owner with
  | some owner => exact (faultsFirst_throw _).bind fun _ _ => nofun
  | none =>
    refine faultsFirst_guard fun _ => faultsFirst_inspect_bind fun above _ => ?_
    cases above with
    | false => exact faultsFirst_of_ok (run_pure_eq_ok.mpr ⟨rfl, rfl⟩)
    | true => exact faultsFirst_throw _

/-- What follows the check of a child knows that the child can be attached. -/
theorem faultsFirst_checkAttachable_bind {n : Node} {f : Unit → Edit β} (wf : a.WellFormed)
    (stored : a.get? c = some n) (rest : a.Attachable c x → (f ()).FaultsFirst a) :
    (checkAttachable c x >>= f).FaultsFirst a := by
  refine faultsFirst_checkAttachable.bind fun _ b run => ?_
  obtain ⟨hs, up⟩ := wf.exists_ascends stored
  obtain ⟨fits, rfl⟩ := (run_checkAttachable_eq_ok up up.length_lt_reach).mp run
  exact ⟨rfl, rest fits⟩

/-! ### Legal changes -/

/-- What is legal goes through, so that only the checks in front can fail. -/
theorem guarded_of_iff {edit : Edit α} {legal : Prop} (passes : (∃ r b, edit.run a = .ok r b) ↔ legal)
    (refuses : ¬ legal → edit.FaultsFirst a) : edit.Guarded a legal := by
  refine ⟨passes, ?_⟩
  by_cases holds : legal
  · obtain ⟨r, b, run⟩ := passes.mpr holds
    exact faultsFirst_of_ok run
  · exact refuses holds

theorem Guarded.refused {edit : Edit α} {legal : Prop} (guarded : edit.Guarded a legal)
    (illegal : ¬ legal) : ∃ fault, edit.run a = .error fault a := by
  cases run : edit.run a with
  | ok r b => exact absurd (guarded.passes_iff.mp ⟨r, b, run⟩) illegal
  | error fault b =>
    obtain rfl := guarded.faults_first run
    exact ⟨fault, rfl⟩

theorem replace_guarded (wf : a.WellFormed) : (replace c old new).Guarded a
    (∃ n, a.get? c = some n ∧ old ∈ n.element.children ∧ (old = new ∨ a.Attachable c new)) := by
  refine guarded_of_iff ⟨?_, ?_⟩ fun illegal => ?_
  · rintro ⟨_, b, run⟩
    obtain ⟨n, stored, member, cases⟩ := (run_replace_eq_ok wf).mp run
    exact ⟨n, stored, member, cases.imp And.left fun change => change.2.1⟩
  · rintro ⟨n, stored, member, same | fits⟩
    · exact ⟨(), a, (run_replace_eq_ok wf).mpr ⟨n, stored, member, .inl ⟨same, rfl⟩⟩⟩
    · have other : old ≠ new := fun same => fits.not_mem_children wf stored (same ▸ member)
      exact ⟨(), _, (run_replace_eq_ok wf).mpr ⟨n, stored, member, .inr ⟨other, fits, rfl⟩⟩⟩
  · unfold replace
    by_cases same : old = new
    · rw [if_pos same]
      refine faultsFirst_inspect_bind fun owner _ => faultsFirst_guard fun _ => ?_
      exact faultsFirst_of_ok (run_pure_eq_ok.mpr ⟨rfl, rfl⟩)
    · rw [if_neg same]
      refine faultsFirst_inspect_bind fun owner _ => faultsFirst_guard fun _ =>
        faultsFirst_inspect_bind fun children read => faultsFirst_guard fun member => ?_
      obtain ⟨n, stored, rfl⟩ := children_eq_ok.mp read
      refine faultsFirst_checkAttachable_bind wf stored fun fits => ?_
      exact absurd ⟨n, stored, not_not.mp member, .inr fits⟩ illegal

theorem insertChild_guarded (wf : a.WellFormed) : (insertChild list i x).Guarded a
    (∃ n, a.get? list = some n ∧ n.element.kind.isList = true ∧ i ≤ n.element.children.length ∧
      a.Attachable list x) := by
  refine guarded_of_iff ⟨?_, ?_⟩ fun illegal => ?_
  · rintro ⟨_, b, run⟩
    obtain ⟨n, stored, isList, short, fits, _⟩ := (run_insertChild_eq_ok wf).mp run
    exact ⟨n, stored, isList, short, fits⟩
  · rintro ⟨n, stored, isList, short, fits⟩
    exact ⟨(), _, (run_insertChild_eq_ok wf).mpr ⟨n, stored, isList, short, fits, rfl⟩⟩
  · unfold insertChild
    refine faultsFirst_inspect_bind fun e read => faultsFirst_guard fun isList =>
      faultsFirst_guard fun short => ?_
    obtain ⟨n, stored, rfl⟩ := element_eq_ok.mp read
    refine faultsFirst_checkAttachable_bind wf stored fun fits => ?_
    rw [Bool.not_eq_true', Bool.not_eq_false] at isList
    exact absurd ⟨n, stored, isList, Nat.not_lt.mp short, fits⟩ illegal

theorem removeChildren_guarded (wf : a.WellFormed) : (removeChildren list xs).Guarded a
    (∃ n owner, a.get? list = some n ∧ n.element.kind.isList = true ∧ n.parent = some owner ∧
      xs.Nodup ∧ ∀ x ∈ xs, x ∈ n.element.children) := by
  refine guarded_of_iff ⟨?_, ?_⟩ fun illegal => ?_
  · rintro ⟨r, b, run⟩
    obtain ⟨n, owner, _, stored, isList, owned, _, nodup, inside, _⟩ :=
      (run_removeChildren_eq_ok wf).mp run
    exact ⟨n, owner, stored, isList, (owner?_of_get? stored).symm.trans owned, nodup, inside⟩
  · rintro ⟨n, owner, stored, isList, owned, nodup, inside⟩
    have owned := (owner?_of_get? stored).trans owned
    obtain ⟨m, held⟩ := wf.stored_of_owner? owned
    obtain ⟨r, b, run, _⟩ := exists_run_removeChildren wf stored isList owned held nodup inside
    exact ⟨r, b, run⟩
  · unfold removeChildren
    refine faultsFirst_inspect_bind fun kind read => ?_
    obtain ⟨n, stored, rfl⟩ := kind_eq_ok.mp read
    cases identity : n.element.kind.identity? with
    | none => exact faultsFirst_throw _
    | some value =>
      refine faultsFirst_inspect_bind fun owner read => ?_
      cases owner with
      | none => exact faultsFirst_throw _
      | some owner =>
        refine faultsFirst_inspect_bind fun children listed => ?_
        cases (children_of_get? stored).symm.trans listed
        cases refused : firstNotRemovable n.element.children [] xs with
        | some bad => exact (faultsFirst_throw _).bind fun _ _ => nofun
        | none =>
          obtain ⟨nodup, inside, _⟩ := firstNotRemovable_eq_none.mp refused
          have isList : n.element.kind.isList = true := by
            rw [← Kind.isSome_identity?, identity]
            rfl
          have owned := (owner?_of_get? stored).symm.trans (parent_eq_some.mp read)
          exact absurd ⟨n, owner, stored, isList, owned, nodup, inside⟩ illegal

/-- In a well-formed arena a child can be replaced, inserted or removed exactly if that leaves every
element owned once. What is refused is refused before the arena has changed. -/
theorem mutations_guarded (wf : a.WellFormed) :
    (∀ c old new, (replace c old new).Guarded a
      (∃ n, a.get? c = some n ∧ old ∈ n.element.children ∧ (old = new ∨ a.Attachable c new))) ∧
    (∀ list i x, (insertChild list i x).Guarded a
      (∃ n, a.get? list = some n ∧ n.element.kind.isList = true ∧ i ≤ n.element.children.length ∧
        a.Attachable list x)) ∧
    ∀ list xs, (removeChildren list xs).Guarded a
      (∃ n owner, a.get? list = some n ∧ n.element.kind.isList = true ∧ n.parent = some owner ∧
        xs.Nodup ∧ ∀ x ∈ xs, x ∈ n.element.children) :=
  ⟨fun _ _ _ => replace_guarded wf, fun _ _ _ => insertChild_guarded wf,
    fun _ _ => removeChildren_guarded wf⟩

/-- A detached sum of a symbol and a product. The sum cannot come to lie in its own product, while
the factors of the product can be removed in any order. -/
theorem mutations_guarded_of_sum : ∃ a : Arena, a.WellFormed ∧
    a.get? ⟨4⟩ = some ⟨some ⟨2⟩, .product [⟨5⟩, ⟨6⟩]⟩ ∧
    (∃ fault, (replace ⟨4⟩ ⟨5⟩ ⟨2⟩).run a = .error fault a) ∧
    (∃ fault, (insertChild ⟨4⟩ 1 ⟨2⟩).run a = .error fault a) ∧
    ∃ r b, (removeChildren ⟨4⟩ [⟨6⟩, ⟨5⟩]).run a = .ok r b := by
  have wf := wellFormed_zero.plant
    (t := .sum [.symbol "a", .product [.symbol "b", .symbol "c"]]) (by decide)
  obtain ⟨replaced, inserted, removed⟩ := mutations_guarded wf
  refine ⟨_, wf, rfl, (replaced ⟨4⟩ ⟨5⟩ ⟨2⟩).refused ?_, (inserted ⟨4⟩ 1 ⟨2⟩).refused ?_,
    (removed ⟨4⟩ [⟨6⟩, ⟨5⟩]).passes_iff.mpr ?_⟩
  · rintro ⟨_, _, _, same | fits⟩
    · cases same
    · exact fits.not_above (isAbove_of_owner? rfl)
  · rintro ⟨_, _, _, _, fits⟩
    exact fits.not_above (isAbove_of_owner? rfl)
  · exact ⟨_, ⟨2⟩, rfl, rfl, rfl, by decide, by decide⟩

end Edit

end AlgebraEditor
