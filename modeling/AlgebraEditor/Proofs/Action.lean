import AlgebraEditor.Catalog
import AlgebraEditor.Proofs.Law.Expanding
import AlgebraEditor.Proofs.Law.Factoring
import AlgebraEditor.Proofs.Law.Inverse
import AlgebraEditor.Proofs.Law.Rearrangement
import Mathlib.Algebra.Ring.Int.Defs

/-!
# What actions keep

An action applies its rule to one input after the other, so what every application keeps the whole
run keeps. No built-in action changes the value of the expression, whatever the symbols, fractions
and powers mean.
-/

namespace AlgebraEditor

open Arena

variable {a b : Arena} {hs : List Handle} {p : Handle} {r : Option (List Handle)}

namespace Action

/-! ### Passes -/

/-- What every application of a step keeps, a pass keeps. -/
theorem run_pass_invariant {α : Type} {step : α → Edit (Option (List Handle))}
    {unchanged : α → List Handle} {xs : List α} {P : Arena → Prop}
    (each : ∀ x ∈ xs, ∀ {a r b}, P a → (step x).run a = .ok r b → P b)
    {out : Bool × List Handle} (start : P a) (run : (pass step unchanged xs).run a = .ok out b) :
    P b := by
  induction xs generalizing a out with
  | nil =>
    cases run
    exact start
  | cons x xs ih =>
    unfold pass at run
    obtain ⟨r, c, first, run⟩ := Edit.run_bind_eq_ok.mp run
    obtain ⟨later, _, rest, done⟩ := Edit.run_bind_eq_ok.mp run
    cases done
    exact ih (fun y member => each y (List.mem_cons_of_mem _ member))
      (each x List.mem_cons_self start first) rest

/-! ### Groups -/

theorem commonParent?_eq_some (found : commonParent? a hs = .ok (some p)) :
    ∀ h ∈ hs, a.owner? h = some p := by
  match hs with
  | [] => nofun
  | first :: rest =>
    unfold commonParent? at found
    obtain ⟨owner, _, found⟩ := bind_eq_ok.mp found
    cases owner with
    | none => cases found
    | some q =>
      obtain ⟨shared, all, found⟩ := bind_eq_ok.mp found
      cases shared with
      | false => cases found
      | true =>
        cases found
        intro h member
        obtain ⟨owner, recorded, same⟩ := bind_eq_ok.mp (of_allM all h member)
        have same := of_decide_eq_true (pure_eq_ok.mp same)
        rw [same] at recorded
        exact parent_eq_some.mp recorded

/-- The groups that elements fall into by their owners. -/
def ownerGroups (a : Arena) (hs : List Handle) : List (Option Handle × List Handle) :=
  hs.foldl (fun groups h => addToGroup (a.owner? h) h groups) []

theorem groupByParent_eq_ok (stored : ∀ h ∈ hs, ∃ n, a.get? h = some n) :
    groupByParent a hs = .ok (ownerGroups a hs) := by
  apply foldlM_eq_foldl
  intro h member groups
  obtain ⟨n, held⟩ := stored h member
  rw [parent_of_get? held]
  rfl

theorem mem_addToGroup {P : Option Handle → Handle → Prop} {q : Option Handle} {h : Handle}
    {groups : List (Option Handle × List Handle)} (all : ∀ group ∈ groups, ∀ x ∈ group.2, P group.1 x)
    (new : P q h) : ∀ group ∈ addToGroup q h groups, ∀ x ∈ group.2, P group.1 x := by
  induction groups with
  | nil => simpa [addToGroup] using new
  | cons group groups ih =>
    obtain ⟨first, rest⟩ := List.forall_mem_cons.mp all
    rw [addToGroup]
    split
    · rename_i same
      refine List.forall_mem_cons.mpr ⟨fun x member => ?_, rest⟩
      rcases List.mem_append.mp member with old | last
      · exact first x old
      · rw [List.mem_singleton.mp last, same]
        exact new
    · exact List.forall_mem_cons.mpr ⟨first, ih rest⟩

/-- A group holds given elements, which are owned by the parent that it is for. -/
theorem mem_ownerGroups (a : Arena) (hs : List Handle) :
    ∀ group ∈ ownerGroups a hs, ∀ h ∈ group.2, h ∈ hs ∧ a.owner? h = group.1 := by
  have grow : ∀ (xs : List Handle) (groups : List (Option Handle × List Handle)),
      (∀ x ∈ xs, x ∈ hs) → (∀ group ∈ groups, ∀ h ∈ group.2, h ∈ hs ∧ a.owner? h = group.1) →
      ∀ group ∈ xs.foldl (fun groups h => addToGroup (a.owner? h) h groups) groups,
        ∀ h ∈ group.2, h ∈ hs ∧ a.owner? h = group.1 := by
    intro xs
    induction xs with
    | nil => exact fun _ _ all => all
    | cons x xs ih =>
      intro groups inside all
      obtain ⟨first, rest⟩ := List.forall_mem_cons.mp inside
      exact ih _ rest (mem_addToGroup (P := fun q h => h ∈ hs ∧ a.owner? h = q) all ⟨first, rfl⟩)
  exact grow hs [] (fun _ => id) nofun

/-! ### Values -/

section Value

variable {R : Type*} [CommRing R] {I : Interpretation R}

variable {name key : String}

theorem run_each_sameValue {rule : ElementRule}
    (sound : ∀ {a h n r b}, a.WellFormed → a.get? h = some n → (rule h).run a = .ok r b →
      SameValue I a b)
    (wf : a.WellFormed) (stored : ∀ h ∈ hs, ∃ n, a.get? h = some n)
    (run : (Action.run ⟨name, key, .each rule⟩ hs).run a = .ok r b) : SameValue I a b := by
  unfold Action.run at run
  obtain ⟨out, _, passed, done⟩ := Edit.run_bind_eq_ok.mp run
  cases done
  refine run_pass_invariant (P := SameValue I a) (fun h member c r d same step => ?_) (.refl wf)
    passed
  obtain ⟨n, held⟩ := stored h member
  obtain ⟨m, held'⟩ := same.stored held
  exact same.trans (sound same.wf held' step)

/-- Elements of a group may have other owners by the time the group has its turn, but they are
still stored, and none of them is the root. -/
theorem run_groups_sameValue {rule : SiblingRule}
    (sound : ∀ {a p hs r b}, a.WellFormed → (∀ h ∈ hs, ∃ n, a.get? h = some n) →
      (∀ h ∈ hs, h ≠ a.root) → (rule p hs).run a = .ok r b → SameValue I a b)
    (wf : a.WellFormed) (stored : ∀ h ∈ hs, ∃ n, a.get? h = some n)
    (run : (Action.run ⟨name, key, .groups rule⟩ hs).run a = .ok r b) : SameValue I a b := by
  unfold Action.run at run
  dsimp only at run
  rw [Edit.run_inspect_bind, groupByParent_eq_ok stored] at run
  obtain ⟨_, found, run⟩ := run
  cases found
  obtain ⟨out, _, passed, done⟩ := Edit.run_bind_eq_ok.mp run
  cases done
  refine run_pass_invariant (P := SameValue I a) (fun group member c r d same step => ?_) (.refl wf)
    passed
  have inside := mem_ownerGroups a hs group member
  match group with
  | (none, _) | (some _, []) | (some _, [_]) =>
    cases step
    exact same
  | (some q, h :: k :: rest) =>
    have step : (rule q (h :: k :: rest)).run c = .ok r d := step
    refine same.trans (sound same.wf (fun x listed => ?_) (fun x listed => ?_) step)
    · obtain ⟨n, held⟩ := stored x (inside x listed).1
      exact same.stored held
    · rw [same.root]
      exact wf.ne_root_of_owner? (inside x listed).2

theorem run_exactly_sameValue {count : Nat} {rule : SiblingRule}
    (sound : ∀ {p r b}, (∀ h ∈ hs, a.owner? h = some p) → (rule p hs).run a = .ok r b →
      SameValue I a b)
    (wf : a.WellFormed)
    (run : (Action.run ⟨name, key, .exactly count rule⟩ hs).run a = .ok r b) : SameValue I a b := by
  unfold Action.run at run
  dsimp only at run
  split at run
  · cases run
    exact .refl wf
  · rw [Edit.run_inspect_bind] at run
    obtain ⟨found, shared, run⟩ := run
    cases found with
    | none =>
      cases run
      exact .refl wf
    | some p => exact sound (commonParent?_eq_some shared) run

/-- Built-in actions keep the value of the whole expression. -/
theorem run_sameValue {action : Action} (member : action ∈ Catalog.builtIn.actions) (wf : a.WellFormed)
    (stored : ∀ h ∈ hs, ∃ n, a.get? h = some n) (run : (action.run hs).run a = .ok r b) :
    SameValue I a b := by
  simp only [Catalog.builtIn, List.mem_cons, List.not_mem_nil, or_false] at member
  rcases member with rfl | rfl | rfl | rfl | rfl | rfl | rfl | rfl
  · exact run_each_sameValue (Law.expand_sameValue I) wf stored run
  · exact run_each_sameValue (Law.unnest_sameValue I) wf stored run
  · exact run_each_sameValue (Law.minusToFront_sameValue I) wf stored run
  · exact run_each_sameValue (Law.minusInside_sameValue I) wf stored run
  · exact run_exactly_sameValue (fun owned => Law.swap_sameValue I wf owned) wf run
  · exact run_exactly_sameValue (fun _ => Law.cancel_sameValue I wf stored) wf run
  · exact run_groups_sameValue (Law.factor_sameValue I) wf stored run
  · exact run_each_sameValue (fun wf _ => Law.factorAllTerms_sameValue I wf) wf stored run

theorem content_value (I : Interpretation R) (wf : a.WellFormed) :
    ∃ h t, a.content = .ok h ∧ a.term h = .ok t ∧ t.eval I = a.value I a.root := by
  obtain ⟨h, stored⟩ := wf.wrapper
  obtain ⟨n, held⟩ := wf.stored_of_mem_children stored (List.mem_singleton_self h)
  refine ⟨h, a.denote h, ?_, wf.term_eq_ok held, ?_⟩
  · rw [content, element_of_get? stored, ok_bind]
    rfl
  · rw [wf.value_eq I stored]
    rfl

/-- Running a built-in action on stored elements, whichever and however many they are, keeps the
value of the expression in every commutative ring. -/
theorem run_preserves_value (I : Interpretation R) {action : Action}
    (member : action ∈ Catalog.builtIn.actions) (wf : a.WellFormed) (hs : List Handle)
    (live : ∀ h ∈ hs, a.contains h = true) (run : (action.run hs).run a = .ok r b) :
    ∃ c d t u, a.content = .ok c ∧ a.term c = .ok t ∧ b.content = .ok d ∧ b.term d = .ok u ∧
      u.eval I = t.eval I := by
  have same := run_sameValue (I := I) member wf (fun h inside => contains_iff.mp (live h inside)) run
  obtain ⟨c, t, content, term, value⟩ := content_value I wf
  obtain ⟨d, u, content', term', value'⟩ := content_value I same.wf
  exact ⟨c, d, t, u, content, term, content', term', by rw [value, value', same.value]⟩

end Value

/-- In `x - x` the two terms cancel out. -/
theorem run_preserves_value_of_cancel : ∃ a b : Arena, a.WellFormed ∧
    ((⟨"Cancel", "C", .exactly 2 Law.cancel⟩ : Action).run [⟨3⟩, ⟨4⟩]).run a = .ok (some []) b ∧
    ∃ c d t u, a.content = .ok c ∧ a.term c = .ok t ∧ b.content = .ok d ∧ b.term d = .ok u ∧
      u.eval (⟨fun _ => 2, fun x _ => x, fun x _ => x⟩ : Interpretation ℤ) =
        t.eval ⟨fun _ => 2, fun x _ => x, fun x _ => x⟩ := by
  have symbol : (Term.symbol "x").Unwrapped := .mk nofun nofun
  have unwrapped : (Term.sum [.symbol "x", .negation (.symbol "x")]).Unwrapped :=
    Term.permits_unwrapped.all_sumOf (List.forall_mem_cons.mpr ⟨symbol,
      List.forall_mem_cons.mpr ⟨Term.permits_unwrapped.all_negation symbol, List.forall_mem_nil _⟩⟩)
  have wf := Edit.wellFormed_expression unwrapped
  have member : (⟨"Cancel", "C", .exactly 2 Law.cancel⟩ : Action) ∈ Catalog.builtIn.actions := by
    simp [Catalog.builtIn]
  exact ⟨_, _, wf, rfl, run_preserves_value _ member wf [⟨3⟩, ⟨4⟩] (by decide) rfl⟩

end Action

end AlgebraEditor
