import AlgebraEditor.Proofs.Action
import AlgebraEditor.Proofs.Law.Settling
import AlgebraEditor.Proofs.Selection.Moving
import AlgebraEditor.Session

/-!
# Actions on valid selections

Selected elements are stored, distinct and have one owner. So every action that a session runs goes
through, and if it answers with nothing it has changed nothing.
-/

namespace AlgebraEditor

open Arena

variable {a b : Arena} {h p : Handle} {hs : List Handle} {n : Node} {s : Selection}
  {q : Option Handle} {name key : String}

namespace Action

theorem settles_of_pass {α : Type} {step : α → Edit (Option (List Handle))}
    (unchanged : α → List Handle) {xs : List α} (wf : a.WellFormed) (filled : a.Filled ∅)
    (each : ∀ x ∈ xs, ∀ b, a.Evolves b → b.Filled ∅ → (step x).Settles b) :
    ∃ out b, (pass step unchanged xs).run a = .ok out b ∧ a.Evolves b ∧ b.Filled ∅ ∧
      (out.1 = false → b = a) := by
  induction xs generalizing a with
  | nil => exact ⟨(false, []), a, rfl, .refl wf, filled, fun _ => rfl⟩
  | cons x xs ih =>
    obtain ⟨r, b, first, evolves, filled', same⟩ := each x List.mem_cons_self a (.refl wf) filled
    obtain ⟨out, c, rest, later, filled'', same'⟩ := ih evolves.wf filled' fun y member c step =>
      each y (List.mem_cons_of_mem _ member) c (evolves.trans step)
    refine ⟨(r.isSome || out.1, r.getD (unchanged x) ++ out.2), c, ?_, evolves.trans later, filled'',
      fun nothing => ?_⟩
    · unfold pass
      rw [Edit.run_bind_of_ok first, Edit.run_bind_of_ok rest]
      rfl
    · obtain ⟨none, none'⟩ := Bool.or_eq_false_iff.mp nothing
      rw [same' none', same (by simpa using none)]

/-- An action that passes over its inputs does nothing only if no input is changed. -/
theorem settles_ifDone {x : Edit (Bool × List Handle)} {out : Bool × List Handle}
    (run : x.run a = .ok out b) (evolves : a.Evolves b) (filled : b.Filled ∅)
    (same : out.1 = false → b = a) :
    (do return ifDone (← x) : Edit (Option (List Handle))).Settles a := by
  refine ⟨ifDone out, b, ?_, evolves, filled, fun nothing => same ?_⟩
  · rw [Edit.run_bind_of_ok run]
    rfl
  · obtain ⟨done, hs⟩ := out
    cases done with
    | false => rfl
    | true => cases nothing

theorem run_each_settles {rule : ElementRule}
    (settles : ∀ {a h n}, a.WellFormed → a.Filled ∅ → a.get? h = some n → (rule h).Settles a)
    (wf : a.WellFormed) (filled : a.Filled ∅) (stored : ∀ h ∈ hs, ∃ n, a.get? h = some n) :
    (Action.run ⟨name, key, .each rule⟩ hs).Settles a := by
  obtain ⟨out, b, passed, evolves, filled', same⟩ :=
    settles_of_pass (fun h => [h]) wf filled fun h member b evolves filled' => by
      obtain ⟨n, held⟩ := stored h member
      obtain ⟨m, held'⟩ := evolves.stored held
      exact settles evolves.wf filled' held'
  exact settles_ifDone passed evolves filled' same

theorem commonParent?_eq_ok (stored : ∀ h ∈ hs, ∃ n, a.get? h = some n)
    (shared : ∀ h ∈ hs, a.owner? h = q) (other : hs ≠ []) : commonParent? a hs = .ok q := by
  match hs with
  | [] => exact absurd rfl other
  | first :: rest =>
    have parents : ∀ h ∈ first :: rest, a.parent h = .ok q := fun h member => by
      obtain ⟨n, held⟩ := stored h member
      rw [parent_of_get? held, shared h member]
    unfold commonParent?
    dsimp only
    rw [parents first List.mem_cons_self, ok_bind]
    cases q with
    | none => rfl
    | some p =>
      have together : (first :: rest).allM (fun h => do return decide ((← a.parent h) = some p)) =
          .ok ((first :: rest).all fun _ => true) := allM_eq_all fun h member => by
        rw [parents h member, ok_bind]
        exact congrArg Except.ok (decide_eq_true rfl)
      dsimp only
      rw [together, ok_bind, if_pos (by simp)]
      rfl

theorem ownerGroups_eq (shared : ∀ h ∈ hs, a.owner? h = q) (other : hs ≠ []) :
    ownerGroups a hs = [(q, hs)] := by
  have fold : ∀ hs before : List Handle, (∀ h ∈ hs, a.owner? h = q) →
      hs.foldl (fun groups h => addToGroup (a.owner? h) h groups) [(q, before)] =
        [(q, before ++ hs)] := by
    intro hs
    induction hs with
    | nil => simp
    | cons h hs ih =>
      intro before shared
      obtain ⟨head, tail⟩ := List.forall_mem_cons.mp shared
      rw [List.foldl_cons, head, addToGroup, if_pos rfl, ih _ tail, List.append_assoc]
      rfl
  cases hs with
  | nil => exact absurd rfl other
  | cons first rest =>
    obtain ⟨head, tail⟩ := List.forall_mem_cons.mp shared
    unfold ownerGroups
    rw [List.foldl_cons, head, addToGroup, fold rest [first] tail]
    rfl

/-- What a rule for children of one parent needs to go through. -/
abbrev SettlesSiblings (rule : SiblingRule) : Prop :=
  ∀ {a p n hs}, a.WellFormed → a.Filled ∅ → a.get? p = some n → hs.Nodup →
    (∀ h ∈ hs, a.owner? h = some p) → (rule p hs).Settles a

theorem run_exactly_settles {count : Nat} {rule : SiblingRule} (settles : SettlesSiblings rule)
    (wf : a.WellFormed) (filled : a.Filled ∅) (stored : ∀ h ∈ hs, ∃ n, a.get? h = some n)
    (nodup : hs.Nodup) (shared : ∀ h ∈ hs, a.owner? h = q) (other : hs ≠ []) :
    (Action.run ⟨name, key, .exactly count rule⟩ hs).Settles a := by
  unfold Action.run
  dsimp only
  split
  · exact Edit.settles_of_nothing wf filled rfl
  · apply Edit.settles_inspect (commonParent?_eq_ok stored shared other)
    cases q with
    | none => exact Edit.settles_of_nothing wf filled rfl
    | some p =>
      obtain ⟨h, member⟩ := List.exists_mem_of_ne_nil hs other
      obtain ⟨n, held⟩ := wf.stored_of_owner? (shared h member)
      exact settles wf filled held nodup shared

theorem run_groups_settles {rule : SiblingRule} (settles : SettlesSiblings rule) (wf : a.WellFormed)
    (filled : a.Filled ∅) (stored : ∀ h ∈ hs, ∃ n, a.get? h = some n) (nodup : hs.Nodup)
    (shared : ∀ h ∈ hs, a.owner? h = q) (other : hs ≠ []) :
    (Action.run ⟨name, key, .groups rule⟩ hs).Settles a := by
  have group : (runGroup rule (q, hs)).Settles a := by
    match q, hs with
    | none, _ | some _, [] | some _, [_] => exact Edit.settles_of_nothing wf filled rfl
    | some p, h :: k :: rest =>
      obtain ⟨n, held⟩ := wf.stored_of_owner? (shared h List.mem_cons_self)
      exact settles wf filled held nodup shared
  obtain ⟨r, b, run, evolves, filled', same⟩ := group
  have passed : (pass (runGroup rule) (·.2) [(q, hs)]).run a =
      .ok (r.isSome || false, r.getD hs ++ []) b := by
    unfold pass
    rw [Edit.run_bind_of_ok run]
    rfl
  unfold Action.run
  dsimp only
  apply Edit.settles_inspect (groupByParent_eq_ok stored)
  rw [ownerGroups_eq shared other]
  refine settles_ifDone passed evolves filled' fun nothing => same ?_
  simpa using nothing

/-- Built-in actions go through on a valid selection. -/
theorem run_settles {action : Action} (member : action ∈ Catalog.builtIn.actions) (wf : a.WellFormed)
    (filled : a.Filled ∅) (valid : s.Valid a) : (action.run s.toList).Settles a := by
  have stored := fun h inside => (valid.reached h inside).stored wf
  have nodup := valid.nodup wf
  have shared := valid.shared wf
  have other : s.toList ≠ [] := List.cons_ne_nil _ _
  simp only [Catalog.builtIn, List.mem_cons, List.not_mem_nil, or_false] at member
  rcases member with rfl | rfl | rfl | rfl | rfl | rfl | rfl | rfl
  · exact run_each_settles Law.expand_settles wf filled stored
  · exact run_each_settles Law.unnest_settles wf filled stored
  · exact run_each_settles Law.minusToFront_settles wf filled stored
  · exact run_each_settles Law.minusInside_settles wf filled stored
  · exact run_exactly_settles Law.swap_settles wf filled stored nodup shared other
  · exact run_exactly_settles Law.cancel_settles wf filled stored nodup shared other
  · exact run_groups_settles Law.factor_settles wf filled stored nodup shared other
  · exact run_each_settles Law.factorAllTerms_settles wf filled stored

end Action

section Added

variable {ts : List Term} {m : Node} {c x : Handle} {xs : List Handle}

namespace Edit

/-- Added content takes the place of what the root wrapper holds. -/
theorem run_setContent_adds (wf : a.WellFormed) (adds : a.Adds ts xs b) (top : x ∈ xs)
    (content : a.content = .ok c) (stored : a.get? a.root = some m) :
    (setContent x).run b = .ok c (b.rewire a.root (m.element.replaceChild c x)) := by
  have replaced := adds.run_replace wf stored (mem_children_of_content content stored) top
  obtain ⟨n, stored, wrapper⟩ := content_eq_ok.mp content
  have content : b.content = .ok c :=
    content_eq_ok.mpr ⟨n, by rw [adds.root, adds.stored stored], wrapper⟩
  unfold setContent
  rw [run_bind_of_ok (run_inspect_of_ok content), run_get_bind, adds.root, run_bind_of_ok replaced]
  rfl

theorem setContent_total (wf : a.WellFormed) (filled : a.Filled ∅) (adds : a.Adds ts xs b)
    (top : x ∈ xs) (full : ∀ t ∈ ts, t.All Term.Filled) :
    ∃ old d, (setContent x).run b = .ok old d ∧ b.Evolves d ∧ d.Filled ∅ := by
  obtain ⟨c, m, content, stored⟩ := wf.exists_content
  have member := mem_children_of_content content stored
  have replaced := adds.run_replace wf stored member top
  exact ⟨c, _, run_setContent_adds wf adds top content stored,
    replace_evolves adds.wf replaced, filled.adds_replaced wf adds full stored member top⟩

end Edit

namespace ElementRule

theorem run_replaceBy_root (wf : a.WellFormed) (adds : a.Adds ts xs b) (top : x ∈ xs)
    (content : a.content = .ok c) (stored : a.get? a.root = some m) :
    (replaceBy x a.root).run b =
      .ok (some [x]) (b.rewire a.root (m.element.replaceChild c x)) := by
  have parent := parent_of_get? (adds.stored stored)
  rw [adds.owner?_eq stored, wf.owner?_root] at parent
  have read : (Edit.parentOf a.root).run b = .ok none b := Edit.run_inspect_of_ok parent
  have replaced := Edit.run_setContent_adds wf adds top content stored
  unfold replaceBy
  rw [Edit.run_bind_of_ok read]
  dsimp only
  rw [Edit.run_bind_of_ok (Edit.run_discard replaced)]
  rfl

theorem run_replaceBy (wf : a.WellFormed) (adds : a.Adds ts xs b) (top : x ∈ xs)
    (owned : a.owner? h = some p) (stored : a.get? p = some m) :
    (replaceBy x h).run b = .ok (some [x]) (b.rewire p (m.element.replaceChild h x)) := by
  obtain ⟨n, held⟩ := Arena.stored_of_owner? owned
  have parent := parent_of_get? (adds.stored held)
  rw [adds.owner?_eq held, owned] at parent
  have read : (Edit.parentOf h).run b = .ok (some p) b := Edit.run_inspect_of_ok parent
  have member := (wf.mem_children_iff stored).mpr owned
  unfold replaceBy
  rw [Edit.run_bind_of_ok read]
  dsimp only
  rw [Edit.run_bind_of_ok (adds.run_replace wf stored member top)]
  rfl

/-- Added content takes the place of a reachable element. -/
theorem replaceBy_settles (wf : a.WellFormed) (filled : a.Filled ∅) (reached : a.Reachable h)
    (adds : a.Adds ts xs b) (top : x ∈ xs) (full : ∀ t ∈ ts, t.All Term.Filled) :
    (replaceBy x h).Settles b := by
  by_cases root : h = a.root
  · subst root
    obtain ⟨c, m, content, stored⟩ := wf.exists_content
    have member := mem_children_of_content content stored
    have replaced := adds.run_replace wf stored member top
    exact Edit.settles_of_some (run_replaceBy_root wf adds top content stored)
      (Edit.replace_evolves adds.wf replaced) (filled.adds_replaced wf adds full stored member top)
  · obtain ⟨p, owned⟩ := reached.owned wf root
    obtain ⟨m, stored⟩ := wf.stored_of_owner? owned
    have member := (wf.mem_children_iff stored).mpr owned
    have replaced := adds.run_replace wf stored member top
    exact Edit.settles_of_some (run_replaceBy wf adds top owned stored)
      (Edit.replace_evolves adds.wf replaced) (filled.adds_replaced wf adds full stored member top)

end ElementRule

/-- Editing as text goes through when one element is selected, and does nothing otherwise. -/
theorem Action.run_only_settles (name key : String) (wf : a.WellFormed) (filled : a.Filled ∅)
    (valid : s.Valid a) (adds : a.Adds ts xs b) (top : x ∈ xs)
    (full : ∀ t ∈ ts, t.All Term.Filled) :
    (Action.run ⟨name, key, .only (.replaceBy x)⟩ s.toList).Settles b := by
  cases valid with
  | single reached => exact ElementRule.replaceBy_settles wf filled reached adds top full
  | run _ _ _ _ => exact Edit.settles_of_nothing adds.wf (filled.adds wf adds full) rfl

end Added

end AlgebraEditor
