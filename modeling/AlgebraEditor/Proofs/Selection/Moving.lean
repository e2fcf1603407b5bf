import AlgebraEditor.Proofs.Selection.Resolving
import AlgebraEditor.Selection.Grow

/-!
# Moving and growing

Every move from a valid selection leads to a valid selection. The ends of a growing run are
children of one element, so the run between them can always be selected.
-/

namespace AlgebraEditor

open Arena

variable {a b : Arena} {h k p : Handle} {hs before after : List Handle} {n : Node} {s : Selection}
  {d : Direction}

namespace Selection

theorem mem_last (s : Selection) : s.last ∈ s.toList := List.getLastD_mem_cons

theorem Valid.reached (valid : s.Valid a) : ∀ h ∈ s.toList, a.Reachable h := by
  cases valid with
  | single reached => exact fun h member => List.mem_singleton.mp member ▸ reached
  | run reached stored children other =>
    intro h member
    refine reached.child stored ?_
    rw [children]
    exact List.mem_append.mpr (.inl (List.mem_append.mpr (.inr member)))

/-- Selected elements have one owner, or none. -/
theorem Valid.shared (valid : s.Valid a) (wf : a.WellFormed) :
    ∀ h ∈ s.toList, a.owner? h = a.owner? s.first := by
  cases valid with
  | single reached => exact fun h member => by rw [List.mem_singleton.mp member]
  | @run p first second n before rest after reached stored children other =>
    have owned : ∀ h ∈ first :: second :: rest, a.owner? h = some p := fun h member =>
      wf.records stored h (by
        rw [children]
        exact List.mem_append.mpr (.inl (List.mem_append.mpr (.inr member))))
    exact fun h member => (owned h member).trans (owned first List.mem_cons_self).symm

theorem Valid.nodup (valid : s.Valid a) (wf : a.WellFormed) : s.toList.Nodup := by
  cases valid with
  | single reached => exact List.nodup_singleton _
  | run reached stored children other =>
    have nodup := wf.distinct stored
    rw [children] at nodup
    exact (List.nodup_append.mp (List.nodup_append.mp nodup).1).2.1

/-- One neighbour or more can be selected together. -/
theorem resolve_neighbours (wf : a.WellFormed) (reached : a.Reachable p) (stored : a.get? p = some n)
    (children : n.element.children = before ++ hs ++ after) (other : hs ≠ []) :
    ∃ s, (resolve a hs).run = .ok (.ok s) ∧ s.Valid a := by
  have inside : ∀ h ∈ hs, h ∈ n.element.children := fun h member => by
    rw [children]
    exact List.mem_append.mpr (.inl (List.mem_append.mpr (.inr member)))
  match hs with
  | [] => exact absurd rfl other
  | [h] =>
    have reached' := reached.child stored (inside h List.mem_cons_self)
    exact ⟨single h, resolve_single wf reached', .single reached'⟩
  | first :: second :: rest =>
    refine ⟨_, resolve_run wf reached stored children, ?_⟩
    split
    · exact .single reached
    · exact .run reached stored children ‹_›

/-! ### Moves -/

theorem stay_or_select (wf : a.WellFormed) (valid : s.Valid a) {found : Option Handle}
    (each : ∀ k, found = some k → a.Reachable k) :
    ∃ s', (match found with
      | none => return s
      | some k => resolve a [k] : Select Selection).run = .ok (.ok s') ∧ s'.Valid a := by
  cases found with
  | none => exact ⟨s, rfl, valid⟩
  | some k => exact ⟨single k, resolve_single wf (each k rfl), .single (each k rfl)⟩

theorem toChild_total (wf : a.WellFormed) (valid : s.Valid a) :
    ∃ s', (s.toChild a).run = .ok (.ok s') ∧ s'.Valid a := by
  have reached := valid.reached s.first List.mem_cons_self
  obtain ⟨n, stored⟩ := reached.stored wf
  unfold toChild
  rw [Select.run_lift_bind (children_of_get? stored)]
  cases children : n.element.children with
  | nil => exact ⟨s, rfl, valid⟩
  | cons child rest =>
    have reached' := reached.child stored (by rw [children]; exact List.mem_cons_self)
    exact ⟨single child, resolve_single wf reached', .single reached'⟩

theorem toParent_total (wf : a.WellFormed) (valid : s.Valid a) :
    ∃ s', (s.toParent a).run = .ok (.ok s') ∧ s'.Valid a := by
  have reached := valid.reached s.first List.mem_cons_self
  obtain ⟨n, stored⟩ := reached.stored wf
  unfold toParent
  rw [Select.run_lift_bind (parent_of_get? stored)]
  cases owned : a.owner? s.first with
  | none => exact ⟨s, rfl, valid⟩
  | some p =>
    have reached' := reached.owner wf owned
    exact ⟨single p, resolve_single wf reached', .single reached'⟩

theorem sibling?_total (wf : a.WellFormed) (stored : a.get? h = some n) (d : Direction) :
    ∃ found, sibling? a h d = .ok found ∧ ∀ k, found = some k →
      ∃ p, a.owner? h = some p ∧ a.owner? k = some p := by
  unfold sibling?
  rw [parent_of_get? stored, ok_bind]
  cases owned : a.owner? h with
  | none => exact ⟨none, rfl, nofun⟩
  | some p =>
    obtain ⟨m, held⟩ := wf.stored_of_owner? owned
    dsimp only
    rw [children_of_get? held, ok_bind]
    cases position : m.element.children.idxOf? h with
    | none => exact ⟨none, rfl, nofun⟩
    | some i =>
      refine ⟨_, rfl, fun k found => ⟨p, rfl, ?_⟩⟩
      obtain ⟨j, _, found⟩ := Option.bind_eq_some_iff.mp found
      exact wf.records held k (List.mem_of_getElem? found)

theorem toSibling_total (wf : a.WellFormed) (valid : s.Valid a) (d : Direction) :
    ∃ s', (s.toSibling a d).run = .ok (.ok s') ∧ s'.Valid a := by
  have ends : ∀ h ∈ s.toList, ∃ found, sibling? a h d = .ok found ∧
      ∀ k, found = some k → a.Reachable k := by
    intro h member
    have reached := valid.reached h member
    obtain ⟨n, stored⟩ := reached.stored wf
    obtain ⟨found, read, holds⟩ := sibling?_total wf stored d
    refine ⟨found, read, fun k same => ?_⟩
    obtain ⟨p, owned, owned'⟩ := holds k same
    exact (reached.owner wf owned).step wf owned'
  unfold toSibling
  cases d with
  | previous =>
    obtain ⟨found, read, each⟩ := ends s.first List.mem_cons_self
    rw [Select.run_lift_bind read]
    exact stay_or_select wf valid each
  | next =>
    obtain ⟨found, read, each⟩ := ends s.last s.mem_last
    rw [Select.run_lift_bind read]
    exact stay_or_select wf valid each

theorem toOutermostSibling_total (wf : a.WellFormed) (valid : s.Valid a) (d : Direction) :
    ∃ s', (s.toOutermostSibling a d).run = .ok (.ok s') ∧ s'.Valid a := by
  have reached := valid.reached s.first List.mem_cons_self
  obtain ⟨n, stored⟩ := reached.stored wf
  unfold toOutermostSibling
  rw [Select.run_lift_bind (parent_of_get? stored)]
  cases owned : a.owner? s.first with
  | none => exact ⟨s, rfl, valid⟩
  | some p =>
    have above := reached.owner wf owned
    obtain ⟨m, held⟩ := above.stored wf
    dsimp only
    rw [Select.run_lift_bind (children_of_get? held)]
    cases d with
    | previous => exact stay_or_select wf valid fun k found => above.child held (List.mem_of_head? found)
    | next => exact stay_or_select wf valid fun k found => above.child held (List.mem_of_getLast? found)

end Selection

/-! ### Growing -/

namespace Grow

variable {g : Grow}

/-- The ends of the grown run are children of one element, unless the run was not selected. -/
def Sound (g : Grow) (a : Arena) : Prop :=
  ∀ r, g.run = some r → r.anchor ∈ r.selected →
    ∃ p, a.owner? r.anchor = some p ∧ a.owner? r.moving = some p

theorem sound_inactive (a : Arena) : Sound .inactive a := nofun

theorem ends_siblings (sound : g.Sound a) (wf : a.WellFormed) (valid : s.Valid a) (d : Direction) :
    (g.ends s d).1 ∈ s.toList ∧ (∃ n, a.get? (g.ends s d).2 = some n) ∧
      a.owner? (g.ends s d).2 = a.owner? (g.ends s d).1 := by
  have ends : (inactive.ends s d).1 ∈ s.toList ∧ (inactive.ends s d).2 ∈ s.toList := by
    cases d with
    | previous => exact ⟨s.mem_last, List.mem_cons_self⟩
    | next => exact ⟨List.mem_cons_self, s.mem_last⟩
  have fresh : (inactive.ends s d).1 ∈ s.toList ∧ (∃ n, a.get? (inactive.ends s d).2 = some n) ∧
      a.owner? (inactive.ends s d).2 = a.owner? (inactive.ends s d).1 :=
    ⟨ends.1, (valid.reached _ ends.2).stored wf,
      (valid.shared wf _ ends.2).trans (valid.shared wf _ ends.1).symm⟩
  unfold Grow.ends
  cases grown : g.run with
  | none => exact fresh
  | some r =>
    dsimp only
    split
    case isTrue kept =>
      obtain ⟨same, member⟩ := kept
      obtain ⟨p, owned, owned'⟩ := sound r grown member
      exact ⟨same ▸ member, Arena.stored_of_owner? owned', owned'.trans owned.symm⟩
    case isFalse => exact fresh

/-- The run between two positions, whichever comes first. -/
theorem between_run (xs : List Handle) {i j : Nat} (first : i < xs.length) (second : j < xs.length) :
    ∃ before after, xs = before ++ between xs i j ++ after ∧ between xs i j ≠ [] := by
  refine ⟨xs.take (min i j), xs.drop (min i j + (max i j - min i j + 1)), ?_, ?_⟩
  · unfold between
    rw [List.append_assoc, ← List.drop_drop, List.take_append_drop, List.take_append_drop]
  · unfold between
    intro empty
    have length := congrArg List.length empty
    rw [List.length_take, List.length_drop, List.length_nil] at length
    omega

theorem step_total (wf : a.WellFormed) (valid : s.Valid a) (sound : g.Sound a) (d : Direction) :
    ∃ g' s', (g.step s a d).run = .ok (.ok (g', s')) ∧ s'.Valid a ∧ g'.Sound a := by
  unfold step
  cases active : g.active with
  | false =>
    obtain ⟨s', moved, valid'⟩ := Selection.toSibling_total wf valid d
    simp only [Bool.not_false, if_true]
    rw [Select.run_bind_of_ok moved]
    exact ⟨g, s', rfl, valid', sound⟩
  | true =>
    simp only [Bool.not_true, Bool.false_eq_true, if_false]
    obtain ⟨selected, ⟨n, stored⟩, shared⟩ := ends_siblings sound wf valid d
    obtain ⟨found, read, holds⟩ := Selection.sibling?_total wf stored d
    rw [Select.run_lift_bind read]
    cases found with
    | none => exact ⟨g, s, rfl, valid, sound⟩
    | some moved =>
      obtain ⟨p, owned, owned'⟩ := holds moved rfl
      have owned'' := shared.symm.trans owned
      have reached := (valid.reached _ selected).owner wf owned''
      obtain ⟨m, held⟩ := reached.stored wf
      have first := (wf.mem_children_iff held).mpr owned''
      have second := (wf.mem_children_iff held).mpr owned'
      dsimp only
      rw [Select.run_lift_bind (parent_eq_some.mpr owned')]
      dsimp only
      rw [Select.run_lift_bind (children_of_get? held)]
      obtain ⟨i, anchored⟩ := exists_idxOf? first
      obtain ⟨j, position⟩ := exists_idxOf? second
      obtain ⟨before, after, whole, other⟩ := between_run m.element.children
        (lt_of_idxOf? anchored) (lt_of_idxOf? position)
      obtain ⟨s', resolved, valid'⟩ := Selection.resolve_neighbours wf reached held whole other
      rw [anchored, position]
      dsimp only
      rw [Select.run_bind_of_ok resolved]
      refine ⟨_, s', rfl, valid', ?_⟩
      rintro r ⟨⟩ _
      exact ⟨p, owned'', owned'⟩

end Grow

end AlgebraEditor
