import AlgebraEditor.Proofs.Law.Focusing
import AlgebraEditor.Proofs.Session.Runs

/-!
# Actions keep the focus

Whatever a built-in action answers with in a session is selected afterwards as it is: the session
never has to fall back to the root, and never selects a parent instead of all its children.
-/

namespace AlgebraEditor

open Arena Selection

variable {a b : Arena} {p : Handle} {hs rs before after : List Handle} {s : Selection}
  {name key : String}

/-! ### Actions on a focus -/

namespace Action

/-- What a rule answers with for one child after the other takes the place of the children. -/
theorem focus_of_pass {rule : ElementRule}
    (settles : ∀ {a h n}, a.WellFormed → a.Filled ∅ → a.get? h = some n → (rule h).Settles a)
    (keeps : Law.KeepsFocus rule) (wf : a.WellFormed) (filled : a.Filled ∅)
    (focus : Focus a p before hs after) {out : Bool × List Handle}
    (run : (pass rule (fun h => [h]) hs).run a = .ok out b) :
    b.WellFormed ∧ Focus b p before out.2 after := by
  induction hs generalizing a before out with
  | nil => exact absurd rfl focus.nonempty
  | cons h hs ih =>
    unfold pass at run
    obtain ⟨r, c, first, run⟩ := Edit.run_bind_eq_ok.mp run
    obtain ⟨later, _, rest, done⟩ := Edit.run_bind_eq_ok.mp run
    cases done
    have holds : a.Holds p (before ++ h :: (hs ++ after)) := by simpa using focus.holds
    obtain ⟨_, _, _, _, _, stored⟩ := holds.child wf
    obtain ⟨_, _, same, evolves, filled', unchanged⟩ := settles wf filled stored
    cases same.symm.trans first
    have stepped : Focus c p before (r.getD [h]) (hs ++ after) := by
      cases r with
      | none =>
        obtain rfl := unchanged rfl
        exact .of_mem holds
      | some rs => exact keeps.focus wf filled holds first
    cases hs with
    | nil =>
      cases rest
      exact ⟨evolves.wf, by simpa using stepped⟩
    | cons k ks =>
      -- what the first element has become stands left of the focus of the others
      have other : before ++ after ≠ [] := focus.proper.resolve_left (by simp)
      have next : Focus c p (before ++ r.getD [h]) (k :: ks) after :=
        ⟨by simpa using stepped.holds, List.cons_ne_nil k ks, .inr (by simp [stepped.nonempty])⟩
      obtain ⟨wf', last⟩ := ih evolves.wf filled' next rest
      exact ⟨wf', by simpa using last.holds, by simp [stepped.nonempty], .inr other⟩

theorem ifDone_eq_some {out : Bool × List Handle} : ifDone out = some rs ↔ out = (true, rs) := by
  obtain ⟨done, hs⟩ := out
  cases done <;> simp [ifDone]

theorem run_each_resolves {rule : ElementRule}
    (settles : ∀ {a h n}, a.WellFormed → a.Filled ∅ → a.get? h = some n → (rule h).Settles a)
    (keeps : Law.KeepsFocus rule) (wf : a.WellFormed) (filled : a.Filled ∅) (valid : s.Valid a)
    (run : (Action.run ⟨name, key, .each rule⟩ s.toList).run a = .ok (some rs) b) :
    Resolves b rs := by
  unfold Action.run at run
  obtain ⟨out, _, passed, done⟩ := Edit.run_bind_eq_ok.mp run
  obtain ⟨answer, rfl⟩ := Edit.run_pure_eq_ok.mp done
  obtain rfl := ifDone_eq_some.mp answer
  obtain rfl | ⟨p, before, after, focus⟩ := valid.focus wf
  · -- the root has no owner, so the rule does nothing to it
    unfold pass at passed
    obtain ⟨r, c, first, rest⟩ := Edit.run_bind_eq_ok.mp passed
    cases r with
    | none => cases rest
    | some rs =>
      obtain ⟨inner, stored⟩ := wf.wrapper
      obtain ⟨p, owned⟩ := keeps.owned wf stored first
      rw [wf.owner?_root] at owned
      cases owned
  · obtain ⟨wf', focus'⟩ := focus_of_pass settles keeps wf filled focus passed
    exact focus'.resolves wf'

/-- Two or more selected elements that have a common owner are a focus in it. -/
theorem focus_of_several (wf : a.WellFormed) (valid : s.Valid a) (several : 2 ≤ s.toList.length)
    (owned : ∀ h ∈ s.toList, a.owner? h = some p) : ∃ before after, Focus a p before s.toList after := by
  obtain rfl | ⟨q, before, after, focus⟩ := valid.focus wf
  · exact absurd several (Nat.not_succ_le_self 1)
  · have member : s.first ∈ s.toList := List.mem_cons_self
    have owned' := focus.holds.owner? wf (List.mem_append_left after (List.mem_append_right before member))
    cases owned'.symm.trans (owned s.first member)
    exact ⟨before, after, focus⟩

theorem run_exactly_resolves {count : Nat} {rule : SiblingRule} (several : 2 ≤ count)
    (keeps : Law.KeepsRun rule) (wf : a.WellFormed) (valid : s.Valid a)
    (run : (Action.run ⟨name, key, .exactly count rule⟩ s.toList).run a = .ok (some rs) b) :
    Resolves b rs := by
  unfold Action.run at run
  dsimp only at run
  split at run
  · cases run
  rename_i length
  have several : 2 ≤ s.toList.length := by omega
  rw [Edit.run_inspect_bind] at run
  obtain ⟨found, shared, run⟩ := run
  cases found with
  | none => cases run
  | some p =>
    obtain ⟨_, _, focus⟩ := focus_of_several wf valid several (commonParent?_eq_some shared)
    exact keeps wf focus several run

theorem runGroup_eq_some {rule : SiblingRule} {q : Option Handle}
    (run : (runGroup rule (q, hs)).run a = .ok (some rs) b) :
    ∃ p, q = some p ∧ 2 ≤ hs.length ∧ (rule p hs).run a = .ok (some rs) b := by
  match q, hs with
  | none, _ | some _, [] | some _, [_] => cases run
  | some p, h :: k :: rest => exact ⟨p, rfl, by simp, run⟩

theorem run_groups_resolves {rule : SiblingRule} (keeps : Law.KeepsRun rule) (wf : a.WellFormed)
    (valid : s.Valid a)
    (run : (Action.run ⟨name, key, .groups rule⟩ s.toList).run a = .ok (some rs) b) :
    Resolves b rs := by
  have shared := valid.shared wf
  unfold Action.run at run
  dsimp only at run
  rw [Edit.run_inspect_bind, groupByParent_eq_ok fun h inside => (valid.reached h inside).stored wf,
    ownerGroups_eq shared (List.cons_ne_nil _ _)] at run
  obtain ⟨_, found, run⟩ := run
  cases found
  obtain ⟨out, _, passed, done⟩ := Edit.run_bind_eq_ok.mp run
  obtain ⟨answer, rfl⟩ := Edit.run_pure_eq_ok.mp done
  obtain rfl := ifDone_eq_some.mp answer
  unfold pass at passed
  obtain ⟨r, c, grouped, rest⟩ := Edit.run_bind_eq_ok.mp passed
  cases r with
  | none => cases rest
  | some _ =>
    cases rest
    obtain ⟨p, owned, several, run⟩ := runGroup_eq_some grouped
    obtain ⟨_, _, focus⟩ := focus_of_several wf valid several fun h member => (shared h member).trans owned
    rw [List.append_nil]
    exact keeps wf focus several run

/-- What a built-in action answers with on a valid selection can be selected as it is. -/
theorem run_resolves {action : Action} (member : action ∈ Catalog.builtIn.actions) (wf : a.WellFormed)
    (filled : a.Filled ∅) (valid : s.Valid a) (run : (action.run s.toList).run a = .ok (some rs) b) :
    Resolves b rs := by
  simp only [Catalog.builtIn, List.mem_cons, List.not_mem_nil, or_false] at member
  rcases member with rfl | rfl | rfl | rfl | rfl | rfl | rfl | rfl
  · exact run_each_resolves Law.expand_settles Law.expand_keepsFocus wf filled valid run
  · exact run_each_resolves Law.unnest_settles Law.unnest_keepsFocus wf filled valid run
  · exact run_each_resolves Law.minusToFront_settles Law.minusToFront_keepsFocus wf filled valid run
  · exact run_each_resolves Law.minusInside_settles Law.minusInside_keepsFocus wf filled valid run
  · exact run_exactly_resolves (by omega) Law.swap_keepsRun wf valid run
  · exact run_exactly_resolves (by omega) Law.cancel_keepsRun wf valid run
  · exact run_groups_resolves Law.factor_keepsRun wf valid run
  · exact run_each_resolves Law.factorAllTerms_settles Law.factorAllTerms_keepsFocus wf filled valid
      run

end Action

/-! ### Sessions -/

namespace Session

variable {s s' start : Session} {t : Term} {text : List Char}

/-- The sessions that requests lead to. -/
inductive Reaches (start : Session) : Session → Prop where
  | start : Reaches start start
  | step {s s' : Session} {request : Request} {answer : Except Refusal Unit} : Reaches start s →
      request.carryOut.run s = .ok (answer, s') → Reaches start s'

theorem Reaches.sound (reaches : Reaches start s) (sound : start.Sound) : s.Sound := by
  induction reaches with
  | start => exact sound
  | @step s s' request answer _ run ih =>
    obtain ⟨_, _, same, _, sound⟩ := carryOut_passes ih request
    cases same.symm.trans run
    exact sound

/-- The action answers with elements of the expression, and they are what is selected afterwards,
in child order. -/
def Refocuses (action : Action) (s s' : Session) : Prop :=
  ∃ hs b, (action.run s.selection.toList).run s.arena = .ok (some hs) b ∧ hs ≠ [] ∧
    (∀ h ∈ hs, b.Reachable h ∧ s'.arena.Reachable h) ∧
    (Selection.resolve b hs).run = .ok (.ok s'.selection) ∧ s'.selection.toList.Perm hs ∧
    s'.selection.Valid s'.arena

theorem Sound.run_focuses (sound : s.Sound) {action : Action}
    (member : action ∈ Catalog.builtIn.actions) :
    ∃ done s', (run action).run s = .ok (done, s') ∧ (done = true → Refocuses action s s') ∧
      (done = false → s'.selection = s.selection) := by
  obtain ⟨r, b, changed, evolves, filled, same⟩ :=
    Action.run_settles member sound.wf sound.filled sound.valid
  cases r with
  | none =>
    obtain rfl := same rfl
    obtain ⟨s', done, _, kept, -⟩ := run_of_none sound.wf filled sound.valid changed
    exact ⟨false, s', done, nofun, fun _ => kept⟩
  | some hs =>
    have resolves := Action.run_resolves member sound.wf sound.filled sound.valid changed
    obtain ⟨selection, resolved, perm⟩ := resolves.selected
    obtain ⟨_, resolved', valid⟩ := Selection.resolve_total evolves.wf hs
    cases resolved.symm.trans resolved'
    have selected : (selectResult hs).run { s with grow := .inactive, arena := b } = _ :=
      run_selectResult_of_ok resolved
    obtain ⟨s', done, sound', rfl, swept⟩ :=
      run_of_some evolves.wf filled changed selected (valid selection rfl)
    refine ⟨true, s', done, fun _ => ⟨hs, b, changed, resolves.nonempty, fun h inside => ?_, resolved,
      perm, sound'.valid⟩, nofun⟩
    exact ⟨resolves.reached h inside, swept.shows.reachable (resolves.reached h inside)⟩

/-- However a session on an accepted text is used, a built-in action that does something leaves
selected exactly what it answered with, and an action that does nothing leaves the selection. -/
theorem ofText_keeps_focus (accepted : Formula.Accepts text t) :
    ∃ start, ofText text = .ok (.ok start) ∧ ∀ s, Reaches start s →
      ∀ action ∈ Catalog.builtIn.actions, ∃ done s',
        (runKey action.key).run s = .ok (some done, s') ∧ (done = true → Refocuses action s s') ∧
          (done = false → s'.selection = s.selection) := by
  obtain ⟨start, started, sound⟩ := sound_ofText accepted
  refine ⟨start, started, fun s reaches action member => ?_⟩
  obtain ⟨done, s', ran, focused, kept⟩ := (reaches.sound sound).run_focuses member
  refine ⟨done, s', ?_, focused, kept⟩
  unfold runKey
  rw [Catalog.find?_of_mem member]
  dsimp only
  rw [StateT.run_map, ran]
  rfl

/-- In `x*y*z` the first two factors are selected. Swapping them selects both in their new order, and
expanding does nothing to them. -/
theorem ofText_keeps_focus_of_product :
    ∃ start s s' s'', ofText ['x', '*', 'y', '*', 'z'] = .ok (.ok start) ∧ Reaches start s ∧
      s.selection = ⟨⟨2⟩, [⟨3⟩]⟩ ∧
      (runKey "S").run s = .ok (some true, s') ∧ s'.selection = ⟨⟨3⟩, [⟨2⟩]⟩ ∧
      Refocuses ⟨"Swap", "S", .exactly 2 Law.swap⟩ s s' ∧
      (runKey "E").run s = .ok (some false, s'') ∧ s''.selection = s.selection := by
  have accepted : Formula.Accepts ['x', '*', 'y', '*', 'z']
      (.product [.symbol "x", .symbol "y", .symbol "z"]) := ⟨_, _, rfl, rfl⟩
  obtain ⟨start, started, focuses⟩ := ofText_keeps_focus accepted
  have started' : ofText ['x', '*', 'y', '*', 'z'] =
      .ok (.ok (ofArena (threeFactors [⟨2⟩, ⟨3⟩, ⟨4⟩] []))) := rfl
  cases started'.symm.trans started
  have selected : (Request.select [⟨3⟩, ⟨2⟩]).carryOut.run
      (ofArena (threeFactors [⟨2⟩, ⟨3⟩, ⟨4⟩] [])) = .ok (.ok (),
        ⟨threeFactors [⟨2⟩, ⟨3⟩, ⟨4⟩] [], ⟨⟨2⟩, [⟨3⟩]⟩, .inactive⟩) := rfl
  have reaches := Reaches.start.step selected
  have swapped : (runKey "S").run ⟨threeFactors [⟨2⟩, ⟨3⟩, ⟨4⟩] [], ⟨⟨2⟩, [⟨3⟩]⟩, .inactive⟩ =
      .ok (some true, ⟨threeFactors [⟨3⟩, ⟨2⟩, ⟨4⟩] [none, none], ⟨⟨3⟩, [⟨2⟩]⟩, .inactive⟩) := rfl
  have expanded : (runKey "E").run ⟨threeFactors [⟨2⟩, ⟨3⟩, ⟨4⟩] [], ⟨⟨2⟩, [⟨3⟩]⟩, .inactive⟩ =
      .ok (some false, ⟨threeFactors [⟨2⟩, ⟨3⟩, ⟨4⟩] [], ⟨⟨2⟩, [⟨3⟩]⟩, .inactive⟩) := rfl
  have member : (⟨"Swap", "S", .exactly 2 Law.swap⟩ : Action) ∈ Catalog.builtIn.actions := by
    simp [Catalog.builtIn]
  obtain ⟨_, _, ran, focused, -⟩ := focuses _ reaches _ member
  cases swapped.symm.trans ran
  exact ⟨_, _, _, _, started, reaches, rfl, swapped, rfl, focused rfl, expanded, rfl⟩

end Session

end AlgebraEditor
