import AlgebraEditor.Proofs.Arena.Rewiring
import AlgebraEditor.Proofs.Session.Unparsed

/-!
# Sweeping

Sweeping goes down from the root, and reachability is decided on the way up. Both tell the same
elements, so what is swept away is exactly what is no part of the expression, and a session holds
nothing else after a change.
-/

namespace AlgebraEditor

open Arena

namespace Arena

variable {a b : Arena} {h x : Handle} {n : Node} {kept xs : List Handle} {d : Nat}

/-! ### What is stored -/

/-- The stored elements, in the order of their places. -/
def inhabited (a : Arena) : List Handle :=
  ((List.range a.places.size).map Handle.mk).filter a.contains

theorem nodup_inhabited (a : Arena) : a.inhabited.Nodup :=
  (List.nodup_range.map fun _ _ same => congrArg Handle.index same).filter _

theorem mem_inhabited : h ∈ a.inhabited ↔ a.contains h = true := by
  unfold inhabited
  rw [List.mem_filter, List.mem_map]
  refine ⟨And.right, fun there => ⟨⟨h.index, ?_, rfl⟩, there⟩⟩
  obtain ⟨n, stored⟩ := contains_iff.mp there
  exact List.mem_range.mpr (index_lt_of_get? stored)

theorem length_inhabited (a : Arena) : a.inhabited.length = a.size := by
  have listed : a.places.toList.map Option.isSome =
      (List.range a.places.size).map fun i => a.contains ⟨i⟩ := by
    apply List.ext_getElem (by simp)
    intro i first second
    have bound : i < a.places.size := by simpa using first
    simp [contains, get?, Array.getElem?_eq_getElem bound]
  have same := congrArg (List.countP id) listed
  rw [List.countP_map, List.countP_map] at same
  unfold inhabited size
  rw [← List.countP_eq_length_filter, List.countP_map, ← Array.countP_toList]
  exact same.symm

/-! ### What is retained -/

theorem contains_retain (a : Arena) (kept : List Handle) (h : Handle) :
    (a.retain kept).contains h = (kept.contains h && a.contains h) := by
  unfold contains
  rw [get?_retain]
  by_cases member : h ∈ kept <;> simp [member]

theorem size_places_retain (a : Arena) (kept : List Handle) :
    (a.retain kept).places.size = a.places.size := Array.size_mapIdx

theorem inhabited_retain (a : Arena) (kept : List Handle) :
    (a.retain kept).inhabited = a.inhabited.filter fun h => kept.contains h := by
  unfold inhabited
  rw [size_places_retain, List.filter_filter]
  exact List.filter_congr fun h _ => contains_retain a kept h

/-- The elements that are not retained are as many as the arena gets smaller. -/
theorem length_dropped (a : Arena) (kept : List Handle) :
    (a.inhabited.filter fun h => !kept.contains h).length = a.size - (a.retain kept).size := by
  have whole := List.length_eq_length_filter_add (l := a.inhabited) fun h => kept.contains h
  rw [← inhabited_retain, length_inhabited, length_inhabited] at whole
  omega

theorem retain_eq_self (all : ∀ h n, a.get? h = some n → h ∈ kept) : a.retain kept = a := by
  refine ext_get? (size_places_retain a kept) rfl fun h => ?_
  rw [get?_retain]
  split
  case isTrue => rfl
  case isFalse absent =>
    cases stored : a.get? h with
    | none => rfl
    | some n => exact absurd (all h n stored) absent

/-- A second sweep finds nothing to remove. -/
theorem Swept.run_sweep (swept : a.Swept b) (wf : a.WellFormed) : Edit.sweep.run b = .ok 0 b := by
  obtain ⟨kept, read, holds⟩ := (swept.wf wf).preOrder_root
  have same : b.retain kept = b := retain_eq_self fun h n found =>
    (holds h).mpr (swept.shows.reachable (swept.reached found))
  rw [run_sweep_of_preOrder read, same, Nat.sub_self]

/-! ### Walks in what is left -/

/-- Where a walk finds the same nodes, it stays within what can be reached. -/
theorem reachable_of_descend (read : a.descend d h = .ok xs) (same : ∀ x ∈ xs, b.get? x = a.get? x)
    (reached : b.Reachable h) : ∀ x ∈ xs, b.Reachable x := by
  induction d generalizing h xs with
  | zero => cases read
  | succ d ih =>
    unfold descend at read
    obtain ⟨cs, children, others⟩ := bind_eq_ok.mp read
    obtain ⟨parts, listed, done⟩ := bind_eq_ok.mp others
    cases pure_eq_ok.mp done
    obtain ⟨n, stored, rfl⟩ := children_eq_ok.mp children
    obtain ⟨here, below⟩ := List.forall_mem_cons.mp same
    refine List.forall_mem_cons.mpr ⟨reached, fun x inside => ?_⟩
    obtain ⟨part, member, inside⟩ := List.mem_flatten.mp inside
    obtain ⟨i, bound, rfl⟩ := List.getElem_of_mem member
    have all := mapM_eq_ok.mp listed
    have bound' : i < n.element.children.length := all.length_eq.symm ▸ bound
    refine ih (all.get bound' bound) (fun y inside => below y ?_)
      (reached.child (here.trans stored) (List.getElem_mem bound')) x inside
    exact List.mem_flatten.mpr ⟨_, member, inside⟩

/-- Whatever arena is swept, what is left can be reached. -/
theorem reachable_of_run_sweep {count : Nat} (run : Edit.sweep.run a = .ok count b)
    (stored : b.get? h = some n) : b.Reachable h := by
  obtain ⟨kept, read⟩ : ∃ kept, a.preOrder a.root = .ok kept := by
    unfold Edit.sweep at run
    rw [Edit.run_get_bind] at run
    obtain ⟨kept, _, read, -⟩ := Edit.run_bind_eq_ok.mp run
    exact ⟨kept, (Edit.run_inspect_eq_ok.mp read).1⟩
  cases (run_sweep_of_preOrder read).symm.trans run
  rw [get?_retain] at stored
  split at stored
  case isTrue member =>
    refine reachable_of_descend read (fun x inside => ?_) (.root (a := a.retain kept)) h member
    rw [get?_retain, if_pos inside]
  case isFalse => cases stored

/-! ### Garbage -/

theorem stored_of_isReachable {answer : Bool} (wf : a.WellFormed)
    (read : a.isReachable h = .ok answer) : ∃ n, a.get? h = some n := by
  unfold isReachable at read
  split at read
  case isTrue same => exact same ▸ Reachable.root.stored wf
  case isFalse =>
    obtain ⟨_, climbed, -⟩ := bind_eq_ok.mp read
    unfold ancestors reach climb at climbed
    obtain ⟨owner, above, -⟩ := bind_eq_ok.mp climbed
    obtain ⟨n, stored, -⟩ := bind_eq_ok.mp above
    exact ⟨n, node_eq_ok.mp stored⟩

theorem isReachable_eq_true (wf : a.WellFormed) : a.isReachable h = .ok true ↔ a.Reachable h := by
  constructor
  · intro read
    obtain ⟨n, stored⟩ := stored_of_isReachable wf read
    obtain ⟨answer, read', holds⟩ := wf.isReachable_eq_ok stored
    cases read.symm.trans read'
    exact holds.mp rfl
  · intro reached
    obtain ⟨n, stored⟩ := reached.stored wf
    obtain ⟨answer, read, holds⟩ := wf.isReachable_eq_ok stored
    rw [read, holds.mpr reached]

theorem isReachable_eq_false (wf : a.WellFormed) :
    a.isReachable h = .ok false ↔ a.contains h = true ∧ ¬ a.Reachable h := by
  constructor
  · intro read
    refine ⟨contains_iff.mpr (stored_of_isReachable wf read), fun reached => ?_⟩
    cases read.symm.trans ((isReachable_eq_true wf).mpr reached)
  · rintro ⟨there, apart⟩
    obtain ⟨n, stored⟩ := contains_iff.mp there
    obtain ⟨answer, read, holds⟩ := wf.isReachable_eq_ok stored
    cases answer with
    | true => exact absurd (holds.mp rfl) apart
    | false => exact read

/-- The second arena holds what is reachable in the first one, as it was, and nothing else; `count`
elements are gone. The expression is written as before, and nothing is left to remove. -/
structure Cleared (a : Arena) (count : Nat) (b : Arena) : Prop where
  decided : ∀ h, a.contains h = true → ∃ answer, a.isReachable h = .ok answer
  kept : ∀ h, a.isReachable h = .ok true → b.contains h = true ∧ b.get? h = a.get? h
  gone : ∀ h, a.isReachable h ≠ .ok true → b.contains h = false
  counted : ∃ others : List Handle, others.Nodup ∧ others.length = count ∧
    ∀ h, h ∈ others ↔ a.isReachable h = .ok false
  wf : b.WellFormed
  root : b.root = a.root
  written : ∀ purpose, ∃ text, a.write purpose a.root = .ok text ∧ b.write purpose b.root = .ok text
  again : Edit.sweep.run b = .ok 0 b

theorem WellFormed.sweep_clears (wf : a.WellFormed) :
    ∃ count b, Edit.sweep.run a = .ok count b ∧ a.Cleared count b := by
  obtain ⟨kept, read, holds⟩ := wf.preOrder_root
  obtain ⟨count, b, run, swept⟩ := Arena.run_sweep wf
  have dropped := length_dropped a kept
  cases (run_sweep_of_preOrder read).symm.trans run
  have wf' := swept.wf wf
  refine ⟨_, _, run, ?_⟩
  constructor
  case decided =>
    intro h there
    obtain ⟨n, stored⟩ := contains_iff.mp there
    obtain ⟨answer, read, -⟩ := wf.isReachable_eq_ok stored
    exact ⟨answer, read⟩
  case kept =>
    intro h read
    have reached := (isReachable_eq_true wf).mp read
    have same := swept.kept reached
    obtain ⟨n, stored⟩ := reached.stored wf
    exact ⟨contains_iff.mpr ⟨n, same.trans stored⟩, same⟩
  case gone =>
    intro h apart
    refine Bool.eq_false_iff.mpr fun there => apart ?_
    obtain ⟨n, stored⟩ := contains_iff.mp there
    exact (isReachable_eq_true wf).mpr (swept.reached stored)
  case counted =>
    refine ⟨_, a.nodup_inhabited.filter _, dropped, fun h => ?_⟩
    rw [List.mem_filter, mem_inhabited, isReachable_eq_false wf, ← holds]
    simp
  case wf => exact wf'
  case root => exact swept.root
  case written =>
    intro purpose
    obtain ⟨n, stored⟩ := Reachable.root.stored wf
    refine ⟨_, wf.write_eq_ok stored purpose, ?_⟩
    rw [swept.root, wf'.write_eq_ok (swept.shows.kept .root stored),
      swept.shows.denote_eq wf wf' .root]
  case again => exact swept.run_sweep wf

end Arena

namespace Session

variable {start s s' : Session} {t : Term} {text : List Char} {action : Action} {done : Bool}

/-! ### Sessions without leftovers -/

/-- The arena holds what a walk from the root lists and nothing else, and whatever is selected. -/
structure Tidy (s : Session) : Prop where
  listed : ∃ xs, s.arena.preOrder s.arena.root = .ok xs ∧ ∀ h, h ∈ xs ↔ s.arena.contains h = true
  selected : ∀ h ∈ s.selection.toList, s.arena.contains h = true

theorem Sound.tidy_of_reachable (sound : s.Sound)
    (all : ∀ h n, s.arena.get? h = some n → s.arena.Reachable h) : s.Tidy := by
  obtain ⟨xs, read, holds⟩ := sound.wf.preOrder_root
  have stored : ∀ h, s.arena.Reachable h ↔ s.arena.contains h = true := fun h =>
    ⟨fun reached => contains_iff.mpr (reached.stored sound.wf),
      fun there => (contains_iff.mp there).elim (all h)⟩
  exact ⟨⟨xs, read, fun h => (holds h).trans (stored h)⟩,
    fun h member => (stored h).mp (sound.valid.reached h member)⟩

/-- A step that ends with sweeping leaves nothing lying around, whatever it did before. -/
theorem Sound.tidy_of_run_tidy (sound : s'.Sound) (ran : tidy.run s = .ok ((), s')) : s'.Tidy := by
  unfold tidy at ran
  obtain ⟨_, u, swept, asked⟩ := SessionStep.run_bind_eq_ok.mp ran
  obtain ⟨count, swept, -⟩ := SessionStep.run_map_eq_ok.mp swept
  obtain ⟨b, sweep, rfl⟩ := SessionStep.run_edit_eq_ok.mp swept
  obtain ⟨_, -, same⟩ := bind_eq_ok.mp asked
  cases same
  exact sound.tidy_of_reachable fun h n => reachable_of_run_sweep sweep

theorem Sound.tidy_of_run (sound : s'.Sound) (ran : (run action).run s = .ok (done, s')) :
    s'.Tidy := by
  unfold run at ran
  obtain ⟨_, _, -, ran⟩ := SessionStep.run_bind_eq_ok.mp ran
  obtain ⟨_, _, -, ran⟩ := SessionStep.run_bind_eq_ok.mp ran
  obtain ⟨result, _, -, ran⟩ := SessionStep.run_bind_eq_ok.mp ran
  have ended : ∃ u, tidy.run u = .ok ((), s') := by
    cases result with
    | none =>
      obtain ⟨_, _, tidied, same⟩ := SessionStep.run_bind_eq_ok.mp ran
      cases same
      exact ⟨_, tidied⟩
    | some hs =>
      obtain ⟨_, _, -, ran⟩ := SessionStep.run_bind_eq_ok.mp ran
      obtain ⟨_, _, tidied, same⟩ := SessionStep.run_bind_eq_ok.mp ran
      cases same
      exact ⟨_, tidied⟩
  exact ended.elim fun _ => sound.tidy_of_run_tidy

theorem Sound.tidy_of_setExpression (sound : s'.Sound)
    (ran : (setExpression text).run s = .ok (.ok (), s')) : s'.Tidy := by
  unfold setExpression at ran
  obtain ⟨answer, _, -, ran⟩ := SessionStep.run_bind_eq_ok.mp ran
  cases answer with
  | error e => cases ran
  | ok new =>
    obtain ⟨_, _, -, ran⟩ := SessionStep.run_bind_eq_ok.mp ran
    obtain ⟨_, _, -, ran⟩ := SessionStep.run_bind_eq_ok.mp ran
    obtain ⟨_, _, tidied, same⟩ := SessionStep.run_bind_eq_ok.mp ran
    cases same
    exact sound.tidy_of_run_tidy tidied

theorem Sound.tidy_of_editSelected (sound : s'.Sound)
    (ran : (editSelected text).run s = .ok (.ok done, s')) : s'.Tidy := by
  unfold editSelected at ran
  obtain ⟨answer, _, -, ran⟩ := SessionStep.run_bind_eq_ok.mp ran
  cases answer with
  | error e => cases ran
  | ok new =>
    obtain ⟨_, _, ran, same⟩ := SessionStep.run_bind_eq_ok.mp ran
    cases same
    exact sound.tidy_of_run ran

theorem tidy_ofText (accepted : Formula.Accepts text t) :
    ∃ s, ofText text = .ok (.ok s) ∧ s.Tidy := by
  obtain ⟨s, started, sound⟩ := sound_ofText accepted
  obtain ⟨a, run, rfl⟩ := ofText_eq_ok started
  refine ⟨_, started, sound.tidy_of_reachable fun h n => ?_⟩
  obtain ⟨answer, _, -, run⟩ := Edit.run_bind_eq_ok.mp run
  cases answer with
  | error e => cases run
  | ok new =>
    obtain ⟨_, _, -, run⟩ := Edit.run_bind_eq_ok.mp run
    obtain ⟨_, _, swept, done⟩ := Edit.run_bind_eq_ok.mp run
    obtain ⟨count, swept⟩ := Edit.run_discard_eq_ok.mp swept
    cases done
    exact reachable_of_run_sweep swept

/-- In a well-formed arena, which may hold more than its expression, reachability is decided for all
that is stored. Sweeping keeps what is reachable as it is and removes the others, answers with their
number, and leaves a well-formed arena in which the expression is written as before and a second
sweep removes nothing. So a session on an accepted text holds its expression and nothing else, and
however it is used it does so again after every built-in action and every accepted text. -/
theorem sweeping_keeps_expression :
    (∀ a : Arena, a.WellFormed → ∃ count b, Edit.sweep.run a = .ok count b ∧ a.Cleared count b) ∧
    (∀ text t, Formula.Accepts text t → ∃ s, ofText text = .ok (.ok s) ∧ s.Tidy) ∧
    ∀ start s, Starts start → Reaches start s →
      (∀ action ∈ Catalog.builtIn.actions, ∃ done s', (run action).run s = .ok (done, s') ∧
        s'.Tidy) ∧
      ∀ text t, Formula.Accepts text t →
        (∃ done s', (editSelected text).run s = .ok (.ok done, s') ∧ s'.Tidy) ∧
        ∃ s', (setExpression text).run s = .ok (.ok (), s') ∧ s'.Tidy := by
  refine ⟨fun a wf => wf.sweep_clears, fun text t => tidy_ofText, fun start s starts reaches => ?_⟩
  have sound := reaches.sound starts.sound.1
  refine ⟨fun action member => ?_, fun text t accepted => ?_⟩
  · obtain ⟨done, s', ran, -, sound'⟩ := run_passes sound.wf sound.valid
      (Action.run_settles member sound.wf sound.filled sound.valid)
    exact ⟨done, s', ran, sound'.tidy_of_run ran⟩
  · obtain ⟨x, b, read, -⟩ :=
      Edit.run_plantText_of_ok sound.wf (Formula.accepts_iff.mp accepted)
    constructor
    · obtain ⟨_, s', ran, ⟨done, rfl⟩, sound'⟩ := editSelected_passes sound read
      exact ⟨done, s', ran, sound'.tidy_of_editSelected ran⟩
    · obtain ⟨_, s', ran, rfl, sound'⟩ := setExpression_passes sound read
      exact ⟨s', ran, sound'.tidy_of_setExpression ran⟩

/-- Beside `x + y*z` lie a sign in front of `w` and what the expression was before, three elements.
A refused `x +` leaves the `x` in a session on `x + y`, until an action is run that does nothing. -/
theorem sweeping_keeps_expression_of_leftovers : (∃ a b : Arena, a.WellFormed ∧
      a.get? ⟨7⟩ = some ⟨none, .negation ⟨8⟩⟩ ∧ Edit.sweep.run a = .ok 3 b ∧ a.Cleared 3 b) ∧
    ∃ start s, ofText ['x', '+', 'y'] = .ok (.ok start) ∧ start.Tidy ∧ Reaches start s ∧ ¬ s.Tidy ∧
      ∃ s', (run ⟨"Unnest", "U", .each Law.unnest⟩).run s = .ok (false, s') ∧ s'.Tidy := by
  obtain ⟨sweeps, starts, acts⟩ := sweeping_keeps_expression
  refine ⟨?_, ?_⟩
  · obtain ⟨a, same⟩ : ∃ a, a = ((zero.plant (.sum [.symbol "x", .product [.symbol "y",
      .symbol "z"]])).rewire ⟨0⟩ (.root ⟨2⟩)).plant (.negation (.symbol "w")) := ⟨_, rfl⟩
    have wf : a.WellFormed := by
      rw [same]
      exact (Edit.wellFormed_expression (by decide)).plant (by decide)
    have sign : a.get? ⟨7⟩ = some ⟨none, .negation ⟨8⟩⟩ := by rw [same]; rfl
    obtain ⟨count, b, run, cleared⟩ := sweeps a wf
    obtain ⟨c, run'⟩ : ∃ c, Edit.sweep.run a = .ok 3 c := by rw [same]; exact ⟨_, rfl⟩
    cases run.symm.trans run'
    exact ⟨a, b, wf, sign, run, cleared⟩
  · let a : Arena := ⟨#[some ⟨none, .root ⟨4⟩⟩, none, some ⟨some ⟨4⟩, .symbol "x"⟩,
      some ⟨some ⟨4⟩, .symbol "y"⟩, some ⟨some ⟨0⟩, .sum [⟨2⟩, ⟨3⟩]⟩], ⟨0⟩⟩
    obtain ⟨start, started, tidied⟩ := starts ['x', '+', 'y'] _ ⟨_, _, rfl, rfl⟩
    have started' : ofText ['x', '+', 'y'] = .ok (.ok (ofArena a)) := rfl
    cases started'.symm.trans started
    have refused : (Request.editSelected ['x', '+']).carryOut.run (ofArena a) =
        .ok (.error (.parse ⟨.unexpectedEnd, ⟨2, 2⟩⟩), ofArena (a.plant (.symbol "x"))) := rfl
    have reaches := Reaches.start.step refused
    obtain ⟨done, s', ran, tidied'⟩ :=
      (acts _ _ (.ofText started) reaches).1 ⟨"Unnest", "U", .each Law.unnest⟩
        (by simp [Catalog.builtIn])
    obtain ⟨t, nothing⟩ : ∃ t, (run ⟨"Unnest", "U", .each Law.unnest⟩).run
        (ofArena (a.plant (.symbol "x"))) = .ok (false, t) := ⟨_, rfl⟩
    cases nothing.symm.trans ran
    refine ⟨_, _, started, tidied, reaches, ?_, _, nothing, tidied'⟩
    rintro ⟨⟨xs, read, holds⟩, -⟩
    cases read.symm.trans (show _ = .ok [⟨0⟩, ⟨4⟩, ⟨2⟩, ⟨3⟩] from rfl)
    exact absurd ((holds ⟨5⟩).mpr rfl) (by decide)

end Session

end AlgebraEditor
