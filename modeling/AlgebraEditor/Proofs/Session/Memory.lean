import AlgebraEditor.Proofs.Arena.Ownership
import AlgebraEditor.Proofs.Session.Focus

/-!
# What growing remembers

Every request but growing itself, a text that does not parse and a key that is bound to nothing ends
growing. So whatever growing remembers stands at a place of the arena, even if it is no longer
selected.
-/

namespace AlgebraEditor

open Arena

namespace Select

variable {α β : Type}

theorem run_bind_eq_ok {x : Select α} {k : α → Select β} {y : β} :
    (x >>= k).run = .ok (.ok y) ↔ ∃ z, x.run = .ok (.ok z) ∧ (k z).run = .ok (.ok y) := by
  rw [ExceptT.run_bind, bind_eq_ok]
  constructor
  · rintro ⟨out, read, later⟩
    cases out with
    | ok z => exact ⟨z, read, later⟩
    | error e => cases later
  · rintro ⟨z, read, later⟩
    exact ⟨.ok z, read, later⟩

theorem run_lift_bind_eq_ok {m : Except Fault α} {k : α → Select β} {y : β} :
    ((liftM m : Select α) >>= k).run = .ok (.ok y) ↔ ∃ z, m = .ok z ∧ (k z).run = .ok (.ok y) := by
  cases m with
  | ok z => exact ⟨fun run => ⟨z, rfl, run⟩, fun ⟨_, same, run⟩ => by cases same; exact run⟩
  | error e => exact ⟨nofun, fun ⟨_, same, _⟩ => nomatch same⟩

end Select

namespace SessionStep

open Session

variable {α β : Type} {x : SessionStep α} {s t : Session} {r : α}

theorem run_bind_eq_ok {k : α → SessionStep β} {y : β} :
    (x >>= k).run s = .ok (y, t) ↔ ∃ z u, x.run s = .ok (z, u) ∧ (k z).run u = .ok (y, t) := by
  rw [StateT.run_bind, bind_eq_ok, Prod.exists]

theorem run_edit_eq_ok {change : Edit α} :
    (edit change).run s = .ok (r, t) ↔
      ∃ a, change.run s.arena = .ok r a ∧ t = { s with arena := a } := by
  cases done : change.run s.arena with
  | ok r₁ a =>
    rw [run_edit_of_ok done]
    simp [eq_comm]
  | error fault a =>
    have refused : (edit change).run s = .error fault := by
      unfold edit StateT.run
      dsimp only
      rw [show EStateM.run change s.arena = _ from done]
    simp [refused]

theorem run_map_eq_ok {f : α → β} {y : β} :
    (f <$> x).run s = .ok (y, t) ↔ ∃ r, x.run s = .ok (r, t) ∧ f r = y := by
  rw [StateT.run_map]
  cases x.run s with
  | error fault => exact ⟨nofun, fun ⟨_, same, _⟩ => nomatch same⟩
  | ok out =>
    constructor
    · rintro ⟨⟩
      exact ⟨_, rfl, rfl⟩
    · rintro ⟨_, ⟨⟩, rfl⟩
      rfl

end SessionStep

/-! ### What is remembered -/

namespace Grow

variable {a : Arena} {g g' : Grow} {s s' : Selection} {d : Direction} {places places' : Nat}

/-- What growing remembers stands at one of the first places. -/
def Within (g : Grow) (places : Nat) : Prop :=
  ∀ r, g.run = some r → ∀ h ∈ r.anchor :: r.moving :: r.selected, h.index < places

theorem within_inactive (places : Nat) : Within .inactive places := nofun

theorem Within.mono (within : g.Within places) (more : places ≤ places') : g.Within places' :=
  fun r grown h member => (within r grown h member).trans_le more

theorem run_of_step (stepped : (g.step s a d).run = .ok (.ok (g', s'))) :
    g' = g ∨ ∃ moved, Selection.sibling? a (g.ends s d).2 d = .ok (some moved) ∧
      g'.run = some ⟨(g.ends s d).1, moved, s'.toList⟩ := by
  unfold step at stepped
  split at stepped
  case isTrue =>
    obtain ⟨_, _, done⟩ := Select.run_bind_eq_ok.mp stepped
    cases done
    exact .inl rfl
  case isFalse =>
    obtain ⟨found, sibling, rest⟩ := Select.run_lift_bind_eq_ok.mp stepped
    cases found with
    | none =>
      cases rest
      exact .inl rfl
    | some moved =>
      refine .inr ⟨moved, sibling, ?_⟩
      obtain ⟨parent, -, rest⟩ := Select.run_lift_bind_eq_ok.mp rest
      cases parent with
      | none => cases rest
      | some p =>
        obtain ⟨siblings, -, rest⟩ := Select.run_lift_bind_eq_ok.mp rest
        dsimp only at rest
        split at rest
        case h_1 =>
          obtain ⟨grown, -, done⟩ := Select.run_bind_eq_ok.mp rest
          cases done
          rfl
        case h_2 => cases rest

theorem Within.step (within : g.Within a.places.size) (wf : a.WellFormed) (valid : s.Valid a)
    (sound : g.Sound a) (stepped : (g.step s a d).run = .ok (.ok (g', s'))) :
    g'.Within a.places.size := by
  obtain ⟨_, _, total, valid', -⟩ := step_total wf valid sound d
  cases total.symm.trans stepped
  rcases run_of_step stepped with rfl | ⟨moved, sibling, grown⟩
  · exact within
  -- the anchor was selected, the moving end is a sibling, and the rest is the new selection
  obtain ⟨selected, ⟨n, stored⟩, -⟩ := ends_siblings sound wf valid d
  obtain ⟨_, read, owned⟩ := Selection.sibling?_total wf stored d
  cases read.symm.trans sibling
  obtain ⟨p, -, owned⟩ := owned moved rfl
  obtain ⟨m, held⟩ := stored_of_owner? owned
  have reached : ∀ t : Selection, t.Valid a → ∀ h ∈ t.toList, h.index < a.places.size := by
    intro t valid h member
    obtain ⟨n, stored⟩ := (valid.reached h member).stored wf
    exact index_lt_of_get? stored
  intro r same
  cases grown.symm.trans same
  refine List.forall_mem_cons.mpr ⟨reached s valid _ selected, ?_⟩
  exact List.forall_mem_cons.mpr ⟨index_lt_of_get? held, reached s' valid'⟩

end Grow

/-! ### Requests that end growing -/

namespace Session

variable {α β : Type} {x : SessionStep α} {k : α → SessionStep β} {s t : Session} {text : List Char}

/-- Once growing has ended, it stays so. -/
def Rests (x : SessionStep α) : Prop :=
  ∀ s r t, s.grow = .inactive → x.run s = .ok (r, t) → t.grow = .inactive

/-- Whatever was grown before, growing has ended afterwards. -/
def Quits (x : SessionStep α) : Prop := ∀ s r t, x.run s = .ok (r, t) → t.grow = .inactive

theorem Quits.rests (quits : Quits x) : Rests x := fun s r t _ run => quits s r t run

theorem rests_pure (r : α) : Rests (pure r) := by
  rintro s _ _ resting ⟨⟩
  exact resting

theorem Rests.bind (first : Rests x) (rest : ∀ r, Rests (k r)) : Rests (x >>= k) := by
  intro s r t resting run
  obtain ⟨q, u, before, after⟩ := SessionStep.run_bind_eq_ok.mp run
  exact rest q u r t (first s q u resting before) after

theorem Quits.bind (first : Quits x) (rest : ∀ r, Rests (k r)) : Quits (x >>= k) := by
  intro s r t run
  obtain ⟨q, u, before, after⟩ := SessionStep.run_bind_eq_ok.mp run
  exact rest q u r t (first s q u before) after

theorem quits_of_bind (rest : ∀ r, Quits (k r)) : Quits (x >>= k) := by
  intro s r t run
  obtain ⟨q, u, before, after⟩ := SessionStep.run_bind_eq_ok.mp run
  exact rest q u r t after

theorem Quits.map {f : α → β} (quits : Quits x) : Quits (f <$> x) := by
  rw [map_eq_pure_bind]
  exact quits.bind fun r => rests_pure (f r)

theorem rests_get : Rests get := by
  rintro s _ _ resting ⟨⟩
  exact resting

theorem rests_edit (change : Edit α) : Rests (edit change) := by
  intro s r t resting run
  obtain ⟨a, -, rfl⟩ := SessionStep.run_edit_eq_ok.mp run
  exact resting

theorem rests_ask (question : Arena → Except Fault α) : Rests (ask question) := by
  intro s r t resting run
  obtain ⟨_, _, done⟩ := bind_eq_ok.mp run
  cases done
  exact resting

theorem rests_take (target : Session → Select Selection) :
    Rests (take fun s => return (s.grow, ← target s)) := by
  intro s r t resting run
  obtain ⟨out, moved, done⟩ := bind_eq_ok.mp run
  cases out with
  | error e =>
    cases done
    exact resting
  | ok reached =>
    cases done
    obtain ⟨_, _, same⟩ := Select.run_bind_eq_ok.mp moved
    cases same
    exact resting

theorem quits_endGrow : Quits endGrow := by
  rintro s _ _ ⟨⟩
  rfl

theorem quits_selectRoot : Quits selectRoot := by
  rintro s _ _ ⟨⟩
  rfl

theorem quits_move (target : Selection → Arena → Select Selection) : Quits (move target) :=
  quits_endGrow.bind fun _ => rests_take fun s => target s.selection s.arena

theorem rests_selectResult (hs : List Handle) : Rests (selectResult hs) := by
  refine (rests_take fun s => Selection.resolve s.arena hs).bind fun answer => ?_
  cases answer with
  | ok => exact rests_pure _
  | error => exact quits_selectRoot.rests

theorem rests_tidy : Rests tidy := by
  have swept : Rests (discard (edit Edit.sweep)) := (rests_edit _).bind fun _ => rests_pure _
  exact swept.bind fun _ => rests_ask _

theorem quits_run (action : Action) : Quits (run action) := by
  refine quits_endGrow.bind fun _ => rests_get.bind fun s => ?_
  refine (rests_edit (action.run s.selection.toList)).bind fun result => ?_
  cases result with
  | none => exact rests_tidy.bind fun _ => rests_pure _
  | some hs => exact (rests_selectResult hs).bind fun _ => rests_tidy.bind fun _ => rests_pure _

/-- A text ends growing if it is accepted, and otherwise only adds what it leaves behind. -/
theorem inactive_or_added {k : Except Formula.ParseError Handle → SessionStep α} {r : α}
    (sound : s.Sound) (run : (edit (Edit.plantText text) >>= k).run s = .ok (r, t))
    (accepts : ∀ new, Quits (k (.ok new))) (refuses : ∀ e, ∃ r, k (.error e) = pure r) :
    t.grow = .inactive ∨ ∃ ts xs b, s.arena.Adds ts xs b ∧ t = { s with arena := b } := by
  obtain ⟨answer, ts, xs, b, read, adds⟩ := Edit.plantText_total sound.wf text
  rw [SessionStep.run_bind_of_ok (SessionStep.run_edit_of_ok read)] at run
  cases answer with
  | ok new => exact .inl (accepts _ _ _ _ run)
  | error e =>
    obtain ⟨r, same⟩ := refuses e
    rw [same] at run
    cases run
    exact .inr ⟨ts, xs, b, adds.toAdds, rfl⟩

/-- A request ends growing, makes a growing step, or only adds what a refused text leaves behind. -/
theorem grow_of_carryOut (sound : s.Sound) {request : Request} {answer : Except Refusal Unit}
    (run : request.carryOut.run s = .ok (answer, t)) :
    t.grow = .inactive ∨ (∃ ts xs b, s.arena.Adds ts xs b ∧ t = { s with arena := b }) ∨
      ∃ d grow selection, (s.grow.begin.step s.selection s.arena d).run = .ok (.ok (grow, selection)) ∧
        t = { s with grow, selection } := by
  cases request with
  | select | selectParent | selectChild | selectSibling | selectOutermostSibling =>
    obtain ⟨r, run, -⟩ := SessionStep.run_map_eq_ok.mp run
    exact .inl (quits_move _ s r t run)
  | grow d =>
    have begun : s.grow.begin.Sound s.arena := sound.grows
    obtain ⟨grow, selection, stepped, -, -⟩ := Grow.step_total sound.wf sound.valid begun d
    obtain ⟨r, run, -⟩ := SessionStep.run_map_eq_ok.mp run
    cases (run_growSelection stepped).symm.trans run
    exact .inr (.inr ⟨d, grow, selection, stepped, rfl⟩)
  | runKey key =>
    obtain ⟨r, run, -⟩ := SessionStep.run_map_eq_ok.mp run
    unfold Session.runKey at run
    split at run
    case h_1 =>
      cases run
      exact .inr (.inl ⟨[], [], s.arena, .refl sound.wf, rfl⟩)
    case h_2 action _ => exact .inl ((quits_run action).map s r t run)
  | editSelected text =>
    obtain ⟨r, run, -⟩ := SessionStep.run_map_eq_ok.mp run
    unfold Session.editSelected at run
    refine (inactive_or_added sound run (fun new => ?_) fun e => ⟨_, rfl⟩).imp_right .inl
    exact (quits_run _).bind fun _ => rests_pure _
  | setExpression text =>
    obtain ⟨r, run, -⟩ := SessionStep.run_map_eq_ok.mp run
    unfold Session.setExpression at run
    refine (inactive_or_added sound run (fun new => ?_) fun e => ⟨_, rfl⟩).imp_right .inl
    exact quits_of_bind fun _ => quits_selectRoot.bind fun _ => rests_tidy.bind fun _ => rests_pure _

theorem within_of_carryOut (sound : s.Sound) (within : s.grow.Within s.arena.places.size)
    {request : Request} {answer : Except Refusal Unit}
    (run : request.carryOut.run s = .ok (answer, t)) : t.grow.Within t.arena.places.size := by
  rcases grow_of_carryOut sound run with
    ended | ⟨ts, xs, b, adds, rfl⟩ | ⟨d, grow, selection, stepped, rfl⟩
  · rw [ended]
    exact Grow.within_inactive _
  · exact within.mono adds.room
  · have begun : s.grow.begin.Sound s.arena := sound.grows
    exact Grow.Within.step (g := s.grow.begin) within sound.wf sound.valid begun stepped

theorem Reaches.within {start : Session} (reaches : Reaches start s) (sound : start.Sound)
    (within : start.grow.Within start.arena.places.size) : s.grow.Within s.arena.places.size := by
  induction reaches with
  | start => exact within
  | step before run ih => exact within_of_carryOut (before.sound sound) ih run

end Session

end AlgebraEditor
