import AlgebraEditor.Proofs.Renaming.Laws
import AlgebraEditor.Proofs.Renaming.Parsing
import AlgebraEditor.Proofs.Renaming.Selecting
import AlgebraEditor.Proofs.Session.Memory

/-!
# Sessions under other names

Two sessions are alike if they hold, select and remember the same but for the names of the elements.
A request carried out in both of them, with its handles under the other names in the second one, gets
the same answer and leaves them alike.
-/

namespace AlgebraEditor

open Function (Injective)

variable {f : Handle → Handle}

theorem ElementRule.replaceBy_follows (inj : Injective f) (new : Handle) :
    ElementRule.Follows f (.replaceBy new) (.replaceBy (f new)) := by
  intro h
  refine (Edit.Follows.parentOf h).bind fun parent => ?_
  cases parent with
  | none => exact (Edit.Follows.setContent inj new).discarded.bind fun _ => .pure rfl
  | some p => exact (Edit.Follows.replace inj p h new).bind fun _ => .pure rfl

/-- The second session holds, selects and remembers what the first one does, under other names. -/
structure Session.Alike (f : Handle → Handle) (s s' : Session) : Prop where
  arena : s.arena.Embeds f s'.arena
  selection : s'.selection = s.selection.rename f
  grow : s'.grow = s.grow.rename f

namespace SessionStep

open Session

/-- Whenever the one step goes through, the other one does so in every session that is alike, with
the same answer, translated, and leaves the sessions alike. -/
def Follows {α β : Type} (f : Handle → Handle) (g : α → β) (x : SessionStep α)
    (y : SessionStep β) : Prop :=
  ∀ s s' r t, Alike f s s' → x.run s = .ok (r, t) → ∃ t', y.run s' = .ok (g r, t') ∧ Alike f t t'

namespace Follows

variable {α β γ δ : Type} {g : α → β} {g' : γ → δ} {x : SessionStep α} {y : SessionStep β}

theorem pure {r : α} {r' : β} (same : g r = r') :
    Follows f g (Pure.pure r : SessionStep α) (Pure.pure r' : SessionStep β) := by
  rintro s s' _ _ alike ⟨⟩
  exact ⟨s', by rw [same]; rfl, alike⟩

theorem bind {k : α → SessionStep γ} {k' : β → SessionStep δ} (first : Follows f g x y)
    (rest : ∀ r, Follows f g' (k r) (k' (g r))) : Follows f g' (x >>= k) (y >>= k') := by
  intro s s' r t alike run
  obtain ⟨q, t₁, before, after⟩ := run_bind_eq_ok.mp run
  obtain ⟨t₁', before', alike₁⟩ := first s s' q t₁ alike before
  obtain ⟨t', after', alike'⟩ := rest q t₁ t₁' r t alike₁ after
  exact ⟨t', run_bind_eq_ok.mpr ⟨g q, t₁', before', after'⟩, alike'⟩

theorem map {k : α → γ} {k' : β → δ} (follows : Follows f g x y) (same : ∀ r, g' (k r) = k' (g r)) :
    Follows f g' (k <$> x) (k' <$> y) := by
  rw [map_eq_pure_bind, map_eq_pure_bind]
  exact follows.bind fun r => .pure (same r)

theorem discarded (follows : Follows f g x y) : Follows f id (discard x) (discard y) :=
  follows.map fun _ => rfl

theorem get_bind {k : Session → SessionStep α} {k' : Session → SessionStep β}
    (each : ∀ s s', Alike f s s' → Follows f g (k s) (k' s')) :
    Follows f g (get >>= k) (get >>= k') := by
  intro s s' r t alike run
  exact each s s' alike s s' r t alike run

theorem changed {change change' : Session → Session}
    (same : ∀ s s', Alike f s s' → Alike f (change s) (change' s')) :
    Follows f id (modify change : SessionStep PUnit) (modify change') := by
  rintro s s' _ _ alike ⟨⟩
  exact ⟨_, rfl, same s s' alike⟩

theorem edit {change : Edit α} {change' : Edit β} (follows : Edit.Follows f g change change') :
    Follows f g (Session.edit change) (Session.edit change') := by
  intro s s' r t alike run
  obtain ⟨a, done, rfl⟩ := run_edit_eq_ok.mp run
  obtain ⟨b, done', e⟩ := follows _ _ _ _ alike.arena done
  exact ⟨_, run_edit_of_ok done', e, alike.selection, alike.grow⟩

theorem ask {question question' : Arena → Except Fault α}
    (mirrors : ∀ {a b : Arena}, a.Embeds f b → Mirrors id (question a) (question' b)) :
    Follows f id (Session.ask question) (Session.ask question') := by
  intro s s' r t alike run
  obtain ⟨answer, read, done⟩ := bind_eq_ok.mp run
  cases done
  exact ⟨s', run_ask_of_ok (mirrors alike.arena r read), alike⟩

theorem take {move move' : Session → Select (Grow × Selection)}
    (each : ∀ s s', Alike f s s' →
      Select.Follows (Prod.map (Grow.rename f) (Selection.rename f)) (move s) (move' s')) :
    Follows f id (Session.take move) (Session.take move') := by
  intro s s' r t alike run
  obtain ⟨out, moved, done⟩ := bind_eq_ok.mp run
  have moved' := each s s' alike out moved
  cases out with
  | ok reached =>
    cases done
    exact ⟨_, run_take_of_ok moved', alike.arena, rfl, rfl⟩
  | error e =>
    cases done
    exact ⟨s', run_take_of_error moved', alike⟩

end Follows

end SessionStep

namespace Session

open SessionStep (Follows)

theorem Alike.resting {s s' : Session} (alike : Alike f s s') :
    Alike f { s with grow := .inactive } { s' with grow := .inactive } :=
  ⟨alike.arena, alike.selection, rfl⟩

theorem endGrow_follows : Follows f id endGrow endGrow :=
  .changed fun _ _ alike => alike.resting

theorem selectRoot_follows : Follows f id selectRoot selectRoot := by
  refine endGrow_follows.bind fun _ => .changed fun s s' alike => ⟨alike.arena, ?_, alike.grow⟩
  change Selection.single s'.arena.root = _
  rw [alike.arena.root]
  rfl

theorem take_selection_follows {target target' : Session → Select Selection}
    (each : ∀ s s', Alike f s s' → Select.Follows (Selection.rename f) (target s) (target' s')) :
    Follows f id (take fun s => return (s.grow, ← target s))
      (take fun s => return (s.grow, ← target' s)) := by
  refine .take fun s s' alike => (each s s' alike).bind fun selection => .pure ?_
  rw [alike.grow]
  rfl

theorem move_follows {target target' : Selection → Arena → Select Selection}
    (each : ∀ s {a b : Arena}, a.Embeds f b →
      Select.Follows (Selection.rename f) (target s a) (target' (s.rename f) b)) :
    Follows f id (move target) (move target') := by
  refine endGrow_follows.bind fun _ => take_selection_follows fun s s' alike => ?_
  rw [alike.selection]
  exact each s.selection alike.arena

theorem growSelection_follows (d : Direction) :
    Follows f id (growSelection d) (growSelection d) := by
  refine Follows.bind (.changed fun s s' alike => ⟨alike.arena, alike.selection, ?_⟩) fun _ =>
    .take fun s s' alike => ?_
  · rw [alike.grow]
    rfl
  · rw [alike.grow, alike.selection]
    exact Grow.step_follows alike.arena s.grow s.selection d

/-! ### Changes -/

theorem selectResult_follows (hs : List Handle) :
    Follows f id (selectResult hs) (selectResult (hs.map f)) := by
  have resolved : Follows f id (take fun s => return (s.grow, ← Selection.resolve s.arena hs))
      (take fun s => return (s.grow, ← Selection.resolve s.arena (hs.map f))) :=
    take_selection_follows fun s s' alike => Selection.resolve_follows alike.arena hs
  refine resolved.bind fun answer => ?_
  cases answer with
  | ok => exact .pure rfl
  | error e => exact selectRoot_follows

theorem tidy_follows : Follows f id tidy tidy := by
  have swept : Follows f id (discard (edit Edit.sweep)) (discard (edit Edit.sweep)) := by
    intro s s' r t alike run
    obtain ⟨⟨count, t₁⟩, swept, done⟩ := bind_eq_ok.mp run
    cases done
    obtain ⟨a, removed, rfl⟩ := SessionStep.run_edit_eq_ok.mp swept
    obtain ⟨count', b, removed', e⟩ := Edit.sweep_embeds alike.arena removed
    exact ⟨_, SessionStep.run_discard (SessionStep.run_edit_of_ok removed'), e, alike.selection,
      alike.grow⟩
  exact swept.bind fun _ => .ask fun e => e.audit

theorem run_follows {action action' : Action} (follows : Action.Follows f action action') :
    Follows f id (run action) (run action') := by
  refine endGrow_follows.bind fun _ => .get_bind fun s s' alike => ?_
  rw [alike.selection]
  refine (Follows.edit (follows s.selection.toList)).bind fun result => ?_
  cases result with
  | none => exact tidy_follows.bind fun _ => .pure rfl
  | some hs => exact (selectResult_follows hs).bind fun _ => tidy_follows.bind fun _ => .pure rfl

theorem runKey_follows (inj : Injective f) (key : String) :
    Follows f id (runKey key) (runKey key) := by
  unfold runKey
  cases found : Catalog.builtIn.find? key with
  | none => exact .pure rfl
  | some action =>
    have lawful := Action.ofLaw_of_builtIn (List.mem_of_find?_eq_some found)
    exact (run_follows (Action.lawful_follows inj lawful)).map fun _ => rfl

theorem editSelected_follows (inj : Injective f) (text : List Char) :
    Follows f id (editSelected text) (editSelected text) := by
  refine (Follows.edit (Edit.Follows.plantText inj text)).bind fun planted => ?_
  cases planted with
  | error e => exact .pure rfl
  | ok new =>
    have replaced : Action.Follows f ⟨"Edit as text", "Enter", .only (.replaceBy new)⟩
        ⟨"Edit as text", "Enter", .only (.replaceBy (f new))⟩ :=
      Action.only_follows (ElementRule.replaceBy_follows inj new)
    exact (run_follows replaced).bind fun _ => .pure rfl

theorem setExpression_follows (inj : Injective f) (text : List Char) :
    Follows f id (setExpression text) (setExpression text) := by
  refine (Follows.edit (Edit.Follows.plantText inj text)).bind fun planted => ?_
  cases planted with
  | error e => exact .pure rfl
  | ok new =>
    refine (Follows.edit (Edit.Follows.setContent inj new)).discarded.bind fun _ => ?_
    exact selectRoot_follows.bind fun _ => tidy_follows.bind fun _ => .pure rfl

end Session

end AlgebraEditor
