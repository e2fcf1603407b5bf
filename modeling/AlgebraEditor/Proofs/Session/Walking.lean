import AlgebraEditor.Proofs.Selection.Walking
import AlgebraEditor.Proofs.Session.Unparsed

/-!
# Growing in a session

However a session has come to select one element, growing from it is a walk: `grow_walks`. What is
remembered from before does not matter, because in a session growing ends with any other move.
-/

namespace AlgebraEditor

open Arena

namespace Grow

variable {a b : Arena} {g : Grow} {s : Selection} {made : Option Selection} {hs : List Handle}
  {anchor moving : Handle}

theorem Spans.retained (spans : Spans a hs anchor moving) (retains : a.Retains b) :
    Spans b hs anchor moving := by
  obtain ⟨p, cs, i, k, holds, rest⟩ := spans
  exact ⟨p, cs, i, k, holds.retained retains, rest⟩

theorem Remembers.retained (remembers : Remembers a g s made) (retains : a.Retains b) :
    Remembers b g s made where
  active := remembers.active
  valid := remembers.valid.shown ⟨retains.root, fun _ => retains.kept _ _⟩
  made := remembers.made
  spans r grown := (remembers.spans r grown).imp_left fun spans => spans.retained retains

end Grow

namespace Session

variable {start s t : Session} {h : Handle} {before : List Direction}

/-- Whatever was asked of a session, what growing remembers is the selection of its last step. -/
theorem Reaches.remembers (reaches : Reaches start s) (sound : start.Sound)
    (resting : start.grow = .inactive) :
    ∃ made, Grow.Remembers s.arena s.grow.begin s.selection made := by
  induction reaches with
  | start =>
    rw [resting]
    exact ⟨none, Grow.remembers_begin sound.valid⟩
  | @step s t request answer reaches run ih =>
    obtain ⟨made, remembers⟩ := ih
    have sound' := reaches.sound sound
    have after := (reaches.step run).sound sound
    rcases grow_of_carryOut sound' run with
      ended | ⟨ts, xs, b, adds, rfl⟩ | ⟨d, grow, selection, stepped, rfl⟩
    · rw [ended]
      exact ⟨none, Grow.remembers_begin after.valid⟩
    · exact ⟨made, remembers.retained adds.retains⟩
    · have remembers' := remembers.step sound'.wf stepped
      exact ⟨_, ⟨rfl, remembers'.valid, remembers'.made, remembers'.spans⟩⟩

/-- Growing in one direction after the other never fails, and keeps to the walk. -/
theorem run_grows (wf : s.arena.WellFormed) (stands : Grow.Stands s.arena h before s.grow s.selection)
    (ds : List Direction) : ∃ s' k after, (ds.mapM growSelection).run s = .ok (ds.map fun _ => .ok (), s') ∧
      s'.arena = s.arena ∧ Grow.Walks s.arena h (before ++ ds) s'.selection.toList ∧
      Grow.Stands s.arena k after s'.grow s'.selection := by
  induction ds generalizing s h before with
  | nil =>
    refine ⟨s, h, before, rfl, rfl, ?_, stands⟩
    rw [List.append_nil]
    exact stands.walks
  | cons d ds ih =>
    obtain ⟨grow, selection, stepped, next⟩ := stands.step wf d
    have run : ∀ {s' answers}, (ds.mapM growSelection).run { s with grow, selection } = .ok (answers, s') →
        ((d :: ds).mapM growSelection).run s = .ok (.ok () :: answers, s') := by
      intro s' answers rest
      rw [List.mapM_cons, SessionStep.run_bind_of_ok (run_growSelection stepped),
        SessionStep.run_bind_of_ok rest]
      rfl
    rcases next with stands' | ⟨p, -, -, stands', goesOn⟩
    · obtain ⟨s', k, after, rest, kept, walks, stands'⟩ :=
        ih (s := { s with grow, selection }) wf stands'
      refine ⟨s', k, after, run rest, kept, ?_, stands'⟩
      rw [List.append_assoc] at walks
      exact walks
    · obtain ⟨s', k, after, rest, kept, walks, stands'⟩ :=
        ih (s := { s with grow, selection }) wf stands'
      exact ⟨s', k, after, run rest, kept, goesOn ds _ walks, stands'⟩

/-- From one selected element growing steps lead along its walk, one by one and without a refusal.
A step to other children is taken back by a step in the other direction. -/
theorem grow_walks (starts : Starts start) (reaches : Reaches start s)
    (alone : s.selection = .single h) (ds : List Direction) :
    ∃ s', (ds.mapM growSelection).run s = .ok (ds.map fun _ => .ok (), s') ∧ s'.arena = s.arena ∧
      (∀ hs, Grow.Walks s.arena h ds hs ↔ s'.selection.toList = hs) ∧
      ∀ d, ∃ s₁ s₂, (growSelection d).run s' = .ok (.ok (), s₁) ∧
        (growSelection d.opposite).run s₁ = .ok (.ok (), s₂) ∧
        (s₁.selection ≠ s'.selection → s.arena.owner? s'.selection.first ≠ some s₁.selection.first →
          s₂.selection = s'.selection) := by
  obtain ⟨sound, resting⟩ := starts.sound
  obtain ⟨wf, -, valid, -⟩ := reaches.sound sound
  obtain ⟨made, remembers⟩ := reaches.remembers sound resting
  have fresh := remembers.ends_fresh (.inr (by rw [alone]; rfl))
  rw [alone] at fresh valid
  have stands : Grow.Stands s.arena h [] s.grow (.single h) :=
    Grow.stands_of_single wf (valid.reached h List.mem_cons_self) fun d => (fresh d).trans (by cases d <;> rfl)
  obtain ⟨s', k, after, run, kept, walks, stands'⟩ := run_grows wf (alone ▸ stands) ds
  refine ⟨s', run, kept, fun hs => ⟨fun other => walks.unique wf other, fun same => same ▸ walks⟩,
    fun d => ?_⟩
  obtain ⟨grow, selection, stepped, next⟩ := stands'.step wf d
  obtain ⟨_, _, later⟩ : ∃ k after, Grow.Stands s.arena k after grow selection := by
    rcases next with later | ⟨p, -, -, later, -⟩ <;> exact ⟨_, _, later⟩
  obtain ⟨grow', selection', stepped', -⟩ := later.step wf d.opposite
  rw [← kept] at stepped stepped'
  refine ⟨_, _, run_growSelection stepped,
    run_growSelection (s := { s' with grow, selection }) stepped', fun moved beside => ?_⟩
  rw [kept] at stepped stepped'
  obtain ⟨_, returned⟩ := stands'.back wf stepped moved beside
  cases returned.symm.trans stepped'
  rfl

theorem starts_fourTerms : Starts (ofArena Grow.fourTerms) := by
  have stored : zero.get? ⟨0⟩ = some ⟨none, .root ⟨1⟩⟩ := rfl
  have member : (⟨1⟩ : Handle) ∈ [(⟨1⟩ : Handle)] := List.mem_singleton_self _
  have filled := filled_zero.plant_replaced
    (t := .sum [.symbol "a", .symbol "b", .symbol "c", .symbol "d"]) wellFormed_zero stored member
    (by decide) (by decide)
  exact .ofArena Grow.wellFormed_fourTerms filled

/-- From `b` in `a + b + c + d` two steps forwards and three steps back select `a + b`. -/
theorem grow_walks_of_terms : ∃ s s', Reaches (ofArena Grow.fourTerms) s ∧ s.selection = .single ⟨4⟩ ∧
    ([.next, .next, .previous, .previous, .previous].mapM growSelection).run s =
      .ok ([.ok (), .ok (), .ok (), .ok (), .ok ()], s') ∧ s'.selection = ⟨⟨3⟩, [⟨4⟩]⟩ := by
  have selected : (Request.select [⟨4⟩]).carryOut.run (ofArena Grow.fourTerms) =
      .ok (.ok (), ⟨Grow.fourTerms, .single ⟨4⟩, .inactive⟩) := rfl
  have reaches := Reaches.start.step selected
  obtain ⟨s', run, -, walks, -⟩ := grow_walks starts_fourTerms reaches rfl
    [.next, .next, .previous, .previous, .previous]
  have holds : Grow.fourTerms.Holds ⟨2⟩ [⟨3⟩, ⟨4⟩, ⟨5⟩, ⟨6⟩] :=
    ⟨.child .root (n := ⟨none, .root ⟨2⟩⟩) rfl (List.mem_singleton_self _), _, rfl, rfl⟩
  have walked : Grow.Walks Grow.fourTerms ⟨4⟩ [.next, .next, .previous, .previous, .previous]
      [⟨3⟩, ⟨4⟩] := by
    refine .among (i := 1) holds rfl fun earlier part => ?_
    rw [← List.mem_inits] at part
    revert earlier
    decide
  exact ⟨_, s', reaches, rfl, run, Selection.eq_of_toList ((walks _).mp walked)⟩

end Session

end AlgebraEditor
