import AlgebraEditor.Proofs.Formula.RoundTrip
import AlgebraEditor.Proofs.Law.Naming
import AlgebraEditor.Proofs.Session.Memory

/-!
# Names in sessions

A session on a text has only symbols of one letter, and no request brings in any other. So whatever
is in its expression is in normal form, and can be read back from its text.
-/

namespace AlgebraEditor

open Arena

/-- The names that a text can write. -/
def Formula.IsName (name : String) : Prop := ∃ c, name = String.ofList [c] ∧ Formula.IsLetter c

variable {P : String → Prop} {a b : Arena} {h p : Handle} {n : Node} {t : Term}

theorem Term.Named.isNormal (named : t.Named Formula.IsName) (unwrapped : t.Unwrapped)
    (filled : t.All Term.Filled) : t.IsNormal := by
  induction t using Term.induction with
  | step t ih =>
    refine .mk ⟨unwrapped.self, filled.self, named.self⟩ fun u member => ?_
    exact ih u member (named.child member) (unwrapped.child member) (filled.child member)

/-- What is owned in an arena without short lists is in normal form, if all symbols are. -/
theorem Arena.Named.isNormal (named : a.Named Formula.IsName) (wf : a.WellFormed)
    (filled : a.Filled ∅) (owned : a.owner? h = some p) : (a.denote h).IsNormal := by
  obtain ⟨n, stored⟩ := stored_of_owner? owned
  exact (named.denote wf stored).isNormal (wf.throughout_unwrapped owned)
    (wf.throughout_filled filled owned)

theorem Term.IsNormal.unwrap_eq (normal : t.IsNormal) : t.unwrap = t := by
  cases t with
  | root => exact absurd rfl normal.self.unwrapped
  | _ => rfl

theorem Arena.Named.isNormalAt (named : a.Named Formula.IsName) (wf : a.WellFormed)
    (filled : a.Filled ∅) (reached : a.Reachable h) : a.IsNormalAt h := by
  obtain ⟨n, stored⟩ := reached.stored wf
  refine ⟨_, wf.term_eq_ok stored, ?_⟩
  by_cases wrapper : h = a.root
  · subst wrapper
    obtain ⟨c, held⟩ := wf.wrapper
    rw [wf.denote_eq held]
    exact named.isNormal wf filled (wf.records held c (List.mem_singleton_self c))
  · obtain ⟨p, owned⟩ := reached.owned wf wrapper
    have normal := named.isNormal wf filled owned
    rwa [normal.unwrap_eq]

/-- What is added in normal form brings in no other names. -/
theorem Arena.AddsNormal.named {ts : List Term} {xs : List Handle} (adds : a.AddsNormal ts xs b)
    (wf : a.WellFormed) (named : a.Named Formula.IsName) : b.Named Formula.IsName := by
  intro h n name found same
  cases old : a.get? h with
  | some m =>
    obtain rfl := Option.some.inj ((adds.stored old).symm.trans found)
    exact named h m name old same
  | none =>
    have normal := adds.isNormal wf old found
    rw [same] at normal
    exact normal

theorem Edit.plantText_named {text : List Char} {r : Except Formula.ParseError Handle}
    (wf : a.WellFormed) (named : a.Named Formula.IsName) (run : (plantText text).run a = .ok r b) :
    b.Named Formula.IsName := by
  obtain ⟨_, _, _, d, run', adds⟩ := plantText_total wf text
  cases run.symm.trans run'
  exact adds.named wf named

theorem ElementRule.replaceBy_keepsNames (new h : Handle) :
    (ElementRule.replaceBy new h).KeepsNames P := by
  unfold ElementRule.replaceBy
  refine .bind (.parentOf h) fun owner => ?_
  cases owner with
  | none => exact .bind (.discard (.setContent new)) fun _ => .pure _
  | some parent => exact .bind (.replace parent h new) fun _ => .pure _

namespace SessionStep

variable {α β : Type} {x : SessionStep α} {f : α → SessionStep β}

/-- If the step goes through, what held of all names in the session still does. -/
def KeepsNames (P : String → Prop) (x : SessionStep α) : Prop :=
  ∀ s r t, s.arena.Named P → x.run s = .ok (r, t) → t.arena.Named P

namespace KeepsNames

theorem pure (r : α) : KeepsNames P (Pure.pure r : SessionStep α) := by
  rintro s _ _ named ⟨⟩
  exact named

theorem bind (first : x.KeepsNames P) (rest : ∀ r, (f r).KeepsNames P) :
    (x >>= f).KeepsNames P := by
  intro s r t named run
  obtain ⟨q, u, before, after⟩ := run_bind_eq_ok.mp run
  exact rest q u r t (first s q u named before) after

theorem map {f : α → β} (keeps : x.KeepsNames P) : (f <$> x).KeepsNames P := by
  rw [map_eq_pure_bind]
  exact keeps.bind fun r => pure (f r)

theorem edit {change : Edit α} (keeps : change.KeepsNames P) :
    (Session.edit change).KeepsNames P := by
  intro s r t named run
  obtain ⟨a, changed, rfl⟩ := run_edit_eq_ok.mp run
  exact keeps s.arena r a named changed

theorem ask (question : Arena → Except Fault α) : (Session.ask question).KeepsNames P := by
  intro s r t named run
  obtain ⟨_, _, done⟩ := bind_eq_ok.mp run
  cases done
  exact named

theorem take (move : Session → Select (Grow × Selection)) : (Session.take move).KeepsNames P := by
  intro s r t named run
  obtain ⟨out, _, done⟩ := bind_eq_ok.mp run
  cases out with
  | ok moved =>
    cases done
    exact named
  | error e =>
    cases done
    exact named

theorem get : (MonadState.get : SessionStep Session).KeepsNames P := by
  rintro s _ _ named ⟨⟩
  exact named

theorem changed {change : Session → Session} (same : ∀ s, (change s).arena = s.arena) :
    (modify change : SessionStep PUnit).KeepsNames P := by
  rintro s _ _ named ⟨⟩
  exact same s ▸ named

open Session

theorem endGrow : endGrow.KeepsNames P := changed fun _ => rfl

theorem selectRoot : selectRoot.KeepsNames P := endGrow.bind fun _ => changed fun _ => rfl

theorem move (target : Selection → Arena → Select Selection) : (move target).KeepsNames P :=
  endGrow.bind fun _ => take _

theorem growSelection (d : Direction) : (growSelection d).KeepsNames P := by
  refine bind ?_ fun _ => take _
  exact changed fun _ => rfl

theorem selectResult (hs : List Handle) : (selectResult hs).KeepsNames P := by
  refine (take _).bind fun answer => ?_
  cases answer with
  | ok => exact pure _
  | error => exact selectRoot

theorem tidy : tidy.KeepsNames P :=
  ((edit .sweep).bind fun _ => pure ()).bind fun _ => ask _

theorem run {action : Action} (keeps : ∀ hs, (action.run hs).KeepsNames P) :
    (run action).KeepsNames P := by
  refine endGrow.bind fun _ => get.bind fun s => (edit (keeps s.selection.toList)).bind fun r => ?_
  cases r with
  | none => exact tidy.bind fun _ => pure _
  | some hs => exact (selectResult hs).bind fun _ => tidy.bind fun _ => pure _

theorem runKey (key : String) : (runKey key).KeepsNames P := by
  unfold Session.runKey
  split
  case h_1 => exact pure none
  case h_2 action found =>
    have member := List.mem_of_find?_eq_some found
    exact (run fun hs => Action.run_keepsNames (Action.ofLaw_of_builtIn member) hs).map

end KeepsNames

end SessionStep

namespace Session

open SessionStep (KeepsNames)

variable {start s t : Session} {text : List Char}

/-- A text brings in names that can be written, and what is done with it brings in no others. -/
theorem named_of_plantText {α : Type} {k : Except Formula.ParseError Handle → SessionStep α} {r : α}
    (wf : s.arena.WellFormed) (named : s.arena.Named Formula.IsName)
    (rest : ∀ answer, (k answer).KeepsNames Formula.IsName)
    (run : (edit (Edit.plantText text) >>= k).run s = .ok (r, t)) :
    t.arena.Named Formula.IsName := by
  obtain ⟨answer, u, read, run⟩ := SessionStep.run_bind_eq_ok.mp run
  obtain ⟨b, planted, rfl⟩ := SessionStep.run_edit_eq_ok.mp read
  exact rest answer _ _ _ (Edit.plantText_named wf named planted) run

theorem editSelected_named {r : Except Formula.ParseError Bool} (wf : s.arena.WellFormed)
    (named : s.arena.Named Formula.IsName) (run : (editSelected text).run s = .ok (r, t)) :
    t.arena.Named Formula.IsName := by
  refine named_of_plantText wf named (fun answer => ?_) run
  cases answer with
  | error e => exact .pure _
  | ok new =>
    refine (KeepsNames.run fun hs => ?_).bind fun _ => .pure _
    match hs with
    | [] | _ :: _ :: _ => exact .pure _
    | [h] => exact ElementRule.replaceBy_keepsNames new h

theorem setExpression_named {r : Except Formula.ParseError Unit} (wf : s.arena.WellFormed)
    (named : s.arena.Named Formula.IsName) (run : (setExpression text).run s = .ok (r, t)) :
    t.arena.Named Formula.IsName := by
  refine named_of_plantText wf named (fun answer => ?_) run
  cases answer with
  | error e => exact .pure _
  | ok new =>
    refine ((KeepsNames.edit (.setContent new)).bind fun _ => .pure ()).bind fun _ => ?_
    exact KeepsNames.selectRoot.bind fun _ => KeepsNames.tidy.bind fun _ => .pure _

theorem carryOut_named {request : Request} {answer : Except Refusal Unit}
    (wf : s.arena.WellFormed) (named : s.arena.Named Formula.IsName)
    (run : request.carryOut.run s = .ok (answer, t)) : t.arena.Named Formula.IsName := by
  cases request with
  | select | selectParent | selectChild | selectSibling | selectOutermostSibling =>
    exact (KeepsNames.move _).map _ _ _ named run
  | grow d => exact (KeepsNames.growSelection d).map _ _ _ named run
  | runKey key => exact (KeepsNames.runKey key).map _ _ _ named run
  | editSelected text =>
    obtain ⟨_, run, -⟩ := SessionStep.run_map_eq_ok.mp run
    exact editSelected_named wf named run
  | setExpression text =>
    obtain ⟨_, run, -⟩ := SessionStep.run_map_eq_ok.mp run
    exact setExpression_named wf named run

theorem Reaches.named (reaches : Reaches start s) (sound : start.Sound)
    (named : start.arena.Named Formula.IsName) : s.arena.Named Formula.IsName := by
  induction reaches with
  | start => exact named
  | step before run ih => exact carryOut_named (before.sound sound).wf ih run

theorem named_ofText (started : ofText text = .ok (.ok s)) : s.arena.Named Formula.IsName := by
  obtain ⟨a, run, rfl⟩ := ofText_eq_ok started
  obtain ⟨answer, b, read, rest⟩ := Edit.run_bind_eq_ok.mp run
  have named := Edit.plantText_named wellFormed_zero (named_zero _) read
  cases answer with
  | error e => cases rest
  | ok new =>
    have keeps : Edit.KeepsNames Formula.IsName (do
        discard (Edit.setContent new)
        discard Edit.sweep
        return (.ok () : Except Formula.ParseError Unit)) :=
      .bind (.discard (.setContent new)) fun _ => .bind (.discard .sweep) fun _ => .pure _
    exact keeps b _ a named rest

end Session

end AlgebraEditor
