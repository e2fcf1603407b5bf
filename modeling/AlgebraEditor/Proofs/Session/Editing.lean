import AlgebraEditor.Proofs.Arena.Substituting
import AlgebraEditor.Proofs.Formula.RoundTrip
import AlgebraEditor.Proofs.Session.Naming
import AlgebraEditor.Proofs.Session.Unparsed

/-!
# Editing as text

An accepted text takes the place of the one element that is selected, and nothing around it changes.
The text of the element itself leaves the expression what it was.
-/

namespace AlgebraEditor

open Arena

namespace Arena

variable {a b d : Arena} {c e h p r x : Handle} {n m : Node} {t : Term} {slots : List Nat}

/-! ### What has been replaced -/

/-- In the second arena the new element `r`, which is read as `t`, has taken the place of `e`. The
rest of the expression is what it was: every element outside of `e` has the parent and the children
it had, but for `r` in the slot of `e`. -/
structure Replaced (a : Arena) (e : Handle) (t : Term) (r : Handle) (b : Arena) : Prop where
  root : b.root = a.root
  new : a.get? r = none
  reads : b.term r = .ok t
  content : ∃ c u slots d, a.content = .ok c ∧ a.term c = .ok u ∧ a.At (0 :: slots) e ∧
    b.content = .ok d ∧ b.term d = .ok (u.replaceAt slots t)
  kept : ∀ x n, a.Reachable x → ¬ a.Encloses e x → a.get? x = some n →
    b.get? x = some ⟨n.parent, n.element.replaceChild e r⟩

theorem Superseded.replaced (superseded : a.Superseded p e t r b) (wf : a.WellFormed)
    (owned : a.owner? e = some p) (reached : a.Reachable e) (swept : b.Swept d) :
    a.Replaced e t r d := by
  have spliced := superseded.spliced wf owned
  have wf' := swept.wf spliced.wf
  -- what is reachable before sweeping is read as before
  have reads : ∀ {x}, b.Reachable x → d.term x = .ok (b.denote x) := by
    intro x reached
    obtain ⟨n, stored⟩ := reached.stored spliced.wf
    rw [wf'.term_eq_ok (swept.shows.kept reached stored),
      swept.shows.denote_eq spliced.wf wf' reached]
  refine ⟨swept.root.trans spliced.root, superseded.fresh, ?_, ?_,
    fun x n reached outside stored => ?_⟩
  · rw [reads, superseded.denotes]
    have around := spliced.reachable wf (reached.owner wf owned) (wf.not_encloses_owner owned)
    exact around.step spliced.wf (spliced.owner?_slot wf (List.mem_singleton_self r))
  · obtain ⟨c, n, content, stored⟩ := wf.exists_content
    obtain ⟨m, held⟩ := wf.stored_content content
    obtain ⟨slots, place⟩ := reached.at_content wf (wf.ne_root_of_owner? owned)
    obtain ⟨path, way⟩ := place.takes_content content
    have owned' := wf.records stored c (mem_children_of_content content stored)
    obtain ⟨s, whole, denotes, -⟩ := way.spliced wf spliced owned'
    have content' := whole.content wf
    obtain ⟨k, found, shape⟩ := content_eq_ok.mp content'
    have member : s ∈ k.element.children := mem_children_of_content content' found
    refine ⟨c, _, slots, s, content, wf.term_eq_ok held, place, ?_, ?_⟩
    · exact content_eq_ok.mpr ⟨k, by rw [swept.root, swept.shows.kept .root found], shape⟩
    · rw [reads (.child .root found member), denotes, superseded.denotes]
  · refine swept.shows.kept (spliced.reachable wf reached outside) ?_
    by_cases container : x = p
    · subst container
      exact superseded.slot stored
    · have absent : e ∉ n.element.children := fun member =>
        container (Option.some.inj ((wf.records stored e member).symm.trans owned))
      rw [Element.replaceChild_of_notMem absent]
      exact superseded.kept stored container fun same => outside (.inl same)

/-- Nothing is different if what has taken the place of an element is read as the element. -/
theorem Replaced.equalAcross (replaced : a.Replaced e (a.denote e) r b) (wf : a.WellFormed)
    (wf' : b.WellFormed) : ∃ c d, a.content = .ok c ∧ b.content = .ok d ∧
      a.equalAcross b c d = .ok true := by
  obtain ⟨c, u, slots, d, content, read, place, content', read'⟩ := replaced.content
  obtain ⟨n, stored⟩ := wf.stored_content content
  obtain ⟨m, held⟩ := wf'.stored_content content'
  obtain ⟨w, around⟩ := Reachable.root.stored wf
  have owned := wf.records around c (mem_children_of_content content around)
  obtain ⟨path, way⟩ := place.takes_content content
  have same := way.replaceAt_self wf owned
  cases (wf.term_eq_ok stored).symm.trans read
  rw [wf'.term_eq_ok held, same] at read'
  refine ⟨c, d, content, content', (wf.equalAcross_eq_true wf' stored held).mpr ?_⟩
  exact (Except.ok.inj read').symm

end Arena

/-- What was added takes the place of the expression at a reachable element. -/
theorem ElementRule.replaceBy_supersedes {a b : Arena} {x r : Handle} {t : Term} (wf : a.WellFormed)
    (reached : a.Reachable x) (adds : a.Adds [t] [r] b) : ∃ e p d, a.expressionAt x = .ok e ∧
      a.Reachable e ∧ a.owner? e = some p ∧
      (ElementRule.replaceBy r x).run b = .ok (some [r]) d ∧ a.Superseded p e t r d := by
  have top := List.mem_singleton_self r
  by_cases wrapper : x = a.root
  · subst wrapper
    obtain ⟨c, n, content, stored⟩ := wf.exists_content
    have member := mem_children_of_content content stored
    exact ⟨c, _, _, (if_pos rfl).trans content, .child .root stored member,
      wf.records stored c member, run_replaceBy_root wf adds top content stored,
      superseded_rewire wf adds stored member⟩
  · obtain ⟨p, owned⟩ := reached.owned wf wrapper
    obtain ⟨m, stored⟩ := wf.stored_of_owner? owned
    exact ⟨x, p, _, if_neg wrapper, reached, owned, run_replaceBy wf adds top owned stored,
      superseded_rewire wf adds stored ((wf.mem_children_iff stored).mpr owned)⟩

namespace Session

variable {start s : Session} {b : Arena} {r x : Handle} {t : Term} {text : List Char}

theorem run_editSelected {done : Bool} {s' : Session}
    (read : (Edit.plantText text).run s.arena = .ok (.ok r) b)
    (ran : (run ⟨"Edit as text", "Enter", .only (.replaceBy r)⟩).run { s with arena := b } =
      .ok (done, s')) : (editSelected text).run s = .ok (.ok done, s') :=
  (SessionStep.run_bind_of_ok (SessionStep.run_edit_of_ok read)).trans
    (SessionStep.run_bind_of_ok ran)

/-- If one element is selected, the text takes its place, and what was read alone is selected. -/
theorem Sound.editSelected_single (sound : s.Sound) (parsed : Formula.parse text = .ok t)
    (single : s.selection.toList = [x]) : ∃ e r s', s.arena.expressionAt x = .ok e ∧
      (editSelected text).run s = .ok (.ok true, s') ∧ s'.selection.toList = [r] ∧
      s.arena.Replaced e t r s'.arena ∧ s'.Sound := by
  obtain ⟨r, b, read, adds⟩ := Edit.run_plantText_of_ok sound.wf parsed
  have reached := sound.valid.reached x (single ▸ List.mem_singleton_self x)
  obtain ⟨e, p, d, expression, inside, owned, replaced, superseded⟩ :=
    ElementRule.replaceBy_supersedes sound.wf reached adds.toAdds
  obtain ⟨_, _, same, -, filled, -⟩ := ElementRule.replaceBy_settles sound.wf sound.filled reached
    adds.toAdds (List.mem_singleton_self r) adds.filled
  cases same.symm.trans replaced
  have spliced := superseded.spliced sound.wf owned
  have around := spliced.reachable sound.wf (inside.owner sound.wf owned)
    (sound.wf.not_encloses_owner owned)
  have placed : d.Reachable r :=
    around.step spliced.wf (spliced.owner?_slot sound.wf (List.mem_singleton_self _))
  have valid : (Selection.single r).Valid d := .single placed
  have changed : (Action.run ⟨"Edit as text", "Enter", .only (.replaceBy r)⟩
      s.selection.toList).run b = .ok (some [r]) d := by
    rw [single]
    exact replaced
  obtain ⟨s', ran, sound', selected, swept⟩ := run_of_some (s := { s with arena := b }) spliced.wf
    filled changed (run_selectResult_of_ok (valid.resolve spliced.wf)) valid
  refine ⟨e, r, s', expression, run_editSelected read ran, ?_,
    superseded.replaced sound.wf owned inside swept, sound'⟩
  rw [selected]
  rfl

/-- If several elements are selected, nothing happens to the expression and the selection. -/
theorem Sound.editSelected_several (sound : s.Sound) (parsed : Formula.parse text = .ok t)
    (several : 2 ≤ s.selection.toList.length) : ∃ s',
      (editSelected text).run s = .ok (.ok false, s') ∧ s'.selection = s.selection ∧
      s.arena.Swept s'.arena := by
  obtain ⟨r, b, read, adds⟩ := Edit.run_plantText_of_ok sound.wf parsed
  have added := sound.adds adds
  have nothing : (Action.run ⟨"Edit as text", "Enter", .only (.replaceBy r)⟩
      s.selection.toList).run b = .ok none b := by
    match s.selection.toList, several with
    | _ :: _ :: _, _ => rfl
  obtain ⟨s', ran, -, selected, swept⟩ := run_of_none added.wf added.filled added.valid nothing
  refine ⟨s', run_editSelected read ran, selected, swept.of_shows sound.wf ⟨adds.root, ?_⟩⟩
  exact fun _ stored => adds.stored stored

/-- If all symbols are letters, the text of the selected element is read as the element. -/
theorem Sound.editSelected_own (sound : s.Sound) (named : s.arena.Named Formula.IsName)
    (single : s.selection.toList = [x]) : ∃ text s' c d, s.arena.write .text x = .ok text ∧
      (editSelected text).run s = .ok (.ok true, s') ∧ s.arena.content = .ok c ∧
      s'.arena.content = .ok d ∧ s.arena.equalAcross s'.arena c d = .ok true := by
  have reached := sound.valid.reached x (single ▸ List.mem_singleton_self x)
  have normal := named.isNormalAt sound.wf sound.filled reached
  obtain ⟨e, n, expression, stored, normal, written⟩ := sound.wf.write_expressionAt normal
  obtain ⟨_, r, s', same, ran, -, replaced, sound'⟩ :=
    sound.editSelected_single (Formula.parse_write normal) single
  cases expression.symm.trans same
  obtain ⟨c, d, content, content', equal⟩ := replaced.equalAcross sound.wf sound'.wf
  exact ⟨_, s', c, d, written, ran, content, content', equal⟩

/-- However a session was used, an accepted text takes the place of the element that is selected,
and of nothing else, and what was read is selected. If several elements are selected, the expression
and the selection stay as they are. The text of the selected element itself is always accepted and
leaves an equal expression, as long as all symbols are letters: they are if the session began with a
text. -/
theorem editing_replaces_selected (starts : Starts start) (reaches : Reaches start s) :
    (∀ text t, Formula.Accepts text t →
      (∀ x, s.selection.toList = [x] → ∃ e r s', s.arena.expressionAt x = .ok e ∧
        (editSelected text).run s = .ok (.ok true, s') ∧ s'.selection.toList = [r] ∧
        s.arena.Replaced e t r s'.arena) ∧
      (2 ≤ s.selection.toList.length → ∃ s', (editSelected text).run s = .ok (.ok false, s') ∧
        s'.selection = s.selection ∧ s.arena.Swept s'.arena)) ∧
    ((∃ text, ofText text = .ok (.ok start)) ∨ start.arena.Named Formula.IsName →
      ∀ x, s.selection.toList = [x] → ∃ text s' c d, s.arena.write .text x = .ok text ∧
        (editSelected text).run s = .ok (.ok true, s') ∧ s.arena.content = .ok c ∧
        s'.arena.content = .ok d ∧ s.arena.equalAcross s'.arena c d = .ok true) := by
  have sound := reaches.sound starts.sound.1
  refine ⟨fun text t accepted => ?_, fun letters x single => ?_⟩
  · have parsed := Formula.accepts_iff.mp accepted
    refine ⟨fun x single => ?_, sound.editSelected_several parsed⟩
    obtain ⟨e, r, s', expression, ran, selected, replaced, -⟩ :=
      sound.editSelected_single parsed single
    exact ⟨e, r, s', expression, ran, selected, replaced⟩
  · refine sound.editSelected_own (reaches.named starts.sound.1 ?_) single
    rcases letters with ⟨text, started⟩ | named
    · exact named_ofText started
    · exact named

/-- In `x + y` the second term is edited, to `z^2` and to what it is. -/
theorem editing_replaces_selected_of_sum : ∃ start s, ofText ['x', '+', 'y'] = .ok (.ok start) ∧
    Reaches start s ∧ s.selection = .single ⟨3⟩ ∧
    (∃ r s', (editSelected ['z', '^', '2']).run s = .ok (.ok true, s') ∧
      s'.selection.toList = [r] ∧
      s.arena.Replaced ⟨3⟩ (.power (.symbol "z") (.integer 2)) r s'.arena) ∧
    ∃ s' c d, (editSelected ['y']).run s = .ok (.ok true, s') ∧ s.arena.content = .ok c ∧
      s'.arena.content = .ok d ∧ s.arena.equalAcross s'.arena c d = .ok true := by
  let a : Arena := ⟨#[some ⟨none, .root ⟨4⟩⟩, none, some ⟨some ⟨4⟩, .symbol "x"⟩,
    some ⟨some ⟨4⟩, .symbol "y"⟩, some ⟨some ⟨0⟩, .sum [⟨2⟩, ⟨3⟩]⟩], ⟨0⟩⟩
  have started : ofText ['x', '+', 'y'] = .ok (.ok (ofArena a)) := rfl
  have selected : (Request.select [⟨3⟩]).carryOut.run (ofArena a) =
      .ok (.ok (), ⟨a, .single ⟨3⟩, .inactive⟩) := rfl
  have reaches := Reaches.start.step selected
  obtain ⟨edits, own⟩ := editing_replaces_selected (.ofText started) reaches
  obtain ⟨e, r, s', expression, ran, alone, replaced⟩ := (edits ['z', '^', '2'] _ ⟨_, _, rfl, rfl⟩).1 ⟨3⟩ rfl
  obtain ⟨text, s'', c, d, written, ran', equal⟩ := own (.inl ⟨_, started⟩) ⟨3⟩ rfl
  have same : a.expressionAt ⟨3⟩ = .ok ⟨3⟩ := rfl
  have written' : a.write .text ⟨3⟩ = .ok ['y'] := rfl
  cases same.symm.trans expression
  cases written'.symm.trans written
  exact ⟨_, _, started, reaches, rfl, ⟨r, s', ran, alone, replaced⟩, s'', c, d, ran', equal⟩

end Session

end AlgebraEditor
