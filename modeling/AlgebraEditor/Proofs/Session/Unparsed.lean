import AlgebraEditor.Proofs.Formula.Adding
import AlgebraEditor.Proofs.Session.Replies

/-!
# Texts that do not parse

A text that does not parse leaves elements behind that nothing owns. They take places, so elements
that are added later get other handles than they would have had. That is the only difference: the
session shows the same, and whatever is asked of it later is answered the same.
-/

namespace AlgebraEditor

open Arena
open Function (Injective)

/-! ### Handles that make room -/

namespace Handle

variable {start count : Nat} {h : Handle}

/-- Moves the handles from `start` on by `count` places. -/
def skip (start count : Nat) (h : Handle) : Handle :=
  if h.index < start then h else ⟨h.index + count⟩

theorem skip_of_lt (old : h.index < start) : h.skip start count = h := if_pos old

theorem skip_of_le (new : start ≤ h.index) : h.skip start count = ⟨h.index + count⟩ :=
  if_neg (Nat.not_lt.mpr new)

theorem skip_injective (start count : Nat) : Injective (skip start count) := by
  rintro ⟨i⟩ ⟨j⟩ same
  have index := congrArg Handle.index same
  simp only [skip, apply_ite Handle.index] at index
  congr 1
  split at index <;> split at index <;> omega

end Handle

namespace Arena

variable {f : Handle → Handle} {a b : Arena} {h : Handle} {n : Node}

theorem WellFormed.rename_of_fixed (wf : a.WellFormed) (fixed : ∀ k m, a.get? k = some m → f k = k)
    (stored : a.get? h = some n) : n.rename f = n := by
  have above : n.parent.map f = n.parent := by
    cases recorded : n.parent with
    | none => rfl
    | some p =>
      obtain ⟨m, held⟩ := wf.stored_of_owner? (owner?_eq_some.mpr ⟨n, stored, recorded⟩)
      exact congrArg some (fixed p m held)
  have below : n.element.rename f = n.element := by
    apply Element.rename_of_children
    intro c member
    obtain ⟨m, held⟩ := wf.stored_of_mem_children stored member
    exact fixed c m held
  rw [Node.rename, above, below]

/-- An arena is embedded in every arena that has elements added. -/
theorem Adds.embeds {ts : List Term} {xs : List Handle} (adds : a.Adds ts xs b) (wf : a.WellFormed) :
    a.Embeds (Handle.skip a.places.size (b.places.size - a.places.size)) b where
  injective := Handle.skip_injective _ _
  root := by
    obtain ⟨inner, stored⟩ := wf.wrapper
    rw [adds.root, Handle.skip_of_lt (index_lt_of_get? stored)]
  view h := by
    have room := adds.room
    by_cases old : h.index < a.places.size
    · rw [Handle.skip_of_lt old, adds.old h old]
      cases stored : a.get? h with
      | none => rfl
      | some n =>
        have same := wf.rename_of_fixed (f := Handle.skip a.places.size
          (b.places.size - a.places.size)) (fun k m held => Handle.skip_of_lt (index_lt_of_get? held))
          stored
        rw [Option.map_some, same]
    · have new := Nat.le_of_not_lt old
      have beyond : b.places.size ≤ h.index + (b.places.size - a.places.size) := by omega
      rw [Handle.skip_of_le new, absent_of_le new, absent_of_le beyond]
      rfl
  fresh i := by
    have room := adds.room
    rw [Handle.skip_of_le (Nat.le_add_right _ _)]
    dsimp only
    congr 1
    omega
  room := adds.room

/-- Only what is embedded is part of the other expression. -/
theorem Embeds.exists_of_reachable (e : a.Embeds f b) (reached : b.Reachable h) : ∃ k, f k = h := by
  induction reached with
  | root => exact ⟨a.root, e.root.symm⟩
  | @child p c n _ stored member ih =>
    obtain ⟨k, rfl⟩ := ih
    rw [e.view] at stored
    obtain ⟨m, -, rfl⟩ := Option.map_eq_some_iff.mp stored
    rw [Node.rename, Element.children_rename] at member
    obtain ⟨x, -, same⟩ := List.mem_map.mp member
    exact ⟨x, same⟩

end Arena

/-! ### What stays under the same name -/

section

variable {f : Handle → Handle}

theorem Selection.rename_of_fixed {s : Selection} (fixed : ∀ h ∈ s.toList, f h = h) :
    s.rename f = s := by
  obtain ⟨first, rest⟩ := s
  obtain ⟨head, tail⟩ := List.forall_mem_cons.mp fixed
  rw [rename, head, map_of_fixed tail]

theorem Grow.rename_of_fixed {g : Grow}
    (fixed : ∀ r, g.run = some r → ∀ h ∈ r.anchor :: r.moving :: r.selected, f h = h) :
    g.rename f = g := by
  obtain ⟨active, run⟩ := g
  cases run with
  | none => rfl
  | some r =>
    obtain ⟨anchor, moving, selected⟩ := r
    have all := fixed _ rfl
    simp only [List.forall_mem_cons] at all
    rw [rename, Option.map_some, GrownRun.rename, all.1, all.2.1, map_of_fixed all.2.2]

end

/-! ### Sessions with leftovers -/

namespace Session

variable {f : Handle → Handle} {s s' t start : Session} {text : List Char} {h : Handle}
  {hs xs : List Handle} {ts : List Term} {b : Arena}

/-- What is added makes no difference but for the names of what comes later. -/
theorem Sound.alike_adds (sound : s.Sound) (within : s.grow.Within s.arena.places.size)
    (adds : s.arena.Adds ts xs b) :
    Alike (Handle.skip s.arena.places.size (b.places.size - s.arena.places.size)) s
      { s with arena := b } where
  arena := adds.embeds sound.wf
  selection := by
    refine (Selection.rename_of_fixed fun h member => ?_).symm
    obtain ⟨n, stored⟩ := (sound.valid.reached h member).stored sound.wf
    exact Handle.skip_of_lt (index_lt_of_get? stored)
  grow :=
    (Grow.rename_of_fixed fun r grown h member => Handle.skip_of_lt (within r grown h member)).symm

/-- Naming an element that is not part of the expression only ends growing. -/
theorem select_detached (wf : s.arena.WellFormed) (member : h ∈ hs)
    (apart : ¬ s.arena.Reachable h) :
    (select hs).run s = .ok (.error .detached, { s with grow := .inactive }) := by
  classical
  have ended : endGrow.run s = .ok ((), { s with grow := .inactive }) := rfl
  have named : hs.isEmpty = false := List.isEmpty_eq_false_iff.mpr (List.ne_nil_of_mem member)
  have refused : hs.all (fun h => decide (s.arena.Reachable h)) = false := by
    rw [List.all_eq_false]
    exact ⟨h, member, by simpa using apart⟩
  have resolved : (Selection.resolve s.arena hs).run = .ok (.error .detached) := by
    unfold Selection.resolve
    rw [named]
    dsimp only
    simp only [Bool.false_eq_true, if_false]
    rw [Select.run_lift_bind (Selection.areSelectable_eq_ok wf hs), refused]
    rfl
  refine (SessionStep.run_bind_of_ok ended).trans (SessionStep.run_take_of_error ?_)
  rw [ExceptT.run_bind, resolved]
  rfl

theorem exists_map_eq (named : ∀ h ∈ hs, ∃ k, f k = h) : ∃ ks : List Handle, ks.map f = hs := by
  induction hs with
  | nil => exact ⟨[], rfl⟩
  | cons h hs ih =>
    obtain ⟨⟨k, first⟩, rest⟩ := List.forall_mem_cons.mp named
    obtain ⟨ks, same⟩ := ih rest
    exact ⟨k :: ks, by rw [List.map_cons, first, same]⟩

theorem Request.eq_rename (request : Request) : (∃ r : Request, r.rename f = request) ∨
    ∃ hs h, request = .select hs ∧ h ∈ hs ∧ ∀ k, f k ≠ h := by
  cases request with
  | select hs =>
    by_cases named : ∀ h ∈ hs, ∃ k, f k = h
    · obtain ⟨ks, rfl⟩ := exists_map_eq named
      exact .inl ⟨.select ks, rfl⟩
    · obtain ⟨h, other⟩ := not_forall.mp named
      obtain ⟨member, stray⟩ := Classical.not_imp.mp other
      exact .inr ⟨hs, h, rfl, member, not_exists.mp stray⟩
  | selectParent => exact .inl ⟨.selectParent, rfl⟩
  | selectChild => exact .inl ⟨.selectChild, rfl⟩
  | selectSibling d => exact .inl ⟨.selectSibling d, rfl⟩
  | selectOutermostSibling d => exact .inl ⟨.selectOutermostSibling d, rfl⟩
  | grow d => exact .inl ⟨.grow d, rfl⟩
  | runKey key => exact .inl ⟨.runKey key, rfl⟩
  | editSelected text => exact .inl ⟨.editSelected text, rfl⟩
  | setExpression text => exact .inl ⟨.setExpression text, rfl⟩

/-- Whatever is asked of a session, there is one that is alike to what it becomes. -/
theorem Alike.reaches (alike : Alike f s s') (sound : s.Sound) (sound' : s'.Sound)
    (reaches : Reaches s' t) : ∃ u, Alike f u t ∧ u.Sound := by
  induction reaches with
  | start => exact ⟨s, alike, sound⟩
  | @step t t' request answer before run ih =>
    obtain ⟨u, alike, sound⟩ := ih
    have wf := (before.sound sound').wf
    rcases Request.eq_rename (f := f) request with ⟨r, rfl⟩ | ⟨hs, h, rfl, member, stray⟩
    · rw [← Request.outcome_reply] at run
      obtain ⟨reply, replied, -⟩ := SessionStep.run_map_eq_ok.mp run
      obtain ⟨reply', u', done, sound⟩ := sound.reply r
      obtain ⟨t₁, done', alike⟩ := reply_follows alike.arena.injective r _ _ _ _ alike done
      cases done'.symm.trans replied
      exact ⟨u', alike, sound⟩
    · -- the request is refused, so the session to stay alike to only ends growing
      have apart : ¬ t.arena.Reachable h := fun reached => by
        obtain ⟨k, same⟩ := alike.arena.exists_of_reachable reached
        exact stray k same
      obtain ⟨_, done, -⟩ := SessionStep.run_map_eq_ok.mp run
      cases (select_detached wf member apart).symm.trans done
      exact ⟨_, alike.resting, sound.resting⟩

/-! ### Refused texts -/

open Formula.Grammar (Expression Atom Fits)

/-- The sessions on an arena that is in order and on an accepted text. -/
inductive Starts : Session → Prop where
  | ofArena {a : Arena} : a.WellFormed → a.Filled ∅ → Starts (ofArena a)
  | ofText {text : List Char} {s : Session} : Session.ofText text = .ok (.ok s) → Starts s

theorem Starts.sound (starts : Starts s) : s.Sound ∧ s.grow = .inactive := by
  cases starts with
  | ofArena wf filled => exact ⟨⟨wf, filled, valid_ofRoot _, Grow.sound_inactive _⟩, rfl⟩
  | ofText started =>
    obtain ⟨a, run, rfl⟩ := ofText_eq_ok started
    obtain ⟨t, accepted⟩ := accepts_of_setText run
    obtain ⟨_, started', sound⟩ := sound_ofText accepted
    cases started'.symm.trans started
    exact ⟨sound, rfl⟩

/-- The second session shows what the first one shows. Requests that name elements by the handles
that `f` gives them get the same replies and lead to the same displays. The elements that are there
keep their handles, and an element whose handle `f` gives to none never gets into the expression. -/
structure Unnoticed (f : Handle → Handle) (s t : Session) : Prop where
  injective : Injective f
  known : ∀ h, h.index < s.arena.places.size → f h = h
  retains : s.arena.Retains t.arena
  shown : ∃ d, s.display = .ok d ∧ t.display = .ok d
  played : ∀ requests, ∃ log, play requests s = .ok log ∧
    play (requests.map (Request.rename f)) t = .ok (log.map (Prod.map id (Display.rename f)))
  stray : ∀ u, Reaches t u → ∀ hs h, h ∈ hs → (∀ k, f k ≠ h) →
    ∃ u', (select hs).run u = .ok (.error .detached, u')

theorem Sound.unnoticed (sound : s.Sound) (within : s.grow.Within s.arena.places.size)
    (adds : s.arena.AddsNormal ts xs b) : ∃ f, Unnoticed f s { s with arena := b } := by
  have sound' := sound.adds adds
  have alike := sound.alike_adds within adds.toAdds
  obtain ⟨d, shown⟩ := sound.display
  have known : d.rename (Handle.skip s.arena.places.size (b.places.size - s.arena.places.size)) = d := by
    obtain ⟨text, -, rest⟩ := bind_eq_ok.mp shown
    obtain ⟨view, -, done⟩ := bind_eq_ok.mp rest
    cases done
    exact congrArg₂ (Display.mk text view) alike.selection.symm alike.grow.symm
  refine ⟨_, alike.arena.injective, fun h old => Handle.skip_of_lt old, adds.retains,
    ⟨d, shown, ?_⟩, ?_, ?_⟩
  · rw [← known]
    exact alike.display d shown
  · intro requests
    obtain ⟨log, played⟩ := sound.play requests
    exact ⟨log, played, alike.play requests log played⟩
  · intro u reaches hs h member stray
    obtain ⟨v, alike', -⟩ := alike.reaches sound sound' reaches
    have apart : ¬ u.arena.Reachable h := fun reached => by
      obtain ⟨k, same⟩ := alike'.arena.exists_of_reachable reached
      exact stray k same
    exact ⟨_, select_detached (reaches.sound sound').wf member apart⟩

/-- Reading a text never touches what is there, and an accepted text adds one tree in normal form and
nothing else; every text that the grammar derives is accepted. However a session was used, a text that
does not parse is refused with the parse error, and makes no difference to anything that is shown or
answered later. -/
theorem refused_text_unnoticed :
    (∀ a : Arena, a.WellFormed → ∀ text, ∃ answer b, (Edit.plantText text).run a = .ok answer b ∧
      a.Retains b ∧ (∀ x, answer = .ok x → a.Gains b x) ∧
      ∀ tokens t, Formula.tokenize text = .ok tokens → Expression Atom tokens t →
        (∀ token ∈ tokens, Fits token) → ∃ x, answer = .ok x ∧ b.term x = .ok t) ∧
    ∀ start s, Starts start → Reaches start s → ∀ text e b,
      (Edit.plantText text).run s.arena = .ok (.error e) b →
        ∃ t f, (editSelected text).run s = .ok (.error e, t) ∧
          (setExpression text).run s = .ok (.error e, t) ∧ Unnoticed f s t := by
  refine ⟨fun a wf text => ?_, fun start s starts reaches text e b failed => ?_⟩
  · obtain ⟨answer, b, read, retains, gains⟩ := Edit.plantText_retains wf text
    refine ⟨answer, b, read, retains, gains, fun tokens t cut derived fits => ?_⟩
    obtain ⟨x, b', read', adds⟩ :=
      Edit.run_plantText_of_ok wf (Formula.parse_eq_ok.mpr ⟨tokens, cut, derived, fits⟩)
    cases read.symm.trans read'
    exact ⟨x, rfl, adds.term_top⟩
  · obtain ⟨sound, resting⟩ := starts.sound
    have within := reaches.within sound (resting ▸ Grow.within_inactive _)
    have sound' := reaches.sound sound
    obtain ⟨-, ts, xs, adds⟩ := Edit.parse_of_run_error sound'.wf failed
    obtain ⟨f, unnoticed⟩ := sound'.unnoticed within adds
    exact ⟨_, f, editSelected_of_error failed, setExpression_of_error failed, unnoticed⟩

/-- To the expression `0` the text `x + y` adds a sum, leaves first, and `x +` is refused: then the
letter is left behind. -/
theorem refused_text_unnoticed_of_zero :
    (∃ b, (Edit.plantText ['x', '+', 'y']).run .zero = .ok (.ok ⟨4⟩) b ∧ Arena.zero.Retains b ∧
      Arena.zero.Gains b ⟨4⟩ ∧ b.get? ⟨4⟩ = some ⟨none, .sum [⟨2⟩, ⟨3⟩]⟩ ∧
      b.preOrder ⟨4⟩ = .ok [⟨4⟩, ⟨2⟩, ⟨3⟩]) ∧
    ∃ t f, (editSelected ['x', '+']).run (ofArena .zero) =
        .ok (.error ⟨.unexpectedEnd, ⟨2, 2⟩⟩, t) ∧
      (setExpression ['x', '+']).run (ofArena .zero) = .ok (.error ⟨.unexpectedEnd, ⟨2, 2⟩⟩, t) ∧
      t.arena.get? ⟨2⟩ = some ⟨none, .symbol "x"⟩ ∧ Unnoticed f (ofArena .zero) t := by
  obtain ⟨reads, refuses⟩ := refused_text_unnoticed
  constructor
  · obtain ⟨b, read, shown⟩ : ∃ b, (Edit.plantText ['x', '+', 'y']).run .zero = .ok (.ok ⟨4⟩) b ∧
        b.get? ⟨4⟩ = some ⟨none, .sum [⟨2⟩, ⟨3⟩]⟩ ∧ b.preOrder ⟨4⟩ = .ok [⟨4⟩, ⟨2⟩, ⟨3⟩] :=
      ⟨_, rfl, rfl, rfl⟩
    obtain ⟨answer, b', read', retains, gains, -⟩ := reads .zero wellFormed_zero ['x', '+', 'y']
    cases read.symm.trans read'
    exact ⟨b, read, retains, gains ⟨4⟩ rfl, shown⟩
  · obtain ⟨b, failed, left⟩ : ∃ b, (Edit.plantText ['x', '+']).run (ofArena .zero).arena =
        .ok (.error ⟨.unexpectedEnd, ⟨2, 2⟩⟩) b ∧ b.get? ⟨2⟩ = some ⟨none, .symbol "x"⟩ :=
      ⟨_, rfl, rfl⟩
    obtain ⟨t, f, edited, replaced, unnoticed⟩ := refuses (ofArena .zero) (ofArena .zero)
      (.ofArena wellFormed_zero filled_zero) .start _ _ b failed
    cases edited.symm.trans (editSelected_of_error failed)
    exact ⟨_, f, edited, replaced, left, unnoticed⟩

end Session

end AlgebraEditor
