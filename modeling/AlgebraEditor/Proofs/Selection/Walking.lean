import AlgebraEditor.Proofs.Selection.Growing

/-!
# Growing as a walk

Growing from one element is a walk of the moving end among its siblings, which stops at the first
and at the last one. `Walks` says what is selected after a walk: the children from the element to
where the moving end stands, until they are all there are. Then their parent is selected, and
the walk goes on from it. `Stands.step` shows that every step keeps to it.
-/

namespace AlgebraEditor

open Arena

/-- The other direction. -/
def Direction.opposite : Direction → Direction
  | previous => next
  | next => previous

/-- The position one further among `count` positions, none of which is beyond the ends. -/
def Direction.clamped (count j : Nat) : Direction → Nat
  | previous => j - 1
  | next => min (j + 1) (count - 1)

/-- Where steps lead from a position. -/
def walk (count i : Nat) (ds : List Direction) : Nat := ds.foldl (fun j d => d.clamped count j) i

section Positions

variable {count i j : Nat} {d : Direction}

theorem Direction.step_eq (inside : j < count) (d : Direction) :
    d.step j count = if d.clamped count j = j then none else some (d.clamped count j) := by
  cases d with
  | previous =>
    cases j with
    | zero => rfl
    | succ j => rw [step, clamped, if_neg (by omega), Nat.add_sub_cancel]
  | next =>
    rw [step, clamped]
    split
    · rw [if_neg (by omega), Nat.min_eq_left (by omega)]
    · rw [if_pos (by omega)]

/-- A step that led somewhere is taken back by one in the other direction. -/
theorem Direction.clamped_opposite (inside : j < count) (other : d.clamped count j ≠ j) :
    d.opposite.clamped count (d.clamped count j) = j := by
  cases d <;> simp only [opposite, clamped] at other ⊢ <;> omega

theorem walk_snoc (count i : Nat) (ds : List Direction) (d : Direction) :
    walk count i (ds ++ [d]) = d.clamped count (walk count i ds) :=
  List.foldl_concat ..

end Positions

namespace Grow

open Selection

variable {a : Arena} {g g' : Grow} {s s' : Selection} {d : Direction} {h k p q x : Handle}
  {hs ks cs : List Handle} {i j : Nat} {before ds : List Direction}

/-- What is selected after growing in these directions, one after the other, from one element. -/
inductive Walks (a : Arena) : Handle → List Direction → List Handle → Prop where
  | root (ds : List Direction) : Walks a a.root ds [a.root]
  | among {p h : Handle} {cs : List Handle} {i : Nat} {ds : List Direction} : a.Holds p cs →
      cs[i]? = some h → (∀ earlier, earlier <+: ds → ¬ Covers cs.length i (walk cs.length i earlier)) →
      Walks a h ds (between cs i (walk cs.length i ds))
  | up {p h : Handle} {cs hs : List Handle} {i : Nat} {d : Direction} {before after : List Direction} :
      a.Holds p cs → cs[i]? = some h →
      (∀ earlier, earlier <+: before → ¬ Covers cs.length i (walk cs.length i earlier)) →
      Covers cs.length i (walk cs.length i (before ++ [d])) → Walks a p after hs →
      Walks a h (before ++ d :: after) hs

/-! ### One outcome -/

theorem ne_root_of_child (wf : a.WellFormed) (holds : a.Holds p cs) (found : cs[i]? = some h) :
    h ≠ a.root :=
  wf.ne_root_of_owner? (holds.owner? wf (List.mem_of_getElem? found))

/-- An element has one place among the children of one element. -/
theorem place_unique (wf : a.WellFormed) (holds : a.Holds p cs) (holds' : a.Holds q ks)
    (found : cs[i]? = some h) (found' : ks[j]? = some h) : p = q ∧ cs = ks ∧ i = j := by
  have owned := holds.owner? wf (List.mem_of_getElem? found)
  cases owned.symm.trans (holds'.owner? wf (List.mem_of_getElem? found'))
  obtain ⟨n, stored, rfl⟩ := holds.children
  obtain ⟨m, stored', rfl⟩ := holds'.children
  cases stored.symm.trans stored'
  obtain ⟨inside, same⟩ := List.getElem?_eq_some_iff.mp found
  obtain ⟨inside', same'⟩ := List.getElem?_eq_some_iff.mp found'
  exact ⟨rfl, rfl, ((wf.distinct stored).getElem_inj_iff).mp (same.trans same'.symm)⟩

/-- The first step that covers all children is the first one in every account of a walk. -/
theorem first_unique {C : List Direction → Prop} {before before' after after' : List Direction}
    {d d' : Direction} (same : before ++ d :: after = before' ++ d' :: after')
    (apart : ∀ earlier, earlier <+: before → ¬ C earlier) (covers : C (before ++ [d]))
    (apart' : ∀ earlier, earlier <+: before' → ¬ C earlier) (covers' : C (before' ++ [d'])) :
    before = before' ∧ d = d' ∧ after = after' := by
  have part : before ++ [d] <+: before' ++ d' :: after' := ⟨after, by rw [← same]; simp⟩
  have part' : before' ++ [d'] <+: before' ++ d' :: after' := ⟨after', by simp⟩
  have length : before.length = before'.length := by
    by_contra other
    rcases List.prefix_or_prefix_of_prefix part part' with shorter | shorter
    · rcases List.prefix_concat_iff.mp shorter with whole | inside
      · exact other (by simpa using congrArg List.length whole)
      · exact apart' _ inside covers
    · rcases List.prefix_concat_iff.mp shorter with whole | inside
      · exact other (by simpa using (congrArg List.length whole).symm)
      · exact apart _ inside covers'
  obtain ⟨rfl, rest⟩ := List.append_inj same length
  exact ⟨rfl, List.cons.inj rest⟩

theorem Walks.unique (wf : a.WellFormed) (first : Walks a h ds hs) (second : Walks a h ds ks) :
    hs = ks := by
  induction first generalizing ks with
  | root ds =>
    cases second with
    | root => rfl
    | among holds found _ => exact absurd rfl (ne_root_of_child wf holds found)
    | up holds found _ _ _ => exact absurd rfl (ne_root_of_child wf holds found)
  | @among p h cs i ds holds found apart =>
    cases second with
    | root => exact absurd rfl (ne_root_of_child wf holds found)
    | among holds' found' _ =>
      obtain ⟨rfl, rfl, rfl⟩ := place_unique wf holds holds' found found'
      rfl
    | @up q _ ks _ j d before after holds' found' _ covers _ =>
      obtain ⟨rfl, rfl, rfl⟩ := place_unique wf holds holds' found found'
      exact absurd covers (apart _ ⟨after, by simp⟩)
  | @up p h cs hs i d before after holds found apart covers _ ih =>
    generalize whole : before ++ d :: after = ds at second
    cases second with
    | root => exact absurd rfl (ne_root_of_child wf holds found)
    | among holds' found' apart' =>
      obtain ⟨rfl, rfl, rfl⟩ := place_unique wf holds holds' found found'
      exact absurd covers (apart' _ ⟨after, by rw [← whole]; simp⟩)
    | up holds' found' apart' covers' second =>
      obtain ⟨rfl, rfl, rfl⟩ := place_unique wf holds holds' found found'
      obtain ⟨rfl, rfl, rfl⟩ := first_unique whole apart covers apart' covers'
      exact ih second

/-! ### Steps -/

theorem ends_of_made (member : h ∈ s.toList) (d : Direction) :
    ends { g with run := some ⟨h, x, s.toList⟩ } s d = (h, x) :=
  if_pos ⟨rfl, member⟩

theorem ends_of_replaced (other : h ≠ p) (d : Direction) :
    ends { g with run := some ⟨h, x, [p]⟩ } (single p) d = (p, p) := by
  have outside : ¬ ([p] = (single p).toList ∧ h ∈ [p]) := fun kept =>
    other (List.mem_singleton.mp kept.2)
  refine (if_neg outside).trans ?_
  cases d <;> rfl

/-- While growing walks from an element, the ends of the next step are the element and where the
walk has led. -/
inductive Stands (a : Arena) : Handle → List Direction → Grow → Selection → Prop where
  | root {before : List Direction} {g : Grow} : (∀ d, g.ends (single a.root) d = (a.root, a.root)) →
      Stands a a.root before g (single a.root)
  | among {p h x : Handle} {cs : List Handle} {i : Nat} {before : List Direction} {g : Grow}
      {s : Selection} : a.Holds p cs → cs[i]? = some h → cs[walk cs.length i before]? = some x →
      (∀ earlier, earlier <+: before → ¬ Covers cs.length i (walk cs.length i earlier)) →
      s.toList = between cs i (walk cs.length i before) → (∀ d, g.ends s d = (h, x)) →
      Stands a h before g s

theorem Stands.walks (stands : Stands a h before g s) : Walks a h before s.toList := by
  cases stands with
  | root _ => exact .root before
  | among holds found _ apart selected _ =>
    rw [selected]
    exact .among holds found apart

/-- A walk starts at any one element for which nothing else is remembered. -/
theorem stands_of_single (wf : a.WellFormed) (reached : a.Reachable h)
    (ends : ∀ d, g.ends (single h) d = (h, h)) : Stands a h [] g (single h) := by
  by_cases root : h = a.root
  · subst root
    exact .root ends
  · obtain ⟨p, owned⟩ := reached.owned wf root
    obtain ⟨before, after, holds⟩ := reached.held wf owned
    have found : (before ++ h :: after)[before.length]? = some h := by simp
    refine .among holds found found (fun earlier empty covers => ?_) ?_ ends
    · rw [List.prefix_nil.mp empty, walk, List.foldl_nil] at covers
      obtain ⟨several, all⟩ := covers
      omega
    · rw [walk, List.foldl_nil, ← List.singleton_append, ← List.append_assoc]
      exact (between_append []).symm

theorem apart_snoc {C : List Direction → Prop} (apart : ∀ earlier, earlier <+: before → ¬ C earlier)
    (last : ¬ C (before ++ [d])) : ∀ earlier, earlier <+: before ++ [d] → ¬ C earlier := by
  intro earlier part
  rcases List.prefix_concat_iff.mp part with rfl | part
  · exact last
  · exact apart earlier part

/-- A step goes on with the walk, or starts another one from the parent of what has been covered. -/
theorem Stands.step (stands : Stands a h before g s) (wf : a.WellFormed) (d : Direction) :
    ∃ g' s', (g.begin.step s a d).run = .ok (.ok (g', s')) ∧
      (Stands a h (before ++ [d]) g' s' ∨ ∃ p, s' = single p ∧ a.owner? s.first = some p ∧
        Stands a p [] g' s' ∧ ∀ ds hs, Walks a p ds hs → Walks a h (before ++ d :: ds) hs) := by
  cases stands with
  | root ends =>
    have sibling := sibling?_of_free (.single .root) wf (s := single a.root) wf.owner?_root d
    exact ⟨_, _, run_step_of_none rfl (ends d) sibling, .inl (.root ends)⟩
  | @among p h x cs i before g s holds first second apart selected ends =>
    obtain ⟨inside, -⟩ := List.getElem?_eq_some_iff.mp first
    obtain ⟨inside', -⟩ := List.getElem?_eq_some_iff.mp second
    have advanced := walk_snoc cs.length i before d
    have next := Direction.step_eq inside' d
    by_cases stays : d.clamped cs.length (walk cs.length i before) = walk cs.length i before
    · rw [if_pos stays] at next
      rw [stays] at advanced
      have sibling := sibling?_eq wf holds second d
      rw [next] at sibling
      refine ⟨_, _, run_step_of_none rfl (ends d) sibling, .inl (.among holds first ?_ ?_ ?_ ends)⟩
      · rw [advanced, second]
      · exact apart_snoc apart (advanced ▸ apart before (List.prefix_refl before))
      · rw [advanced, selected]
    · rw [if_neg stays, ← advanced] at next
      obtain ⟨inside'', -⟩ := step_inside inside' next
      obtain ⟨s', resolved, -, whole, part⟩ := resolve_span wf holds inside inside''
      have found := List.getElem?_eq_getElem inside''
      refine ⟨_, _, run_step_of_some wf rfl (ends d) holds first second next found resolved, ?_⟩
      by_cases covers : Covers cs.length i (walk cs.length i (before ++ [d]))
      · obtain rfl := whole covers
        have owned := holds.owner? wf (List.mem_of_getElem? first)
        have front : s.first ∈ s.toList := List.mem_cons_self
        have front := (between_sublist cs i _).subset (selected ▸ front)
        refine .inr ⟨p, rfl, holds.owner? wf front, ?_, fun ds hs => .up holds first apart covers⟩
        exact stands_of_single wf holds.reached (ends_of_replaced (wf.irrefl owned))
      · have same := part covers
        have member : h ∈ s'.toList := same ▸ Spans.mem ⟨p, cs, i, _, holds, first, found, rfl⟩
        exact .inl (.among holds first found (apart_snoc apart covers) same (ends_of_made member))

theorem Stands.walks_step (stands : Stands a h before g s) (wf : a.WellFormed)
    (stepped : (g.begin.step s a d).run = .ok (.ok (g', s'))) : Walks a h (before ++ [d]) s'.toList := by
  obtain ⟨_, _, stepped', stands' | ⟨p, rfl, -, stands', goesOn⟩⟩ := stands.step wf d
  · cases stepped.symm.trans stepped'
    exact stands'.walks
  · cases stepped.symm.trans stepped'
    exact goesOn [] _ stands'.walks

/-- A step to other children is taken back by one in the other direction. -/
theorem Stands.back (stands : Stands a h before g s) (wf : a.WellFormed)
    (stepped : (g.begin.step s a d).run = .ok (.ok (g', s'))) (moved : s' ≠ s)
    (beside : a.owner? s.first ≠ some s'.first) :
    ∃ g'', (g'.begin.step s' a d.opposite).run = .ok (.ok (g'', s)) := by
  have walked := stands.walks_step wf stepped
  obtain ⟨_, _, stepped', stands' | ⟨p, rfl, owned, -⟩⟩ := stands.step wf d
  · cases stepped.symm.trans stepped'
    obtain ⟨g'', s'', returned, -⟩ := stands'.step wf d.opposite
    have restored : Walks a h (before ++ [d] ++ [d.opposite]) s.toList := by
      cases stands with
      | root _ => exact .root _
      | @among p h x cs i before g s holds first second apart selected ends =>
        obtain ⟨inside, -⟩ := List.getElem?_eq_some_iff.mp second
        have advanced := walk_snoc cs.length i before d
        have uncovered : ¬ Covers cs.length i (walk cs.length i (before ++ [d])) := by
          intro covers
          have alone : Walks a p [] [p] := (stands_of_single (g := .inactive) wf holds.reached
            fun d => by cases d <;> rfl).walks
          have same := walked.unique wf (.up holds first apart covers alone)
          have front : s.first ∈ s.toList := List.mem_cons_self
          have front := (between_sublist cs i _).subset (selected ▸ front)
          exact beside ((holds.owner? wf front).trans (congrArg some (List.cons.inj same).1.symm))
        have other : d.clamped cs.length (walk cs.length i before) ≠ walk cs.length i before := by
          intro stays
          have same := walked.unique wf (.among holds first (apart_snoc apart uncovered))
          rw [advanced, stays, ← selected] at same
          exact moved (eq_of_toList same)
        have back : walk cs.length i (before ++ [d] ++ [d.opposite]) = walk cs.length i before := by
          rw [walk_snoc, advanced, Direction.clamped_opposite inside other]
        have last := back ▸ apart before (List.prefix_refl before)
        rw [selected, ← back]
        exact .among holds first (apart_snoc (apart_snoc apart uncovered) last)
    cases eq_of_toList ((stands'.walks_step wf returned).unique wf restored)
    exact ⟨g'', returned⟩
  · cases stepped.symm.trans stepped'
    exact absurd owned beside

end Grow

end AlgebraEditor
