import AlgebraEditor.Proofs.Selection.Growing
import AlgebraEditor.Proofs.Session.Unparsed

/-!
# Moving with the arrows

From any selection moves to the parent lead to the root, and from there moves to the first child and
to the next sibling lead to every element of the expression, an only child included. On the way
there is always one element selected.
-/

namespace AlgebraEditor

open Arena

/-! ### Single elements -/

namespace Selection

variable {a : Arena} {h k p c : Handle} {cs : List Handle} {s : Selection} {i : Nat}

theorem run_toChild (wf : a.WellFormed) (holds : a.Holds s.first (c :: cs)) :
    (s.toChild a).run = .ok (.ok (single c)) := by
  obtain ⟨n, stored, children⟩ := holds.children
  unfold toChild
  rw [Select.run_lift_bind (children_of_get? stored), children]
  exact resolve_single wf (holds.reachable List.mem_cons_self)

theorem run_toParent (wf : a.WellFormed) (reached : a.Reachable s.first)
    (owned : a.owner? s.first = some p) : (s.toParent a).run = .ok (.ok (single p)) := by
  unfold toParent
  rw [Select.run_lift_bind (parent_eq_some.mpr owned)]
  exact resolve_single wf (reached.owner wf owned)

theorem run_toNext (wf : a.WellFormed) (holds : a.Holds p cs) (found : cs[i]? = some h)
    (next : cs[i + 1]? = some k) : ((single h).toSibling a .next).run = .ok (.ok (single k)) := by
  obtain ⟨inside, -⟩ := List.getElem?_eq_some_iff.mp next
  have sibling := Grow.sibling?_eq wf holds found .next
  rw [Direction.step, if_pos inside, Option.bind_some, next] at sibling
  unfold toSibling
  rw [Select.run_lift_bind (show sibling? a (single h).last .next = _ from sibling)]
  exact resolve_single wf (holds.reachable (List.mem_of_getElem? next))

/-- A move that stays, or selects the element it found. -/
theorem stay_or_single (wf : a.WellFormed) (reached : a.Reachable h) {found : Option Handle} :
    (∀ k, found = some k → a.Reachable k) → ∃ k, a.Reachable k ∧ (match found with
      | none => return single h
      | some k => resolve a [k] : Select Selection).run = .ok (.ok (single k)) := by
  intro each
  cases found with
  | none => exact ⟨h, reached, rfl⟩
  | some k => exact ⟨k, each k rfl, resolve_single wf (each k rfl)⟩

theorem toChild_single (wf : a.WellFormed) (reached : a.Reachable h) :
    ∃ k, a.Reachable k ∧ ((single h).toChild a).run = .ok (.ok (single k)) := by
  obtain ⟨n, stored⟩ := reached.stored wf
  cases children : n.element.children with
  | nil =>
    refine ⟨h, reached, ?_⟩
    unfold toChild
    rw [Select.run_lift_bind (show a.children (single h).first = _ from children_of_get? stored),
      children]
    rfl
  | cons c cs =>
    have holds : a.Holds h (c :: cs) := ⟨reached, n, stored, children⟩
    exact ⟨c, holds.reachable List.mem_cons_self, run_toChild wf holds⟩

theorem toParent_single (wf : a.WellFormed) (reached : a.Reachable h) :
    ∃ k, a.Reachable k ∧ ((single h).toParent a).run = .ok (.ok (single k)) := by
  obtain ⟨n, stored⟩ := reached.stored wf
  cases owned : a.owner? h with
  | none =>
    have free : a.parent (single h).first = .ok none := (parent_of_get? stored).trans (by rw [owned])
    refine ⟨h, reached, ?_⟩
    unfold toParent
    rw [Select.run_lift_bind free]
    rfl
  | some p => exact ⟨p, reached.owner wf owned, run_toParent wf reached owned⟩

theorem toSibling_single (wf : a.WellFormed) (reached : a.Reachable h) (d : Direction) :
    ∃ k, a.Reachable k ∧ ((single h).toSibling a d).run = .ok (.ok (single k)) := by
  obtain ⟨n, stored⟩ := reached.stored wf
  obtain ⟨found, read, holds⟩ := sibling?_total wf stored d
  have each : ∀ k, found = some k → a.Reachable k := fun k sibling => by
    obtain ⟨p, owned, owned'⟩ := holds k sibling
    exact (reached.owner wf owned).step wf owned'
  unfold toSibling
  cases d with
  | previous =>
    rw [Select.run_lift_bind (show sibling? a (single h).first .previous = _ from read)]
    exact stay_or_single wf reached each
  | next =>
    rw [Select.run_lift_bind (show sibling? a (single h).last .next = _ from read)]
    exact stay_or_single wf reached each

theorem toOutermostSibling_single (wf : a.WellFormed) (reached : a.Reachable h) (d : Direction) :
    ∃ k, a.Reachable k ∧ ((single h).toOutermostSibling a d).run = .ok (.ok (single k)) := by
  unfold toOutermostSibling
  cases owned : a.owner? h with
  | none =>
    obtain ⟨n, stored⟩ := reached.stored wf
    have free : a.parent (single h).first = .ok none := (parent_of_get? stored).trans (by rw [owned])
    rw [Select.run_lift_bind free]
    exact ⟨h, reached, rfl⟩
  | some p =>
    have above := reached.owner wf owned
    obtain ⟨m, held⟩ := above.stored wf
    rw [Select.run_lift_bind (show a.parent (single h).first = _ from parent_eq_some.mpr owned)]
    dsimp only
    rw [Select.run_lift_bind (children_of_get? held)]
    cases d with
    | previous =>
      exact stay_or_single wf reached fun k found => above.child held (List.mem_of_head? found)
    | next =>
      exact stay_or_single wf reached fun k found => above.child held (List.mem_of_getLast? found)

/-- Only the root is selected without an owner. -/
theorem Valid.eq_ofRoot (valid : s.Valid a) (wf : a.WellFormed) (free : a.owner? s.first = none) :
    s = ofRoot a := by
  cases valid with
  | single reached => exact congrArg Selection.single (reached.eq_root wf free)
  | @run p first second n before rest after reached stored children other =>
    have owned : a.owner? first = some p := wf.records stored first (by rw [children]; simp)
    cases free.symm.trans owned

end Selection

/-! ### Ways -/

namespace Session

variable {a : Arena} {h k l p c : Handle} {cs : List Handle} {i : Nat} {n : Node}
  {s t u start : Session} {r : Request} {rs rs' : List Request}
  {target : Selection → Arena → Select Selection}

/-- The moves of the selection that do not grow it. -/
inductive Request.Navigates : Request → Prop where
  | parent : Navigates selectParent
  | child : Navigates selectChild
  | sibling (d : Direction) : Navigates (selectSibling d)
  | outermostSibling (d : Direction) : Navigates (selectOutermostSibling d)

/-- The requests are carried out one by one, none of them changes the expression, and after each of
them one element of the expression is selected. -/
inductive Visits : Session → List Request → Session → Prop where
  | stay (s : Session) : Visits s [] s
  | move {s t u : Session} {r : Request} {rs : List Request} {h : Handle} :
      r.carryOut.run s = .ok (.ok (), t) → t.arena = s.arena → s.arena.Reachable h →
      t.selection = .single h → Visits t rs u → Visits s (r :: rs) u

/-- The session is on the arena, and one element alone is selected. -/
structure StandsOn (s : Session) (a : Arena) (h : Handle) : Prop where
  arena : s.arena = a
  selection : s.selection = .single h

/-- From the first element alone the requests lead to the second one. -/
def Leads (a : Arena) (h : Handle) (rs : List Request) (k : Handle) : Prop :=
  ∀ s : Session, s.StandsOn a h → ∃ t, s.Visits rs t ∧ t.StandsOn a k

theorem Visits.append (first : s.Visits rs t) (later : t.Visits rs' u) : s.Visits (rs ++ rs') u := by
  induction first with
  | stay => exact later
  | move run kept reached alone _ ih => exact .move run kept reached alone (ih later)

theorem visits_of_move (carries : r.carryOut = Except.mapError .select <$> move target)
    (moved : (target s.selection s.arena).run = .ok (.ok (.single h))) (reached : s.arena.Reachable h) :
    ∃ t, s.Visits [r] t ∧ t.StandsOn s.arena h := by
  have run : r.carryOut.run s = .ok (.ok (), { s with grow := .inactive, selection := .single h }) := by
    rw [carries]
    exact SessionStep.run_map_eq_ok.mpr ⟨_, run_move moved, rfl⟩
  exact ⟨_, .move run rfl reached rfl (.stay _), rfl, rfl⟩

theorem leads_of_move (carries : r.carryOut = Except.mapError .select <$> move target)
    (moved : (target (.single h) a).run = .ok (.ok (.single k))) (reached : a.Reachable k) :
    Leads a h [r] k := by
  rintro s ⟨rfl, selected⟩
  rw [← selected] at moved
  exact visits_of_move carries moved reached

theorem leads_nil (a : Arena) (h : Handle) : Leads a h [] h := fun s stands => ⟨s, .stay s, stands⟩

theorem Leads.append (first : Leads a h rs k) (later : Leads a k rs' l) : Leads a h (rs ++ rs') l := by
  intro s stands
  obtain ⟨t, visits, stands⟩ := first s stands
  obtain ⟨u, visits', stands⟩ := later t stands
  exact ⟨u, visits.append visits', stands⟩

/-! ### Up, down and to the side -/

theorem leads_parent (wf : a.WellFormed) (reached : a.Reachable h) (owned : a.owner? h = some p) :
    Leads a h [.selectParent] p :=
  leads_of_move rfl (Selection.run_toParent wf reached owned) (reached.owner wf owned)

theorem leads_child (wf : a.WellFormed) (holds : a.Holds p (c :: cs)) :
    Leads a p [.selectChild] c :=
  leads_of_move rfl (Selection.run_toChild wf holds) (holds.reachable List.mem_cons_self)

theorem leads_next (wf : a.WellFormed) (holds : a.Holds p cs) (found : cs[i]? = some h)
    (next : cs[i + 1]? = some k) : Leads a h [.selectSibling .next] k :=
  leads_of_move rfl (Selection.run_toNext wf holds found next)
    (holds.reachable (List.mem_of_getElem? next))

theorem leads_navigation (wf : a.WellFormed) (reached : a.Reachable h) (navigates : r.Navigates) :
    ∃ k, a.Reachable k ∧ Leads a h [r] k := by
  cases navigates with
  | parent =>
    obtain ⟨k, reached', moved⟩ := Selection.toParent_single wf reached
    exact ⟨k, reached', leads_of_move rfl moved reached'⟩
  | child =>
    obtain ⟨k, reached', moved⟩ := Selection.toChild_single wf reached
    exact ⟨k, reached', leads_of_move rfl moved reached'⟩
  | sibling d =>
    obtain ⟨k, reached', moved⟩ := Selection.toSibling_single wf reached d
    exact ⟨k, reached', leads_of_move rfl moved reached'⟩
  | outermostSibling d =>
    obtain ⟨k, reached', moved⟩ := Selection.toOutermostSibling_single wf reached d
    exact ⟨k, reached', leads_of_move rfl moved reached'⟩

/-- Every way of moves can be gone, and ends at an element of the expression. -/
theorem leads_navigations (wf : a.WellFormed) (reached : a.Reachable h)
    (navigate : ∀ r ∈ rs, r.Navigates) : ∃ k, a.Reachable k ∧ Leads a h rs k := by
  induction rs generalizing h with
  | nil => exact ⟨h, reached, leads_nil a h⟩
  | cons r rs ih =>
    obtain ⟨first, others⟩ := List.forall_mem_cons.mp navigate
    obtain ⟨k, reached, leads⟩ := leads_navigation wf reached first
    obtain ⟨l, reached, later⟩ := ih reached others
    exact ⟨l, reached, leads.append later⟩

/-- Parent after parent, up to the root. -/
theorem leads_to_root (wf : a.WellFormed) (reached : a.Reachable h) :
    ∃ count, Leads a h (List.replicate count .selectParent) a.root := by
  induction reached with
  | root => exact ⟨0, leads_nil a a.root⟩
  | @child p c n above stored member ih =>
    obtain ⟨count, leads⟩ := ih
    have first := leads_parent wf (above.child stored member) (wf.records stored c member)
    exact ⟨count + 1, first.append leads⟩

theorem leads_along (wf : a.WellFormed) (holds : a.Holds p cs) (first : cs[0]? = some h)
    (found : cs[i]? = some k) : Leads a h (List.replicate i (.selectSibling .next)) k := by
  induction i generalizing k with
  | zero =>
    cases first.symm.trans found
    exact leads_nil a h
  | succ i ih =>
    obtain ⟨inside, -⟩ := List.getElem?_eq_some_iff.mp found
    have before : cs[i]? = some cs[i] := List.getElem?_eq_getElem (by omega)
    rw [List.replicate_succ']
    exact (ih before).append (leads_next wf holds before found)

/-- Down along the way from the root. Among the children of each element on it, the first one is
selected and then one after the other up to the next element of the way. -/
theorem leads_from_root (wf : a.WellFormed) (reached : a.Reachable h) :
    ∃ rs, (∀ r ∈ rs, r = .selectChild ∨ r = .selectSibling .next) ∧ Leads a a.root rs h := by
  induction reached with
  | root => exact ⟨[], nofun, leads_nil a a.root⟩
  | @child p c n above stored member ih =>
    obtain ⟨rs, arrows, leads⟩ := ih
    obtain ⟨i, found⟩ := List.mem_iff_getElem?.mp member
    obtain ⟨eldest, others, children⟩ := List.exists_cons_of_ne_nil (List.ne_nil_of_mem member)
    rw [children] at found
    have holds : a.Holds p (eldest :: others) := ⟨above, n, stored, children⟩
    refine ⟨rs ++ ([.selectChild] ++ List.replicate i (.selectSibling .next)), ?_,
      leads.append ((leads_child wf holds).append (leads_along wf holds rfl found))⟩
    intro r inside
    simp only [List.mem_append, List.mem_singleton, List.mem_replicate] at inside
    rcases inside with inside | rfl | ⟨-, rfl⟩
    · exact arrows r inside
    · exact .inl rfl
    · exact .inr rfl

theorem leads_down_and_up (wf : a.WellFormed) (holds : a.Holds p (c :: cs)) :
    Leads a p [.selectChild, .selectParent] p :=
  (leads_child wf holds).append (leads_parent wf (holds.reachable List.mem_cons_self)
    (holds.owner? wf List.mem_cons_self))

/-- From what is selected, be it one element or a run, up to the root. -/
theorem visits_root (wf : s.arena.WellFormed) (valid : s.selection.Valid s.arena) :
    ∃ count t, s.Visits (List.replicate count .selectParent) t ∧ t.StandsOn s.arena s.arena.root := by
  have reached := valid.reached s.selection.first List.mem_cons_self
  cases owned : s.arena.owner? s.selection.first with
  | none => exact ⟨0, s, .stay s, rfl, valid.eq_ofRoot wf owned⟩
  | some p =>
    obtain ⟨t, visits, stands⟩ := visits_of_move (r := .selectParent) rfl
      (Selection.run_toParent wf reached owned) (reached.owner wf owned)
    obtain ⟨count, leads⟩ := leads_to_root wf (reached.owner wf owned)
    obtain ⟨u, visits', stands⟩ := leads t stands
    exact ⟨count + 1, u, visits.append visits', stands⟩

/-- However a session was used, its selection can be moved from parent to parent up to the root, and
from the root the arrows down and to the next sibling lead to every element of the expression, an
only child included. Whatever moves without growing are made from the root, they select one element
of the expression at a time, and the parent of a first child is where one came from. -/
theorem arrows_reach_every_element (starts : Starts start) (reaches : Reaches start s) :
    (∃ count t, s.Visits (List.replicate count .selectParent) t ∧
      t.StandsOn s.arena s.arena.root) ∧
    (∀ h, s.arena.Reachable h → ∃ rs, (∀ r ∈ rs, r = .selectChild ∨ r = .selectSibling .next) ∧
      Leads s.arena s.arena.root rs h) ∧
    (∀ rs, (∀ r ∈ rs, r.Navigates) → ∃ k, s.arena.Reachable k ∧
      Leads s.arena s.arena.root rs k) ∧
    ∀ h n, s.arena.Reachable h → s.arena.get? h = some n → n.element.children ≠ [] →
      Leads s.arena h [.selectChild, .selectParent] h := by
  have sound := reaches.sound starts.sound.1
  refine ⟨visits_root sound.wf sound.valid, fun h reached => leads_from_root sound.wf reached,
    fun rs navigate => leads_navigations sound.wf .root navigate, fun h n reached stored spelled => ?_⟩
  obtain ⟨c, cs, children⟩ := List.exists_cons_of_ne_nil spelled
  exact leads_down_and_up sound.wf ⟨reached, n, stored, children⟩

/-- The arena of `a - b`. The negation at the fourth place has `b` as its only child. -/
def difference : Arena where
  places := #[some ⟨none, .root ⟨5⟩⟩, none, some ⟨some ⟨5⟩, .symbol "a"⟩,
    some ⟨some ⟨4⟩, .symbol "b"⟩, some ⟨some ⟨5⟩, .negation ⟨3⟩⟩, some ⟨some ⟨0⟩, .sum [⟨2⟩, ⟨4⟩]⟩]
  root := ⟨0⟩

/-- In `a - b`, the only child of the negation can be reached, and left again. -/
theorem arrows_reach_every_element_of_difference : ∃ start s,
    ofText ['a', '-', 'b'] = .ok (.ok start) ∧
    (Request.select [⟨3⟩]).carryOut.run start = .ok (.ok (), s) ∧ s.selection = .single ⟨3⟩ ∧
    s.arena.get? ⟨4⟩ = some ⟨some ⟨5⟩, .negation ⟨3⟩⟩ ∧
    (∃ count t, s.Visits (List.replicate count .selectParent) t ∧
      t.StandsOn s.arena s.arena.root) ∧
    (∃ rs, (∀ r ∈ rs, r = .selectChild ∨ r = .selectSibling .next) ∧
      Leads s.arena s.arena.root rs ⟨3⟩) ∧
    Leads s.arena ⟨4⟩ [.selectChild, .selectParent] ⟨4⟩ := by
  have started : ofText ['a', '-', 'b'] = .ok (.ok (ofArena difference)) := rfl
  have selected : (Request.select [⟨3⟩]).carryOut.run (ofArena difference) =
      .ok (.ok (), ⟨difference, .single ⟨3⟩, .inactive⟩) := rfl
  obtain ⟨up, down, -, back⟩ :=
    arrows_reach_every_element (.ofText started) (Reaches.start.step selected)
  have sum : difference.Reachable ⟨5⟩ := .child .root (n := ⟨none, .root ⟨5⟩⟩) rfl (by decide)
  have negation : difference.Reachable ⟨4⟩ :=
    sum.child (n := ⟨some ⟨0⟩, .sum [⟨2⟩, ⟨4⟩]⟩) rfl (by decide)
  have operand : difference.Reachable ⟨3⟩ :=
    negation.child (n := ⟨some ⟨5⟩, .negation ⟨3⟩⟩) rfl (by decide)
  exact ⟨_, _, started, selected, rfl, rfl, up, down ⟨3⟩ operand,
    back ⟨4⟩ ⟨some ⟨5⟩, .negation ⟨3⟩⟩ negation rfl (by decide)⟩

end Session

end AlgebraEditor
