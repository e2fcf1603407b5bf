import AlgebraEditor.Proofs.Arena.Grouping
import AlgebraEditor.Proofs.Arena.Splicing
import AlgebraEditor.Proofs.Law.Rearrangement

/-!
# Splicing a list into its parent

A list in a list of its kind leaves its slot to copies of its children. This undoes the grouping of
neighbouring children.
-/

namespace AlgebraEditor

theorem Kind.isLeaf_of_isList {k : Kind} (isList : k.isList = true) : k.isLeaf = false := by
  cases k with
  | product | sum => rfl
  | _ => cases isList

namespace Arena

open Term

variable {a b : Arena} {h p r x : Handle} {rs before after : List Handle} {e : Element} {n m : Node}
  {ts : List Term}

/-! ### Several elements for one -/

/-- The new elements `rs`, which denote `ts`, have taken the slot of `h` in the container `p`, and
nothing else has changed. -/
structure Supplanted (a : Arena) (p h : Handle) (ts : List Term) (rs : List Handle) (b : Arena) : Prop
    extends Evolves a b where
  fresh : ∀ r ∈ rs, a.get? r = none
  denotes : rs.map b.denote = ts
  slot : ∀ {n before after}, a.get? p = some n → n.element.children = before ++ h :: after →
    ∃ e, b.get? p = some ⟨n.parent, e⟩ ∧ e.kind = n.element.kind ∧
      e.children = before ++ rs ++ after
  left : ∀ {n}, a.get? h = some n → b.get? h = some ⟨none, n.element⟩
  kept : ∀ {x n}, a.get? x = some n → x ≠ p → x ≠ h → b.get? x = some n

theorem supplanted_rewire (wf : a.WellFormed) (adds : a.Adds ts rs b) (stored : a.get? p = some m)
    (children : m.element.children = before ++ h :: after) (fits : b.Rewirable p e)
    (kind : e.kind = m.element.kind) (slots : e.children = before ++ rs ++ after) :
    a.Supplanted p h ts rs (b.rewire p e) := by
  have stored' := adds.stored stored
  have distinct := wf.distinct stored
  rw [children, List.nodup_middle, List.nodup_cons, List.mem_append, not_or] at distinct
  have member : h ∈ m.element.children := by simp [children]
  have owned := wf.records stored h member
  -- what was there before stays in the container or out of it, but for the child
  have stays : ∀ {x n}, a.get? x = some n →
      (x ∈ e.children ↔ a.owner? x = some p ∧ x ≠ h) := by
    intro x n held
    have old : x ∉ rs := fun new => nomatch (adds.fresh new).symm.trans held
    rw [slots, ← wf.mem_children_iff stored, children]
    grind
  refine ⟨adds.evolves.rewire stored' fits, fun r => adds.fresh, ?_, fun held children' => ?_,
    fun held => ?_, fun held notContainer other => ?_⟩
  · rw [← adds.denotes]
    refine List.map_congr_left fun r new => ?_
    have attachable := adds.attachable wf stored new
    obtain ⟨k, found⟩ := attachable.stored
    exact adds.wf.denote_rewire (adds.wf.rewire stored' fits) found (Ne.symm attachable.other)
      attachable.not_above
  · cases stored.symm.trans held
    obtain ⟨rfl, -, rfl⟩ := (List.append_cons_inj_of_notMem distinct.1.1 distinct.1.2).mp
      (children.symm.trans children')
    exact ⟨e, fits.get?_container adds.wf stored', kind, slots⟩
  · refine get?_rewire_of_left (adds.stored held) (wf.irrefl owned)
      (fun inside => ((stays held).mp inside).2 rfl) ?_
    rw [← owner?_of_get? held, owned]
  · refine get?_rewire_of_iff (adds.stored held) notContainer ?_
    rw [stays held, owner?_of_get? held, and_iff_left other]

namespace Supplanted

theorem spliced (supplanted : a.Supplanted p h ts rs b) (owned : a.owner? h = some p) :
    a.Spliced p h rs b where
  toEvolves := supplanted.toEvolves
  owned := owned
  fresh r stands _ := supplanted.fresh r stands
  slot := supplanted.slot
  kept stored container outside := supplanted.kept stored container fun same => outside (.inl same)

/-- Elements that were copied into the slot are equal to their copies. -/
theorem equalAcross_copy {cs : List Handle} {i : Nat} {c : Handle}
    (supplanted : a.Supplanted p h (cs.map a.denote) rs b) (wf : a.WellFormed)
    (owned : a.owner? h = some p) (stored : ∀ c ∈ cs, ∃ n, a.get? c = some n)
    (child : cs[i]? = some c) (copy : rs[i]? = some r) : a.equalAcross b c r = .ok true := by
  obtain ⟨n, held⟩ := stored c (List.mem_of_getElem? child)
  obtain ⟨m, found⟩ := Arena.stored_of_owner?
    ((supplanted.spliced owned).owner?_slot wf (List.mem_of_getElem? copy))
  obtain ⟨same, compared, equal⟩ := wf.equalAcross_eq_ok supplanted.wf held found
  have denotes := congrArg (·[i]?) supplanted.denotes
  simp only [List.getElem?_map, child, copy, Option.map_some] at denotes
  obtain rfl := equal.mpr (Option.some.inj denotes).symm
  exact compared

theorem denote_eq (supplanted : a.Supplanted p h ts rs b) (wf : a.WellFormed)
    (stored : a.get? x = some n) (outside : ¬ a.Encloses x p) : b.denote x = a.denote x := by
  refine wf.denote_of_ne supplanted.wf (fun {y m} held notContainer => ?_) stored outside
  by_cases same : y = h
  · subst same
    exact ⟨_, supplanted.left held, rfl⟩
  · exact ⟨m, supplanted.kept held notContainer same, rfl⟩

end Supplanted

theorem Groups.stored {o : Arena} {hs : List Handle} (groups : o.Groups a p h before hs after)
    (stored : o.get? x = some n) : ∃ m, a.get? x = some m := by
  by_cases container : x = p
  · subst container
    obtain ⟨_, _, _, _, ⟨m, held, _⟩, _⟩ := groups.lists
    exact ⟨m, held⟩
  · obtain ⟨m, held, _⟩ := groups.others stored container
    exact ⟨m, held⟩

/-- A group that leaves its slot to what its children denote is undone: everything denotes what it
did before the grouping. -/
theorem Groups.undone {o : Arena} {hs : List Handle} (groups : o.Groups a p h before hs after)
    (wf : o.WellFormed) (supplanted : a.Supplanted p h (hs.map a.denote) rs b)
    (stored : o.get? x = some n) : b.denote x = o.denote x := by
  obtain ⟨k, outer, isList, children, ⟨m, held, slots⟩, g, group, grouped⟩ := groups.lists
  have owned : a.owner? h = some p := by
    refine groups.wf.records held h ?_
    rw [slots, Element.children_modifyList _ isList]
    simp
  refine wf.induction (motive := fun x => b.denote x = o.denote x) (fun x n stored ih => ?_) stored
  by_cases container : x = p
  · subst container
    cases stored.symm.trans outer
    obtain ⟨e, held', kind, spliced⟩ := supplanted.slot held
      (by rw [slots, Element.children_modifyList _ isList])
    rw [slots, Element.kind_modifyList] at kind
    have below : ∀ c ∈ k.element.children, b.denote c = o.denote c := fun c member =>
      ih c (wf.isAbove_child stored member)
    -- the copies denote what the children of the group do, which lie below the list
    have copies : rs.map b.denote = hs.map b.denote := by
      rw [supplanted.denotes]
      refine List.map_congr_left fun c member => ?_
      have owned' : a.owner? c = some h := by
        refine groups.wf.records group c ?_
        rwa [grouped, Element.children_modifyList _ isList]
      obtain ⟨m', found⟩ := Arena.stored_of_owner? owned'
      refine (supplanted.denote_eq groups.wf found fun encloses => ?_).symm
      exact groups.wf.not_encloses_owner owned'
        (.inr (encloses.above (isAbove_of_owner? owned)))
    rw [supplanted.wf.denote_eq held', wf.denote_eq stored,
      Element.toTerm_eq_iff (kind ▸ Kind.isLeaf_of_isList isList)]
    refine ⟨kind, ?_⟩
    rw [← List.map_congr_left below, spliced, children, List.map_append, List.map_append,
      List.map_append, List.map_append, copies]
  · obtain ⟨m', found, same⟩ := groups.others stored container
    have other : x ≠ h := by
      rintro rfl
      cases groups.fresh.symm.trans stored
    rw [supplanted.wf.denote_eq (supplanted.kept found container other), wf.denote_eq stored, same]
    exact Element.toTerm_congr fun c member => ih c (wf.isAbove_child stored member)

theorem Groups.restored {o : Arena} {hs : List Handle} (groups : o.Groups a p h before hs after)
    (wf : o.WellFormed) (supplanted : a.Supplanted p h (hs.map a.denote) rs b)
    (stored : o.get? x = some n) : o.equalAcross b x x = .ok true := by
  obtain ⟨k, grouped⟩ := groups.stored stored
  obtain ⟨k', found⟩ := supplanted.stored grouped
  obtain ⟨same, compared, equal⟩ := wf.equalAcross_eq_ok supplanted.wf stored found
  obtain rfl := equal.mpr (groups.undone wf supplanted stored).symm
  exact compared

end Arena

namespace Law

open Arena

variable {a b : Arena} {h p : Handle} {rs before after : List Handle} {e : Element} {n m : Node}

/-- Unnesting that does something is done to a list in a list of its kind, and leaves copies of the
children in its slot. -/
theorem supplanted_of_run_unnest (wf : a.WellFormed) (stored : a.get? h = some n)
    (run : (unnest h).run a = .ok (some rs) b) : ∃ p m, a.owner? h = some p ∧ a.get? p = some m ∧
      n.element.kind.isList = true ∧ m.element.kind = n.element.kind ∧
      a.Supplanted p h (n.element.children.map a.denote) rs b := by
  obtain ⟨same, _⟩ | ⟨p, m, owned, held, isList, kind, ⟨_, failed⟩ |
    ⟨e, before, after, _, d, adds, fits, kind', children, slots, same⟩⟩ := run_unnest wf stored
  · cases same.symm.trans run
  · exact absurd run (failed _ _)
  cases same.symm.trans run
  exact ⟨p, m, owned, held, isList, kind,
    supplanted_rewire wf adds held children fits kind' slots⟩

theorem run_unnest_of_nested (wf : a.WellFormed) (stored : a.get? h = some n)
    (owned : a.owner? h = some p) (held : a.get? p = some m) (isList : n.element.kind.isList = true)
    (kind : m.element.kind = n.element.kind) (nonempty : n.element.children ≠ []) :
    ∃ rs b, (unnest h).run a = .ok (some rs) b := by
  obtain ⟨_, other⟩ | ⟨_, _, _, _, _, _, ⟨empty, _⟩ |
    ⟨_, _, _, _, _, _, _, _, _, _, same⟩⟩ := run_unnest wf stored
  · exact absurd kind (other p m owned held isList)
  · exact absurd empty nonempty
  · exact ⟨_, _, same⟩

/-- An element that is no empty list is unnested exactly if it is a sum in a sum or a product in a
product; otherwise nothing is done. New elements then stand in its slot, one for each of its children
in their order and equal to it, and it is left with all that lies in it. A group of neighbouring
children of a list can be unnested, and everything is then equal to what it was before the
grouping. -/
theorem unnest_splices (wf : a.WellFormed) (stored : a.get? h = some ⟨some p, e⟩)
    (around : a.get? p = some m) (children : m.element.children = before ++ h :: after)
    (nonempty : e.kind.isList = true → e.children ≠ []) :
    ((∃ rs b, (unnest h).run a = .ok (some rs) b) ↔
      e.kind.isList = true ∧ m.element.kind = e.kind) ∧
    (¬ (e.kind.isList = true ∧ m.element.kind = e.kind) → (unnest h).run a = .ok none a) ∧
    (∀ rs b, (unnest h).run a = .ok (some rs) b →
      (∃ e', b.get? p = some ⟨m.parent, e'⟩ ∧ e'.kind = m.element.kind ∧
        e'.children = before ++ rs ++ after) ∧
      rs.length = e.children.length ∧
      (∀ (i : Nat) c r, e.children[i]? = some c → rs[i]? = some r →
        a.get? r = none ∧ a.equalAcross b c r = .ok true) ∧
      b.get? h = some ⟨none, e⟩ ∧
      ∀ x n, a.get? x = some n → x ≠ p → x ≠ h → b.get? x = some n) ∧
    ∀ (o : Arena) bs hs as, o.WellFormed → o.Groups a p h bs hs as → ∃ rs b,
      (unnest h).run a = .ok (some rs) b ∧
      ∀ x n, o.get? x = some n → o.equalAcross b x x = .ok true := by
  have owned : a.owner? h = some p := owner?_of_get? stored
  have acts : e.kind.isList = true ∧ m.element.kind = e.kind →
      ∃ rs b, (unnest h).run a = .ok (some rs) b := fun ⟨isList, kind⟩ =>
    run_unnest_of_nested wf stored owned around isList kind (nonempty isList)
  refine ⟨⟨?_, acts⟩, fun apart => ?_, fun rs b run => ?_, fun o bs hs as wf' groups => ?_⟩
  · rintro ⟨rs, b, run⟩
    obtain ⟨q, k, owned', held, isList, kind, _⟩ := supplanted_of_run_unnest wf stored run
    cases owned.symm.trans owned'
    cases around.symm.trans held
    exact ⟨isList, kind⟩
  · obtain ⟨same, _⟩ | ⟨q, k, owned', held, isList, kind, _⟩ := run_unnest wf stored
    · exact same
    · cases owned.symm.trans owned'
      cases around.symm.trans held
      exact absurd ⟨isList, kind⟩ apart
  · obtain ⟨q, k, owned', _, _, _, supplanted⟩ := supplanted_of_run_unnest wf stored run
    cases owned.symm.trans owned'
    have length := congrArg List.length supplanted.denotes
    rw [List.length_map, List.length_map] at length
    refine ⟨supplanted.slot around children, length, fun i c r child copy => ?_,
      supplanted.left stored, fun _ _ => supplanted.kept⟩
    exact ⟨supplanted.fresh r (List.mem_of_getElem? copy), supplanted.equalAcross_copy wf owned
      (fun _ => wf.stored_of_mem_children stored) child copy⟩
  · obtain ⟨k, _, isList, _, ⟨m', outer, slots⟩, g, group, grouped⟩ := groups.lists
    cases around.symm.trans outer
    cases stored.symm.trans group
    obtain rfl : e = k.element.modifyList fun _ => hs := grouped
    obtain ⟨rs, b, run⟩ := acts (by simp [slots, isList])
    obtain ⟨q, _, owned', _, _, _, supplanted⟩ := supplanted_of_run_unnest wf stored run
    cases owned.symm.trans owned'
    rw [Element.children_modifyList _ isList] at supplanted
    exact ⟨rs, b, run, fun x n held => groups.restored wf' supplanted held⟩

/-- In `a + (b + c) + d` the inner sum goes, and the group that `b` and `c` form in `a + b + c + d`
is undone. -/
theorem unnest_splices_inner_sum :
    (∃ a : Arena, a.WellFormed ∧ a.get? ⟨4⟩ = some ⟨some ⟨2⟩, .sum [⟨5⟩, ⟨6⟩]⟩ ∧
      a.get? ⟨2⟩ = some ⟨some ⟨0⟩, .sum [⟨3⟩, ⟨4⟩, ⟨7⟩]⟩ ∧
      ∃ rs b, (unnest ⟨4⟩).run a = .ok (some rs) b ∧ rs.length = 2 ∧
        (∃ e, b.get? ⟨2⟩ = some ⟨some ⟨0⟩, e⟩ ∧ e.kind = .sum ∧
          e.children = [⟨3⟩] ++ rs ++ [⟨7⟩]) ∧
        b.get? ⟨4⟩ = some ⟨none, .sum [⟨5⟩, ⟨6⟩]⟩) ∧
    ∃ (o a : Arena) (g : Handle), o.WellFormed ∧
      o.get? ⟨2⟩ = some ⟨some ⟨0⟩, .sum [⟨3⟩, ⟨4⟩, ⟨5⟩, ⟨6⟩]⟩ ∧
      o.Groups a ⟨2⟩ g [⟨3⟩] [⟨4⟩, ⟨5⟩] [⟨6⟩] ∧
      ∃ rs b, (unnest g).run a = .ok (some rs) b ∧ o.equalAcross b ⟨2⟩ ⟨2⟩ = .ok true := by
  constructor
  · obtain ⟨a, same⟩ : ∃ a, a = (zero.plant (.sum [.symbol "a",
      .sum [.symbol "b", .symbol "c"], .symbol "d"])).rewire ⟨0⟩ (.root ⟨2⟩) := ⟨_, rfl⟩
    have wf : a.WellFormed := by rw [same]; exact Edit.wellFormed_expression (by decide)
    have stored : a.get? ⟨4⟩ = some ⟨some ⟨2⟩, .sum [⟨5⟩, ⟨6⟩]⟩ := by rw [same]; rfl
    have around : a.get? ⟨2⟩ = some ⟨some ⟨0⟩, .sum [⟨3⟩, ⟨4⟩, ⟨7⟩]⟩ := by rw [same]; rfl
    have slots : (Element.sum [⟨3⟩, ⟨4⟩, ⟨7⟩]).children = [⟨3⟩] ++ ⟨4⟩ :: [⟨7⟩] := rfl
    obtain ⟨acts, _, spliced, _⟩ := unnest_splices wf stored around slots
      (by simp [Element.children])
    obtain ⟨rs, b, run⟩ := acts.mpr ⟨rfl, rfl⟩
    obtain ⟨slots, length, _, left, _⟩ := spliced rs b run
    exact ⟨a, wf, stored, around, rs, b, run, length, slots, left⟩
  · obtain ⟨o, same⟩ : ∃ o, o = (zero.plant (.sum [.symbol "a", .symbol "b", .symbol "c",
      .symbol "d"])).rewire ⟨0⟩ (.root ⟨2⟩) := ⟨_, rfl⟩
    have wf : o.WellFormed := by rw [same]; exact Edit.wellFormed_expression (by decide)
    have list : o.get? ⟨2⟩ = some ⟨some ⟨0⟩, .sum [⟨3⟩, ⟨4⟩, ⟨5⟩, ⟨6⟩]⟩ := by rw [same]; rfl
    have parts : (Element.sum [⟨3⟩, ⟨4⟩, ⟨5⟩, ⟨6⟩]).children = [⟨3⟩] ++ [⟨4⟩, ⟨5⟩] ++ [⟨6⟩] := rfl
    obtain ⟨a, g, groups⟩ := wf.exists_groups list rfl parts
    obtain ⟨k, held, _, _, ⟨m, around, slots⟩, n, group, grouped⟩ := groups.lists
    cases list.symm.trans held
    have owned := groups.wf.records around g (by simp [slots, Element.modifyList, Element.children])
    have stored : a.get? g = some ⟨some ⟨2⟩, n.element⟩ := by
      rw [group, ← owned, owner?_of_get? group]
    have outer : m.element.children = [⟨3⟩] ++ g :: [⟨6⟩] := by
      simp [slots, Element.modifyList, Element.children]
    obtain ⟨_, _, _, undone⟩ := unnest_splices groups.wf stored around outer
      (by simp [grouped, Element.modifyList, Element.children])
    obtain ⟨rs, b, run, equal⟩ := undone o _ _ _ wf groups
    exact ⟨o, a, g, wf, list, groups, rs, b, run, equal _ _ list⟩

end Law

end AlgebraEditor
