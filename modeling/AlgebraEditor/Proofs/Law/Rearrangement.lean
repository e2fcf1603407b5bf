import AlgebraEditor.Law.Rearrangement
import AlgebraEditor.Proofs.Law.Basic
import Mathlib.Logic.Equiv.Basic

/-!
# Rearranging lists

Splicing copies into a list and exchanging two children leave the list with the children that it
should have, in some order, and the order is no matter to its value.
-/

namespace AlgebraEditor

/-- The arena with two more elements, which hold the slots of others for a while. -/
def Arena.placeholders (a : Arena) : Arena := (a.plant (.integer 0)).plant (.integer 0)

namespace Law

open Arena

variable {a b : Arena} {h p x y : Handle} {hs before after : List Handle} {n m : Node}
  {r : Option (List Handle)}

/-! ### Regrouping -/

/-- Inserting free elements into a list rewires the list. -/
theorem run_insertRun (wf : a.WellFormed) {list : Handle} (stored : a.get? list = some n)
    (isList : n.element.kind.isList = true) (children : n.element.children = before ++ after)
    (nodup : hs.Nodup) (fits : ∀ x ∈ hs, a.Attachable list x) :
    ∃ e, (insertRun list before.length hs).run a = .ok () (a.rewire list e) ∧ a.Rewirable list e ∧
      e.kind = n.element.kind ∧ e.children = before ++ hs ++ after := by
  induction hs generalizing a n before with
  | nil =>
    exact ⟨n.element, by rw [rewire_self wf stored]; rfl, wf.rewirable_self stored, rfl,
      by rw [children, List.append_nil]⟩
  | cons x hs ih =>
    obtain ⟨fresh, nodup⟩ := List.nodup_cons.mp nodup
    obtain ⟨fit, fits⟩ := List.forall_mem_cons.mp fits
    have short : before.length ≤ n.element.children.length := by
      rw [children, List.length_append]
      omega
    have rewirable := Edit.rewirable_insert wf stored isList short fit
    have inserted := (Edit.run_insertChild_eq_ok (r := ()) wf).mpr
      ⟨n, stored, isList, short, fit, rfl⟩
    have stored' := get?_rewire_of_stored (c := list)
      (e := n.element.modifyList (·.insertIdx before.length x)) stored
    have element := element_rewired_self list
      (n.element.modifyList (·.insertIdx before.length x)) n
    have slots : (n.rewired list (n.element.modifyList (·.insertIdx before.length x))
        list).element.children = before ++ [x] ++ after := by
      rw [element, Element.children_modifyList _ isList, children, insertIdx_between,
        List.append_assoc]
      rfl
    obtain ⟨e, run, later, kind, children'⟩ := ih (wf.rewire stored rewirable) stored'
      (by rw [element]; simpa using isList) slots nodup (fun y member => by
        refine (fits y member).rewire wf (fun held => ?_) rewirable
        have outside := (fits y member).not_mem_children wf stored
        rw [element] at slots
        rw [slots, List.append_assoc, List.mem_append, List.mem_append, List.mem_singleton] at held
        rw [children, List.mem_append] at outside
        rcases held with held | rfl | held
        · exact outside (.inl held)
        · exact fresh member
        · exact outside (.inr held))
    rw [element, Element.kind_modifyList] at kind
    rw [rewire_rewire rewirable, List.length_append, List.length_singleton] at run
    refine ⟨e, ?_, rewirable.trans wf later, kind, by rw [children']; simp⟩
    rw [insertRun, Edit.run_bind_of_ok inserted]
    exact run

/-- Free elements take the place of a child of a list. -/
theorem run_splice (wf : a.WellFormed) {first : Handle} {rest : List Handle}
    (stored : a.get? p = some m) (isList : m.element.kind.isList = true)
    (children : m.element.children = before ++ h :: after) (nodup : (first :: rest).Nodup)
    (fits : ∀ x ∈ first :: rest, a.Attachable p x) :
    ∃ e, (do Edit.replace p h first; insertRun p (before.length + 1) rest : Edit Unit).run a =
        .ok () (a.rewire p e) ∧ a.Rewirable p e ∧ e.kind = m.element.kind ∧
      e.children = before ++ first :: rest ++ after := by
  obtain ⟨fresh, nodup⟩ := List.nodup_cons.mp nodup
  obtain ⟨fit, fits⟩ := List.forall_mem_cons.mp fits
  have member : h ∈ m.element.children := by rw [children]; simp
  have distinct := wf.distinct stored
  have other : h ≠ first := by
    rintro rfl
    exact fit.not_mem_children wf stored member
  have rewirable := Edit.rewirable_replace wf stored member fit
  have replaced := (Edit.run_replace_eq_ok (r := ()) wf).mpr
    ⟨m, stored, member, .inr ⟨other, fit, rfl⟩⟩
  have element := element_rewired_self p (m.element.replaceChild h first) m
  have slots : (m.rewired p (m.element.replaceChild h first) p).element.children =
      before ++ [first] ++ after := by
    rw [children] at distinct
    rw [element, Element.children_replaceChild, children,
      replace_between (not_mem_before distinct), List.append_assoc]
    rfl
  obtain ⟨e, run, later, kind, children'⟩ := run_insertRun (wf.rewire stored rewirable)
    (get?_rewire_of_stored stored) (by rw [element]; simpa using isList) slots nodup
    (fun y later => by
      refine (fits y later).rewire wf ?_ rewirable
      rw [Element.mem_replaceChild _ distinct member]
      rintro (rfl | ⟨held, _⟩)
      · exact fresh later
      · exact (fits y later).not_mem_children wf stored held)
  rw [element, Element.kind_replaceChild] at kind
  rw [rewire_rewire rewirable, List.length_append, List.length_singleton] at run
  refine ⟨e, ?_, rewirable.trans wf later, kind, by rw [children']; simp⟩
  rw [Edit.run_bind_of_ok replaced]
  exact run

/-- A list in a list of its kind gives its slot to copies of its children, if it has any. -/
theorem run_unnest_of_same_kind (wf : a.WellFormed) (stored : a.get? h = some n)
    (owned : a.owner? h = some p) (held : a.get? p = some m)
    (isList : n.element.kind.isList = true) (kind : m.element.kind = n.element.kind) :
    (n.element.children = [] ∧ ∀ r b, (unnest h).run a ≠ .ok r b) ∨
      ∃ e before after rs d, a.Adds (n.element.children.map a.denote) rs d ∧ d.Rewirable p e ∧
        e.kind = m.element.kind ∧ m.element.children = before ++ h :: after ∧
        e.children = before ++ rs ++ after ∧
        (unnest h).run a = .ok (some rs) (d.rewire p e) := by
  obtain ⟨rs, d, copied, adds⟩ := wf.builds_copies stored a (.refl a) wf
  obtain ⟨i, found⟩ := exists_idxOf? ((wf.mem_children_iff held).mpr owned)
  have position : a.childIndex p h = .ok (some i) := by
    rw [childIndex, children_of_get? held, ok_bind, found]
    rfl
  unfold unnest
  rw [Edit.parentOf, Edit.run_bind_of_ok (Edit.run_inspect_of_ok (parent_of_get? stored)), owned]
  dsimp only
  rw [Edit.kindOf, Edit.run_bind_of_ok (Edit.run_inspect_of_ok (kind_of_get? stored)), isList]
  simp only [Bool.not_true, Bool.false_eq_true, if_false]
  rw [Edit.kindOf, Edit.run_bind_of_ok (Edit.run_inspect_of_ok (kind_of_get? held)),
    if_neg (not_not.mpr kind), Edit.run_bind_of_ok (Edit.run_inspect_of_ok position)]
  dsimp only
  rw [Edit.childrenOf, Edit.run_bind_of_ok (Edit.run_inspect_of_ok (children_of_get? stored)),
    Edit.run_bind_of_ok copied]
  have fits := fun x (top : x ∈ rs) => adds.attachable wf held top
  cases rs with
  | nil =>
    refine .inl ⟨?_, fun _ _ same => by cases same⟩
    exact List.map_eq_nil_iff.mp adds.denotes.symm
  | cons first rest =>
    have slots := between_of_idxOf? found
    obtain ⟨e, run, fits, kind', children'⟩ := run_splice adds.wf (adds.stored held)
      (by rw [kind, isList]) slots adds.nodup fits
    rw [List.length_take_of_le (lt_of_idxOf? found).le] at run
    refine .inr ⟨e, _, _, _, d, adds, fits, kind', slots, children', ?_⟩
    obtain ⟨_, _, replaced, inserted⟩ := Edit.run_bind_eq_ok.mp run
    dsimp only
    rw [Edit.run_bind_of_ok replaced, Edit.run_bind_of_ok inserted]
    rfl

/-- Unnesting does nothing, or puts copies of the children of a list in the place of the list. It
fails on a list without children. -/
theorem run_unnest (wf : a.WellFormed) (stored : a.get? h = some n) :
    ((unnest h).run a = .ok none a ∧ ∀ p m, a.owner? h = some p → a.get? p = some m →
      n.element.kind.isList = true → m.element.kind ≠ n.element.kind) ∨
    ∃ p m, a.owner? h = some p ∧ a.get? p = some m ∧
      n.element.kind.isList = true ∧ m.element.kind = n.element.kind ∧
      ((n.element.children = [] ∧ ∀ r b, (unnest h).run a ≠ .ok r b) ∨
        ∃ e before after rs d, a.Adds (n.element.children.map a.denote) rs d ∧ d.Rewirable p e ∧
          e.kind = m.element.kind ∧ m.element.children = before ++ h :: after ∧
          e.children = before ++ rs ++ after ∧
          (unnest h).run a = .ok (some rs) (d.rewire p e)) := by
  cases owned : a.owner? h with
  | none =>
    refine .inl ⟨?_, fun _ _ same => by cases same⟩
    rw [unnest, Edit.parentOf, Edit.run_bind_of_ok (Edit.run_inspect_of_ok (parent_of_get? stored)),
      owned]
    rfl
  | some p =>
    obtain ⟨m, held⟩ := wf.stored_of_owner? owned
    by_cases same : n.element.kind.isList = true ∧ m.element.kind = n.element.kind
    · exact .inr ⟨p, m, rfl, held, same.1, same.2,
        run_unnest_of_same_kind wf stored owned held same.1 same.2⟩
    · refine .inl ⟨?_, ?_⟩
      · rw [unnest, Edit.parentOf,
          Edit.run_bind_of_ok (Edit.run_inspect_of_ok (parent_of_get? stored)), owned]
        dsimp only
        rw [Edit.kindOf, Edit.run_bind_of_ok (Edit.run_inspect_of_ok (kind_of_get? stored))]
        cases isList : n.element.kind.isList with
        | false => rfl
        | true =>
          simp only [Bool.not_true, Bool.false_eq_true, if_false]
          rw [Edit.kindOf, Edit.run_bind_of_ok (Edit.run_inspect_of_ok (kind_of_get? held)),
            if_pos fun kind => same ⟨isList, kind⟩]
          rfl
      · rintro q k ⟨⟩ held' isList kind
        cases held.symm.trans held'
        exact same ⟨isList, kind⟩

/-! ### Reordering -/

theorem run_replace_rewired (wf : a.WellFormed) (stored : a.get? p = some m) {e : Element}
    {old new : Handle} (rewirable : a.Rewirable p e) (member : old ∈ e.children)
    (other : old ≠ new) (fits : (a.rewire p e).Attachable p new) :
    (Edit.replace p old new).run (a.rewire p e) = .ok () (a.rewire p (e.replaceChild old new)) ∧
      a.Rewirable p (e.replaceChild old new) := by
  have wf' := wf.rewire stored rewirable
  have stored' := get?_rewire_of_stored (c := p) (e := e) stored
  have element := element_rewired_self p e m
  have later := Edit.rewirable_replace wf' stored' (by rwa [element]) fits
  have replaced := (Edit.run_replace_eq_ok (r := ()) wf').mpr
    ⟨_, stored', by rwa [element], .inr ⟨other, fits, rfl⟩⟩
  rw [element] at later replaced
  rw [rewire_rewire rewirable] at replaced
  exact ⟨replaced, rewirable.trans wf later⟩

/-- Two children leave their slots to free elements, and come back into each other's slot. -/
theorem run_exchange (wf : a.WellFormed) (stored : a.get? p = some m)
    (first : x ∈ m.element.children) (second : y ∈ m.element.children) (other : x ≠ y)
    {s t : Handle} (fits : a.Attachable p s) (fits' : a.Attachable p t) (apart : s ≠ t) :
    ∃ e, a.Rewirable p e ∧ e.kind = m.element.kind ∧ e.children.Perm m.element.children ∧
      e.children = m.element.children.map (Equiv.swap x y) ∧
      (do
        Edit.replace p x s
        Edit.replace p y t
        Edit.replace p s y
        Edit.replace p t x : Edit Unit).run a = .ok () (a.rewire p e) := by
  have held : ∀ z, z ∈ m.element.children → z ≠ s ∧ z ≠ t := by
    intro z member
    constructor
    · rintro rfl
      exact fits.not_mem_children wf stored member
    · rintro rfl
      exact fits'.not_mem_children wf stored member
  obtain ⟨xs, xt⟩ := held x first
  obtain ⟨ys, yt⟩ := held y second
  have owned := wf.records stored x first
  have owned' := wf.records stored y second
  have rewirable := wf.rewirable_self stored
  have same := rewire_self wf stored
  -- whether a replacement goes through depends on what stands in the slots after the last one
  obtain ⟨run₁, rewirable₁⟩ := run_replace_rewired wf stored rewirable first xs (by rwa [same])
  have slots₁ := fun {z} => Element.mem_replaceChild (y := z) s rewirable.nodup first
  have second₁ := slots₁.mpr (.inr ⟨second, Ne.symm other⟩)
  obtain ⟨run₂, rewirable₂⟩ := run_replace_rewired wf stored rewirable₁ second₁ yt
    (fits'.rewire wf (by grind) rewirable₁)
  have slots₂ := fun {z} => Element.mem_replaceChild (y := z) t rewirable₁.nodup second₁
  have first₂ := slots₂.mpr (.inr ⟨slots₁.mpr (.inl rfl), Ne.symm ys⟩)
  obtain ⟨run₃, rewirable₃⟩ := run_replace_rewired wf stored rewirable₂ first₂ (Ne.symm ys)
    (attachable_removed wf owned' (by grind) rewirable₂)
  have slots₃ := fun {z} => Element.mem_replaceChild (y := z) y rewirable₂.nodup first₂
  have second₃ := slots₃.mpr (.inr ⟨slots₂.mpr (.inl rfl), Ne.symm apart⟩)
  obtain ⟨run₄, rewirable₄⟩ := run_replace_rewired wf stored rewirable₃ second₃ (Ne.symm xt)
    (attachable_removed wf owned (by grind) rewirable₃)
  have slots₄ := fun {z} => Element.mem_replaceChild (y := z) x rewirable₃.nodup second₃
  rw [same] at run₁
  have all := (Edit.run_bind_of_ok (f := fun _ => _) run₁).trans
    ((Edit.run_bind_of_ok (f := fun _ => _) run₂).trans
      ((Edit.run_bind_of_ok (f := fun _ => _) run₃).trans run₄))
  refine ⟨_, rewirable₄, by simp, ?_, ?_, all⟩
  · rw [List.perm_ext_iff_of_nodup rewirable₄.nodup rewirable.nodup]
    intro z
    grind
  · rw [Element.children_replaceChild, replace_eq_map rewirable₃.nodup,
      Element.children_replaceChild, replace_eq_map rewirable₂.nodup,
      Element.children_replaceChild, replace_eq_map rewirable₁.nodup,
      Element.children_replaceChild, replace_eq_map rewirable.nodup]
    simp only [List.map_map]
    refine List.map_congr_left fun z member => ?_
    obtain ⟨zs, zt⟩ := held z member
    rw [Equiv.swap_apply_def]
    grind

theorem adds_placeholders (wf : a.WellFormed) :
    a.Adds [.integer 0, .integer 0] [a.next, (a.plant (.integer 0)).next] a.placeholders :=
  (Edit.adds_integer wf 0).trans (Edit.adds_integer (Edit.adds_integer wf 0).wf 0)

/-- Exchanging two children of a list goes through. -/
theorem run_swap (wf : a.WellFormed) (stored : a.get? p = some m) (isList : m.element.kind.isList = true)
    (first : x ∈ m.element.children) (second : y ∈ m.element.children) (other : x ≠ y) :
    ∃ e, a.placeholders.Rewirable p e ∧ e.kind = m.element.kind ∧
      e.children.Perm m.element.children ∧ e.children = m.element.children.map (Equiv.swap x y) ∧
      (swap p [x, y]).run a = .ok (some [x, y]) (a.placeholders.rewire p e) := by
  have adds := adds_placeholders wf
  have apart : a.next ≠ (a.plant (.integer 0)).next := ne_next_of_stored get?_plant_next
  obtain ⟨e, fits, kind, perm, exact, run⟩ := run_exchange adds.wf (adds.stored stored)
    first second other (adds.attachable wf stored List.mem_cons_self)
    (adds.attachable wf stored (List.mem_cons_of_mem _ (List.mem_singleton_self _))) apart
  refine ⟨e, fits, kind, perm, exact, ?_⟩
  obtain ⟨_, _, run₁, run⟩ := Edit.run_bind_eq_ok.mp run
  obtain ⟨_, _, run₂, run⟩ := Edit.run_bind_eq_ok.mp run
  obtain ⟨_, _, run₃, run₄⟩ := Edit.run_bind_eq_ok.mp run
  unfold swap
  dsimp only
  rw [Edit.kindOf, Edit.run_bind_of_ok (Edit.run_inspect_of_ok (kind_of_get? stored)), isList]
  simp only [Bool.not_true, Bool.false_eq_true, if_false]
  rw [Edit.run_bind_of_ok (Edit.run_integer a 0), Edit.run_bind_of_ok (Edit.run_integer _ 0)]
  exact (Edit.run_bind_of_ok run₁).trans ((Edit.run_bind_of_ok run₂).trans
    ((Edit.run_bind_of_ok run₃).trans (Edit.run_bind_of_ok run₄)))

/-- Nothing is exchanged but children of lists. -/
theorem run_swap_of_other (stored : a.get? p = some m) (other : m.element.kind.isList = false) :
    (swap p [x, y]).run a = .ok none a := by
  rw [swap, Edit.kindOf, Edit.run_bind_of_ok (Edit.run_inspect_of_ok (kind_of_get? stored)), other]
  rfl

/-- A child cannot leave its slot twice. -/
theorem run_swap_same (wf : a.WellFormed) (stored : a.get? p = some m)
    (isList : m.element.kind.isList = true) (member : x ∈ m.element.children) :
    (swap p [x, x]).run a ≠ .ok r b := by
  intro run
  have adds := adds_placeholders wf
  have held := adds.stored stored
  unfold swap at run
  dsimp only at run
  rw [Edit.kindOf, Edit.run_bind_of_ok (Edit.run_inspect_of_ok (kind_of_get? stored)), isList] at run
  simp only [Bool.not_true, Bool.false_eq_true, if_false] at run
  rw [Edit.run_bind_of_ok (Edit.run_integer a 0), Edit.run_bind_of_ok (Edit.run_integer _ 0)] at run
  obtain ⟨_, _, left, run⟩ := Edit.run_bind_eq_ok.mp run
  obtain ⟨_, _, again, _⟩ := Edit.run_bind_eq_ok.mp run
  obtain ⟨_, held', _, outcome⟩ := (Edit.run_replace_eq_ok adds.wf).mp left
  cases held.symm.trans held'
  obtain ⟨k, found⟩ := wf.stored_of_mem_children stored member
  have other := ne_next_of_stored found
  obtain ⟨same, _⟩ | ⟨_, fits, rfl⟩ := outcome
  · exact absurd same other
  have rewirable := Edit.rewirable_replace adds.wf held member fits
  obtain ⟨_, held'', inside, _⟩ := (Edit.run_replace_eq_ok (adds.wf.rewire held rewirable)).mp again
  cases (get?_rewire_of_stored held).symm.trans held''
  rw [element_rewired_self, Element.mem_replaceChild _ (wf.distinct stored) member] at inside
  rcases inside with same | ⟨_, gone⟩
  · exact other same
  · exact gone rfl

/-- An exchange that does something is one of two different children of a list. -/
theorem run_swap_some (wf : a.WellFormed) {rs : List Handle} (owned : ∀ x ∈ hs, a.owner? x = some p)
    (run : (swap p hs).run a = .ok (some rs) b) : ∃ m x y, a.get? p = some m ∧
      m.element.kind.isList = true ∧ hs = [x, y] ∧ x ∈ m.element.children ∧
      y ∈ m.element.children ∧ x ≠ y := by
  match hs with
  | [] | [_] | _ :: _ :: _ :: _ => cases run
  | [x, y] =>
    obtain ⟨first, second⟩ := List.forall_mem_cons.mp owned
    have second := second y (List.mem_singleton_self y)
    obtain ⟨m, held⟩ := wf.stored_of_owner? first
    have member := (wf.mem_children_iff held).mpr first
    cases isList : m.element.kind.isList with
    | false => cases (run_swap_of_other held isList).symm.trans run
    | true =>
      refine ⟨m, x, y, held, isList, rfl, member, (wf.mem_children_iff held).mpr second, ?_⟩
      rintro rfl
      exact run_swap_same wf held isList member run

/-! ### Values -/

section Value

variable {R : Type*} [CommRing R] (I : Interpretation R)

theorem unnest_sameValue (wf : a.WellFormed) (stored : a.get? h = some n)
    (run : (unnest h).run a = .ok r b) : SameValue I a b := by
  rcases run_unnest wf stored with
    ⟨same, _⟩ | ⟨p, m, owned, held, isList, kind, ⟨_, failed⟩ |
      ⟨e, before, after, rs, d, adds, fits, kind', children, children', same⟩⟩
  · cases same.symm.trans run
    exact .refl wf
  · exact absurd run (failed r b)
  · cases same.symm.trans run
    have distinct := wf.distinct held
    rw [children] at distinct
    have perm := perm_splice distinct rs
    rw [← children, ← children'] at perm
    refine SameValue.adds_rewire wf adds held fits fun w old new => ?_
    refine Element.value_splice I w (by rw [kind, isList]) kind' kind
      ((wf.mem_children_iff held).mpr owned) perm ?_
    rw [new, old h n stored, wf.value_eq I stored, Element.value_of_isList I _ isList, List.map_map]
    rfl

theorem swap_sameValue (wf : a.WellFormed) (owned : ∀ h ∈ hs, a.owner? h = some p)
    (run : (swap p hs).run a = .ok r b) : SameValue I a b := by
  match hs with
  | [] | [_] | _ :: _ :: _ :: _ =>
    cases run
    exact .refl wf
  | [x, y] =>
    obtain ⟨m, held⟩ := wf.stored_of_owner? (owned x List.mem_cons_self)
    have first := (wf.mem_children_iff held).mpr (owned x List.mem_cons_self)
    have second := (wf.mem_children_iff held).mpr
      (owned y (List.mem_cons_of_mem _ List.mem_cons_self))
    cases isList : m.element.kind.isList with
    | false =>
      cases (run_swap_of_other held isList).symm.trans run
      exact .refl wf
    | true =>
      by_cases other : x = y
      · subst other
        exact absurd run (run_swap_same wf held isList first)
      · obtain ⟨e, fits, kind, perm, _, same⟩ := run_swap wf held isList first second other
        cases same.symm.trans run
        exact SameValue.adds_rewire wf (adds_placeholders wf) held fits fun w _ _ =>
          Element.value_perm I w isList kind perm

end Value

end Law

end AlgebraEditor
