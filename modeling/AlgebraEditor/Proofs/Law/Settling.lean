import AlgebraEditor.Proofs.Arena.Filling
import AlgebraEditor.Proofs.Law.Expanding
import AlgebraEditor.Proofs.Law.Factoring
import AlgebraEditor.Proofs.Law.Inverse
import AlgebraEditor.Proofs.Law.Rearrangement

/-!
# Rules on filled arenas

On an arena whose owned lists are filled no rule ends with a fault: the lists that a rule takes
something from are never empty.
-/

namespace AlgebraEditor

open Arena

variable {a b : Arena} {c h p x y : Handle} {hs xs : List Handle} {n m : Node} {t : Term}

/-- The edit goes through and keeps owned lists filled. An edit that answers with nothing has
changed nothing. -/
def Edit.Settles (x : Edit (Option (List Handle))) (a : Arena) : Prop :=
  ∃ r b, x.run a = .ok r b ∧ a.Evolves b ∧ b.Filled ∅ ∧ (r = none → b = a)

namespace Edit

theorem settles_of_nothing {x : Edit (Option (List Handle))} (wf : a.WellFormed)
    (filled : a.Filled ∅) (run : x.run a = .ok none a) : x.Settles a :=
  ⟨none, a, run, .refl wf, filled, fun _ => rfl⟩

theorem settles_of_some {x : Edit (Option (List Handle))} {s : List Handle}
    (run : x.run a = .ok (some s) b) (evolves : a.Evolves b) (filled : b.Filled ∅) : x.Settles a :=
  ⟨some s, b, run, evolves, filled, nofun⟩

theorem settles_inspect {α : Type} {read : Arena → Except Fault α} {y : α}
    {f : α → Edit (Option (List Handle))} (answer : read a = .ok y) (rest : (f y).Settles a) :
    (inspect read >>= f).Settles a := by
  obtain ⟨r, b, run, kept⟩ := rest
  exact ⟨r, b, by rw [run_bind_of_ok (run_inspect_of_ok answer), run], kept⟩

/-- Children of an owned list can be removed. -/
theorem removeChildren_total {list : Handle} (wf : a.WellFormed) (filled : a.Filled ∅)
    (stored : a.get? list = some n) (isList : n.element.kind.isList = true)
    (owned : a.owner? list = some p) (nodup : xs.Nodup) (inside : ∀ x ∈ xs, x ∈ n.element.children) :
    ∃ r b, (removeChildren list xs).run a = .ok r b ∧ a.Evolves b ∧ b.Filled ∅ := by
  obtain ⟨m, held⟩ := wf.stored_of_owner? owned
  have member := (wf.mem_children_iff held).mpr owned
  obtain ⟨r, b, run, normalized⟩ :=
    exists_run_removeChildren wf stored isList owned held nodup inside
  exact ⟨r, b, run, removeChildren_evolves wf run,
    normalized_filled wf filled stored isList held member List.filter_sublist normalized⟩

/-- What is added takes the place of a child of an owned list, and other children can be
removed. -/
theorem gather_total {first r : Handle} {rest : List Handle} {d : Arena} (wf : a.WellFormed)
    (filled : a.Filled ∅) (adds : a.Adds [t] [r] d) (full : t.All Term.Filled)
    (stored : a.get? c = some n) (isList : n.element.kind.isList = true)
    (owned : a.owner? c = some p) (nodup : (first :: rest).Nodup)
    (inside : ∀ x ∈ first :: rest, x ∈ n.element.children) :
    ∃ s b b', (replace c first r).run d = .ok () b ∧
      (removeChildren c rest).run b = .ok s b' ∧ a.Evolves b' ∧ b'.Filled ∅ := by
  obtain ⟨member, others⟩ := List.forall_mem_cons.mp inside
  obtain ⟨fresh, distinct⟩ := List.nodup_cons.mp nodup
  have top := List.mem_singleton_self r
  have stored₁ := adds.stored stored
  have rewirable := adds.rewirable wf stored member top
  have evolves := adds.evolves.rewire stored₁ rewirable
  have stored₂ := rewirable.get?_container adds.wf stored₁
  obtain ⟨s, b, removed, later, filled'⟩ := removeChildren_total evolves.wf
    (filled.adds_replaced wf adds (List.forall_mem_singleton.mpr full) stored member top) stored₂
    (by rw [Element.kind_replaceChild, isList]) (by rw [owner?_of_get? stored₂, ← owned,
      owner?_of_get? stored]) distinct fun x listed => by
      rw [Element.mem_replaceChild _ (wf.distinct stored) member]
      exact .inr ⟨others x listed, fun same => fresh (same ▸ listed)⟩
  exact ⟨s, _, b, adds.run_replace wf stored member top, removed, evolves.trans later, filled'⟩

end Edit

namespace Law

open Edit

/-! ### The distributive law -/

theorem expand_settles (wf : a.WellFormed) (filled : a.Filled ∅) (stored : a.get? h = some n) :
    (expand h).Settles a := by
  rcases run_expand wf stored with same | ⟨p, terms, s, d, owned, expands, adds, same⟩
  · exact settles_of_nothing wf filled same
  obtain ⟨m, held⟩ := wf.stored_of_owner? owned
  have member := (wf.mem_children_iff held).mpr owned
  have top := List.mem_singleton_self s
  have full := Term.permits_filled.all_sumOf fun _ inside =>
    expands.all wf Term.permits_filled (wf.throughout_filled filled) inside
  rw [run_bind_of_ok (adds.run_replace wf held member top)] at same
  exact settles_of_some same
    (adds.evolves.rewire (adds.stored held) (adds.rewirable wf held member top))
    (filled.adds_replaced wf adds (List.forall_mem_singleton.mpr full) held member top)

/-- What terms of a sum are factored into takes the place of the first, and the others can be
removed. -/
theorem factor_settles (wf : a.WellFormed) (filled : a.Filled ∅) (stored : a.get? p = some n)
    (nodup : hs.Nodup) (owned : ∀ h ∈ hs, a.owner? h = some p) : (factor p hs).Settles a := by
  have held : ∀ h ∈ hs, ∃ m, a.get? h = some m := fun h member =>
    Arena.stored_of_owner? (owned h member)
  unfold factor
  apply settles_inspect (kind_of_get? stored)
  by_cases kind : n.element.kind = .sum
  case neg =>
    rw [if_pos kind]
    exact settles_of_nothing wf filled rfl
  rw [if_neg (not_not.mpr kind)]
  apply settles_inspect (parent_of_get? stored)
  cases owner : a.owner? p with
  | none => exact settles_of_nothing wf filled rfl
  | some q =>
    match hs with
    | [] | [_] => exact settles_of_nothing wf filled rfl
    | first :: second :: rest =>
      have copies := fun h member =>
        wf.copies_of_owner? wf.throughout_unwrapped (owned h member)
      have copies' := fun h member =>
        wf.copies_of_owner? (wf.throughout_filled filled) (owned h member)
      obtain ⟨found, offers, factored⟩ := factored?_total wf wf.throughout_unwrapped held copies
      cases found with
      | none =>
        refine settles_of_nothing wf filled ?_
        simp only [Option.isNone_some, Bool.false_eq_true, if_false]
        rw [run_bind_of_ok offers]
        rfl
      | some t =>
        obtain ⟨r, d, run, adds⟩ := offers
        have full := factored.all wf Term.permits_filled (wf.throughout_filled filled) copies'
        have children := fun x inside => (wf.mem_children_iff stored).mpr (owned x inside)
        obtain ⟨s, c, b, replaced, removed, evolves, filled'⟩ := gather_total wf filled adds full
          stored (by rw [kind]; rfl) owner nodup children
        refine settles_of_some (s := [r]) ?_ evolves filled'
        simp only [Option.isNone_some, Bool.false_eq_true, if_false]
        rw [run_bind_of_ok run]
        dsimp only
        rw [run_bind_of_ok replaced, run_bind_of_ok removed]
        rfl

theorem factorAllTerms_settles (wf : a.WellFormed) (filled : a.Filled ∅)
    (stored : a.get? h = some n) : (factorAllTerms h).Settles a := by
  unfold factorAllTerms
  apply settles_inspect (kind_of_get? stored)
  by_cases kind : n.element.kind = .sum
  · rw [if_neg (not_not.mpr kind)]
    apply settles_inspect (children_of_get? stored)
    exact factor_settles wf filled stored (wf.distinct stored) (wf.records stored)
  · rw [if_pos kind]
    exact settles_of_nothing wf filled rfl

/-! ### Rearranging -/

theorem unnest_settles (wf : a.WellFormed) (filled : a.Filled ∅) (stored : a.get? h = some n) :
    (unnest h).Settles a := by
  rcases run_unnest wf stored with
    ⟨same, _⟩ | ⟨p, m, owned, held, isList, kind, ⟨empty, _⟩ |
      ⟨e, before, after, rs, d, adds, fits, kind', children, children', same⟩⟩
  · exact settles_of_nothing wf filled same
  · have long := filled owned stored (Set.notMem_empty h) isList
    rw [empty] at long
    cases long
  · have distinct := wf.distinct held
    rw [children] at distinct
    have perm := perm_splice distinct rs
    rw [← children, ← children'] at perm
    have full := wf.children_throughout (wf.throughout_filled filled) stored
    refine settles_of_some same (adds.evolves.rewire (adds.stored held) fits) ?_
    refine (filled.adds wf adds full).rewire adds.wf fits (fun x listed free k found => ?_)
      (fun _ outside _ => outside) fun _ _ _ _ => ?_
    · rcases List.mem_append.mp (perm.subset listed) with new | old
      · exact adds.filled_top full new found
      · obtain ⟨k', held'⟩ := wf.stored_of_mem_children held (List.mem_of_mem_erase old)
        rw [adds.owner?_eq held', wf.records held x (List.mem_of_mem_erase old)] at free
        cases free
    · have long := filled owned stored (Set.notMem_empty h) isList
      have lengths := perm.length_eq
      have copies := congrArg List.length adds.denotes
      rw [List.length_map, List.length_map] at copies
      rw [List.length_append, copies] at lengths
      omega

theorem swap_settles (wf : a.WellFormed) (filled : a.Filled ∅) (stored : a.get? p = some n)
    (nodup : hs.Nodup) (owned : ∀ h ∈ hs, a.owner? h = some p) : (swap p hs).Settles a := by
  match hs with
  | [] | [_] | _ :: _ :: _ :: _ => exact settles_of_nothing wf filled rfl
  | [x, y] =>
    have children := fun z inside => (wf.mem_children_iff stored).mpr (owned z inside)
    obtain ⟨first, others⟩ := List.forall_mem_cons.mp children
    have second := others y List.mem_cons_self
    have other : x ≠ y := fun same => (List.nodup_cons.mp nodup).1 (by rw [same]; simp)
    cases isList : n.element.kind.isList with
    | false => exact settles_of_nothing wf filled (run_swap_of_other stored isList)
    | true =>
      obtain ⟨e, fits, kind, perm, _, same⟩ := run_swap wf stored isList first second other
      have leaves : ∀ t ∈ [Term.integer 0, .integer 0], t = .integer 0 := by simp
      have adds := adds_placeholders wf
      have full : ∀ t ∈ [Term.integer 0, .integer 0], t.All Term.Filled := fun t member =>
        leaves t member ▸ Term.permits_filled.all_integer 0
      refine settles_of_some same (adds.evolves.rewire (adds.stored stored) fits) ?_
      refine (filled.adds wf adds full).rewire adds.wf fits (fun z inside free => ?_)
        (fun _ outside _ => outside) fun q owned' _ => ?_
      · obtain ⟨k, held⟩ := wf.stored_of_mem_children stored (perm.subset inside)
        rw [adds.owner?_eq held, wf.records stored z (perm.subset inside)] at free
        cases free
      · rw [adds.owner?_eq stored] at owned'
        intro _
        rw [perm.length_eq]
        exact filled owned' stored (Set.notMem_empty p) isList

/-! ### Signs and inverses -/

theorem minusToFront_settles (wf : a.WellFormed) (filled : a.Filled ∅)
    (stored : a.get? h = some n) : (minusToFront h).Settles a := by
  rcases run_minusToFront wf stored with
    ⟨same, _⟩ | ⟨p, m, factor, k, inner, x, d, owned, held, _, _, member, held', shape, adds, same⟩
  · exact settles_of_nothing wf filled same
  have owned' := wf.records held' inner (by rw [shape]; exact List.mem_singleton_self inner)
  have full := List.forall_mem_singleton.mpr (wf.throughout_filled filled owned')
  have top := List.mem_singleton_self x
  have different : p ≠ h := Ne.symm (wf.irrefl owned)
  have evolves := adds.evolves.rewire (adds.stored stored) (adds.rewirable wf stored member top)
  have filled' := filled.adds_replaced wf adds full stored member top
  have held₂ := get?_rewire_of_stored (c := h) (e := n.element.replaceChild factor x)
    (adds.stored held)
  have element := element_rewired_of_ne different (n.element.replaceChild factor x) m
  have inside := (wf.mem_children_iff held).mpr owned
  rw [← element] at inside
  have later := evolves.signed held₂ inside
  have filled'' := filled'.signed evolves.wf held₂ inside
  rw [element] at later filled''
  exact settles_of_some same later filled''

theorem minusInside_settles (wf : a.WellFormed) (filled : a.Filled ∅)
    (stored : a.get? h = some n) : (minusInside h).Settles a := by
  rcases run_minusInside wf stored with
    ⟨same, _⟩ | ⟨p, m, product, k, owned, held, shape, held', kind, ⟨empty, _⟩ |
      ⟨first, rest, x, d, children, adds, same⟩⟩
  · exact settles_of_nothing wf filled same
  · have owned' := wf.records stored product (by rw [shape]; exact List.mem_singleton_self product)
    have long := filled owned' held' (Set.notMem_empty product) (by rw [kind]; rfl)
    rw [empty] at long
    cases long
  have member : first ∈ k.element.children := by rw [children]; exact List.mem_cons_self
  have owned' := wf.records stored product (by rw [shape]; exact List.mem_singleton_self product)
  have evolves := (Evolves.refl wf).signed held' member
  have filled' := filled.signed wf held' member
  obtain ⟨owned₁, m', held₁, element, inside⟩ := around_signed wf owned held owned' held' member
  have full := List.forall_mem_singleton.mpr (evolves.wf.throughout_filled filled' owned₁)
  have top := List.mem_singleton_self x
  have later := (evolves.trans adds.evolves).rewire (adds.stored held₁)
    (adds.rewirable evolves.wf held₁ inside top)
  have filled'' := filled'.adds_replaced evolves.wf adds full held₁ inside top
  rw [element] at later filled''
  exact settles_of_some same later filled''

theorem cancel_settles (wf : a.WellFormed) (filled : a.Filled ∅) (stored : a.get? p = some n)
    (nodup : hs.Nodup) (owned : ∀ h ∈ hs, a.owner? h = some p) : (cancel p hs).Settles a := by
  match hs with
  | [] | [_] | _ :: _ :: _ :: _ => exact settles_of_nothing wf filled rfl
  | [x, y] =>
    have held : ∀ h ∈ [x, y], ∃ m, a.get? h = some m := fun h member =>
      Arena.stored_of_owner? (owned h member)
    have children := fun z inside => (wf.mem_children_iff stored).mpr (owned z inside)
    obtain ⟨k, first⟩ := held x List.mem_cons_self
    obtain ⟨k', second⟩ := held y (List.mem_cons_of_mem _ List.mem_cons_self)
    unfold cancel
    apply settles_inspect (kind_of_get? stored)
    by_cases kind : n.element.kind = .sum
    case neg =>
      rw [if_pos kind]
      exact settles_of_nothing wf filled rfl
    rw [if_neg (not_not.mpr kind)]
    apply settles_inspect (parent_of_get? stored)
    cases owner : a.owner? p with
    | none => exact settles_of_nothing wf filled rfl
    | some q =>
      obtain ⟨opposite, compared, _⟩ := areOpposite_total wf first second
      apply settles_inspect compared
      cases opposite with
      | false => exact settles_of_nothing wf filled rfl
      | true =>
        apply settles_inspect (children_of_get? stored)
        obtain ⟨s, b, removed, evolves, filled'⟩ := removeChildren_total wf filled stored
          (by rw [kind]; rfl) owner nodup children
        refine settles_of_some (s := (lowestNeighbor? n.element.children [x, y]).toList) ?_ evolves
          filled'
        rw [run_bind_of_ok removed]
        rfl

end Law

end AlgebraEditor
