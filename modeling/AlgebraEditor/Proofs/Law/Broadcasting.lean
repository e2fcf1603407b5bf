import AlgebraEditor.Catalog
import AlgebraEditor.Proofs.Arena.Siblings
import AlgebraEditor.Proofs.Law.Distributing
import AlgebraEditor.Proofs.Law.Extracting
import AlgebraEditor.Proofs.Law.Locality
import AlgebraEditor.Proofs.Law.Settling

/-!
# Applying a rule to siblings

What a rule makes of one element is determined by the term of the element and by the kind of its
container. An application leaves both as they are for every sibling, so the order in which siblings
have their turn does not matter.
-/

namespace AlgebraEditor.Law

open Arena

variable {a b c : Arena} {h p : Handle} {hs ks rs : List Handle} {n m : Node} {rule : ElementRule}
  {f g : Handle → Option (List Handle)} {answer : Option (List Handle)}

/-! ### One element -/

/-- What the rule leaves in the slot of an element is given by `makes`, of the kind of the container
and the term of the element. Where that gives nothing, the rule does nothing. -/
def Determined (rule : ElementRule) (makes : Kind → Term → Option (List Term)) : Prop :=
  ∀ {a h p m}, a.WellFormed → a.Filled ∅ → a.owner? h = some p → a.get? p = some m →
    ∃ answer b, (rule h).run a = .ok answer b ∧ b.Filled ∅ ∧
      a.Spliced p h (answer.getD [h]) b ∧
      answer.isSome = (makes m.element.kind (a.denote h)).isSome ∧
      (answer.getD [h]).map b.denote = (makes m.element.kind (a.denote h)).getD [a.denote h]

open Classical in
theorem determined_of_relation {R : Kind → Term → List Term → Prop}
    (settles : ∀ {a h n}, a.WellFormed → a.Filled ∅ → a.get? h = some n → (rule h).Settles a)
    (acts : ∀ {a h p m ts}, a.WellFormed → a.Filled ∅ → a.owner? h = some p → a.get? p = some m →
      R m.element.kind (a.denote h) ts → ∃ rs b, (rule h).run a = .ok (some rs) b ∧
        a.Spliced p h rs b ∧ rs.map b.denote = ts)
    (rests : ∀ {a h p m}, a.WellFormed → a.Filled ∅ → a.owner? h = some p → a.get? p = some m →
      (¬ ∃ ts, R m.element.kind (a.denote h) ts) → (rule h).run a = .ok none a) :
    ∃ makes, Determined rule makes := by
  refine ⟨fun k t => if some? : ∃ ts, R k t ts then some some?.choose else none, ?_⟩
  intro a h p m wf filled owned around
  obtain ⟨n, stored⟩ := Arena.stored_of_owner? owned
  obtain ⟨answer, b, run, _, filled', _⟩ := settles wf filled stored
  by_cases some? : ∃ ts, R m.element.kind (a.denote h) ts
  · obtain ⟨rs, b', run', spliced, denotes⟩ := acts wf filled owned around some?.choose_spec
    cases run.symm.trans run'
    exact ⟨some rs, b, run, filled', spliced, by simp [some?], by simp [some?, denotes]⟩
  · have run' := rests wf filled owned around some?
    exact ⟨none, a, run', filled, .refl wf owned, by simp [some?], by simp [some?]⟩

theorem expand_determined : ∃ makes, Determined expand makes := by
  refine determined_of_relation (R := fun _ t us => ∃ ts, t.Expansion ts ∧ us = [.sum ts])
    expand_settles ?_ fun {a h _ _} wf _ owned _ nothing => ?_
  · rintro a h p m _ wf filled owned _ ⟨ts, expansion, rfl⟩
    obtain ⟨_, b, run, superseded⟩ := run_expand_of_expansion wf filled owned expansion
    exact ⟨_, b, run, superseded.spliced wf owned, by simp [superseded.denotes]⟩
  · obtain ⟨n, stored⟩ := Arena.stored_of_owner? owned
    refine run_expand_of_none stored (expanded?_of_not_expandable wf stored fun expandable => ?_)
    obtain ⟨ts, expansion⟩ := Term.expandable_iff.mp expandable
    exact nothing ⟨_, ts, expansion, rfl⟩

theorem minusToFront_determined : ∃ makes, Determined minusToFront makes := by
  refine determined_of_relation (R := fun _ t us => ∃ u, t.SignToFront u ∧ us = [u])
    minusToFront_settles ?_ fun {a h _ _} wf _ owned _ nothing => ?_
  · rintro a h p m _ wf _ owned _ ⟨u, front, rfl⟩
    obtain ⟨r, b, run, spliced, denotes⟩ := run_minusToFront_of_signToFront wf owned front
    exact ⟨_, b, run, spliced, by simp [denotes]⟩
  · obtain ⟨n, stored⟩ := Arena.stored_of_owner? owned
    obtain ⟨run, _⟩ | ⟨_, _, factor, k, inner, _, _, _, _, kind, _, member, held, shape, _⟩ :=
      run_minusToFront wf stored
    · exact run
    · have product := (kind_denote wf stored).trans kind
      have parts : (a.denote h).children = n.element.children.map a.denote := by
        rw [wf.denote_eq stored, Element.children_toTerm]
      have negated : (a.denote factor).kind = .negation := by
        rw [kind_denote wf held, shape]
        rfl
      obtain ⟨u, front⟩ := Term.exists_signToFront ⟨_, List.mem_map_of_mem member, negated⟩
      rw [← parts, ← Term.eq_product product] at front
      exact absurd ⟨_, u, front, rfl⟩ nothing

theorem minusInside_determined : ∃ makes, Determined minusInside makes := by
  refine determined_of_relation (R := fun _ t us => ∃ u, t.SignInside u ∧ us = [u])
    minusInside_settles ?_ fun {a h _ _} wf filled owned _ nothing => ?_
  · rintro a h p m _ wf _ owned _ ⟨u, inside, rfl⟩
    obtain ⟨r, b, run, spliced, denotes⟩ := run_minusInside_of_signInside wf owned inside
    exact ⟨_, b, run, spliced, by simp [denotes]⟩
  · obtain ⟨n, stored⟩ := Arena.stored_of_owner? owned
    obtain ⟨run, _⟩ | ⟨_, _, product, k, _, _, shape, held, kind, _⟩ := run_minusInside wf stored
    · exact run
    · have inner := wf.records stored product (by rw [shape]; exact List.mem_singleton_self product)
      have kind := (kind_denote wf held).trans kind
      have full := (wf.throughout_filled filled inner).self
      obtain ⟨t, ts, factors⟩ := List.exists_cons_of_length_pos
        (Nat.zero_lt_of_lt (full (by rw [kind]; rfl)))
      have denotes : a.denote h = .negation (.product (t :: ts)) := by
        rw [wf.denote_eq stored, shape, Element.toTerm, Term.eq_product kind, factors]
      have inside : (a.denote h).SignInside (.product (.negation t :: ts)) := denotes ▸ .mk t ts
      exact absurd ⟨_, _, inside, rfl⟩ nothing

theorem unnest_determined : ∃ makes, Determined unnest makes := by
  refine determined_of_relation
    (R := fun k t us => t.kind.isList = true ∧ k = t.kind ∧ us = t.children) unnest_settles
    ?_ fun {a h p m} wf _ owned around nothing => ?_
  · rintro a h p m _ wf filled owned around ⟨isList, kind, rfl⟩
    obtain ⟨n, stored⟩ := Arena.stored_of_owner? owned
    rw [kind_denote wf stored] at isList kind
    have nonempty : n.element.children ≠ [] := by
      intro empty
      have long := filled owned stored (Set.notMem_empty h) isList
      rw [empty] at long
      cases long
    obtain ⟨rs, b, run⟩ := run_unnest_of_nested wf stored owned around isList kind nonempty
    obtain ⟨q, _, owned', _, _, _, supplanted⟩ := supplanted_of_run_unnest wf stored run
    cases owned.symm.trans owned'
    refine ⟨rs, b, run, supplanted.spliced owned, ?_⟩
    rw [supplanted.denotes, wf.denote_eq stored, Element.children_toTerm]
  · obtain ⟨n, stored⟩ := Arena.stored_of_owner? owned
    obtain ⟨run, _⟩ | ⟨_, _, owned', around', isList, kind, _⟩ := run_unnest wf stored
    · exact run
    · cases owned.symm.trans owned'
      cases around.symm.trans around'
      have same := kind_denote wf stored
      exact absurd ⟨_, same ▸ isList, same ▸ kind, rfl⟩ nothing

theorem run_factorAllTerms_of_sum (stored : a.get? h = some n) (sum : n.element.kind = .sum) :
    (factorAllTerms h).run a = (factor h n.element.children).run a := by
  unfold factorAllTerms
  rw [Edit.kindOf, Edit.run_bind_of_ok (Edit.run_inspect_of_ok (kind_of_get? stored)),
    if_neg (not_not.mpr sum), Edit.childrenOf,
    Edit.run_bind_of_ok (Edit.run_inspect_of_ok (children_of_get? stored))]

theorem run_factorAllTerms_of_other (stored : a.get? h = some n) (other : n.element.kind ≠ .sum) :
    (factorAllTerms h).run a = .ok none a := by
  unfold factorAllTerms
  rw [Edit.kindOf, Edit.run_bind_of_ok (Edit.run_inspect_of_ok (kind_of_get? stored)), if_pos other]
  rfl

/-- An owned sum is factored into what its terms are, if they have something in common. -/
theorem run_factorAllTerms (wf : a.WellFormed) (filled : a.Filled ∅) (owned : a.owner? h = some p)
    (sum : (a.denote h).kind = .sum) :
    (Term.factoring (a.denote h).children = none → (factorAllTerms h).run a = .ok none a) ∧
    ∀ t, Term.factoring (a.denote h).children = some t → ∃ r b,
      (factorAllTerms h).run a = .ok (some [r]) b ∧ a.Spliced p h [r] b ∧ b.denote r = t := by
  obtain ⟨n, stored⟩ := Arena.stored_of_owner? owned
  have kind := (kind_denote wf stored).symm.trans sum
  have long := filled owned stored (Set.notMem_empty h) (by rw [kind]; rfl)
  have run := run_factorAllTerms_of_sum stored kind
  obtain ⟨cs, shape⟩ := Element.kind_eq_sum.mp kind
  rw [wf.denote_eq stored, Element.children_toTerm]
  have distinct := wf.distinct stored
  rw [shape, Element.children] at long run distinct ⊢
  obtain _ | ⟨first, _ | ⟨second, rest⟩⟩ := cs
  · simp at long
  · simp at long
  · have held : a.get? h = some ⟨some p, .sum (first :: second :: rest)⟩ := by
      rw [stored, ← shape, ← owned, owner?_of_get? stored]
    obtain ⟨nothing, something⟩ := run_factor_of_factoring wf held distinct fun _ => id
    rw [run]
    refine ⟨nothing, fun t found => ?_⟩
    obtain ⟨_, b, factored, gathered⟩ := something t found
    obtain ⟨q, r, same, spliced⟩ := factorAllTerms_staysInSlot wf stored (run.trans factored)
    cases owned.symm.trans spliced.owned
    cases same
    exact ⟨_, b, factored, spliced, gathered.denotes⟩

theorem factorAllTerms_determined : ∃ makes, Determined factorAllTerms makes := by
  refine determined_of_relation (R := fun _ t us => t.kind = .sum ∧ ∃ u,
    Term.factoring t.children = some u ∧ us = [u]) factorAllTerms_settles
    ?_ fun {a h _ _} wf filled owned _ nothing => ?_
  · rintro a h p m _ wf filled owned _ ⟨sum, u, found, rfl⟩
    obtain ⟨r, b, run, spliced, denotes⟩ := (run_factorAllTerms wf filled owned sum).2 u found
    exact ⟨_, b, run, spliced, by simp [denotes]⟩
  · by_cases sum : (a.denote h).kind = .sum
    · refine (run_factorAllTerms wf filled owned sum).1 (Option.eq_none_iff_forall_ne_some.mpr ?_)
      exact fun u found => nothing ⟨_, sum, u, found, rfl⟩
    · obtain ⟨n, stored⟩ := Arena.stored_of_owner? owned
      exact run_factorAllTerms_of_other stored (kind_denote wf stored ▸ sum)

/-! ### One element after the other -/

/-- The rule is applied to one element after the other, and `f` tells what it answers for each. -/
inductive Applied (rule : ElementRule) (f : Handle → Option (List Handle)) :
    Arena → List Handle → Arena → Prop where
  | nil (a : Arena) : Applied rule f a [] a
  | cons {a b c : Arena} {h : Handle} {hs : List Handle} : (rule h).run a = .ok (f h) b →
      Applied rule f b hs c → Applied rule f a (h :: hs) c

/-- The answers put one after the other, with the element itself where there is none. There must be
one at least. -/
def answers (f : Handle → Option (List Handle)) (hs : List Handle) : Option (List Handle) :=
  if hs.any fun h => (f h).isSome then some (hs.flatMap fun h => (f h).getD [h]) else none

theorem answers_eq_none : answers f hs = none ↔ ∀ h ∈ hs, f h = none := by
  simp [answers]

theorem Applied.congr (applied : Applied rule f a hs b) (same : ∀ h ∈ hs, g h = f h) :
    Applied rule g a hs b := by
  induction applied with
  | nil => exact .nil _
  | cons run _ ih =>
    obtain ⟨head, tail⟩ := List.forall_mem_cons.mp same
    exact .cons (head ▸ run) (ih tail)

theorem Applied.run_pass (applied : Applied rule f a hs b) :
    (Action.pass rule (fun h => [h]) hs).run a =
      .ok (hs.any fun h => (f h).isSome, hs.flatMap fun h => (f h).getD [h]) b := by
  induction applied with
  | nil => rfl
  | cons run _ ih =>
    rw [Action.pass, Edit.run_bind_of_ok run, Edit.run_bind_of_ok ih, List.any_cons,
      List.flatMap_cons]
    rfl

theorem Applied.run {action : Action} (applied : Applied rule f a hs b)
    (single : action.application = .each rule) :
    (action.run hs).run a = .ok (answers f hs) b := by
  unfold Action.run
  rw [single]
  dsimp only
  rw [Edit.run_bind_of_ok applied.run_pass]
  rfl

/-- A rule can be applied to siblings one after the other. What it leaves in each slot is what it
makes of the element that was there in the beginning. -/
theorem exists_applied {makes : Kind → Term → Option (List Term)}
    (determined : Determined rule makes) (wf : a.WellFormed) (filled : a.Filled ∅)
    (owned : ∀ h ∈ hs, a.owner? h = some p) (nodup : hs.Nodup) : ∃ f b, Applied rule f a hs b ∧
      a.SplicedAll p hs (fun h => (f h).getD [h]) b ∧ ∀ m, a.get? p = some m → ∀ h ∈ hs,
        (f h).isSome = (makes m.element.kind (a.denote h)).isSome ∧
        ((f h).getD [h]).map b.denote = (makes m.element.kind (a.denote h)).getD [a.denote h] := by
  induction hs generalizing a with
  | nil => exact ⟨fun _ => none, a, .nil a, .nil wf, fun _ _ => nofun⟩
  | cons h hs ih =>
    obtain ⟨absent, nodup⟩ := List.nodup_cons.mp nodup
    obtain ⟨head, tail⟩ := List.forall_mem_cons.mp owned
    obtain ⟨m, around⟩ := wf.stored_of_owner? head
    obtain ⟨answer, b, run, filled', spliced, some?, made⟩ := determined wf filled head around
    have other : ∀ x ∈ hs, x ≠ h := by
      rintro x listed rfl
      exact absent listed
    have sibling := fun x listed => spliced.sibling wf (tail x listed) (other x listed)
    obtain ⟨f, c, applied, rest, made'⟩ :=
      ih spliced.wf filled' (fun x listed => (sibling x listed).1) nodup
    have update : (fun x => (Function.update f h answer x).getD [x]) =
        Function.update (fun x => (f x).getD [x]) h (answer.getD [h]) := by
      funext x
      by_cases same : x = h
      · subst same
        simp
      · simp [Function.update_of_ne same]
    refine ⟨Function.update f h answer, c, .cons ?_ (applied.congr fun x listed => ?_), ?_,
      fun m' held => List.forall_mem_cons.mpr ⟨?_, fun x listed => ?_⟩⟩
    · rwa [Function.update_self]
    · exact Function.update_of_ne (other x listed) ..
    · rw [update]
      exact .cons wf spliced rest tail absent
    · -- what stands in the first slot is left alone by the later turns
      cases around.symm.trans held
      rw [Function.update_self, ← made]
      refine ⟨some?, List.map_congr_left fun r stands => ?_⟩
      refine rest.denote_sibling spliced.wf (spliced.owner?_slot wf stands) fun listed => ?_
      obtain ⟨n, stored⟩ := Arena.stored_of_owner? (tail r listed)
      cases (spliced.fresh r stands (other r listed)).symm.trans stored
    · cases around.symm.trans held
      obtain ⟨before, after, children⟩ := List.append_of_mem ((wf.mem_children_iff held).mpr head)
      obtain ⟨e, held', kind, _⟩ := spliced.slot held children
      have later := made' _ held' x listed
      rw [kind, (sibling x listed).2] at later
      rwa [Function.update_of_ne (other x listed)]

theorem determined_of_single {action : Action} (member : action ∈ Catalog.builtIn.actions)
    (single : action.application = .each rule) : ∃ makes, Determined rule makes := by
  simp only [Catalog.builtIn, List.mem_cons, List.not_mem_nil, or_false] at member
  rcases member with rfl | rfl | rfl | rfl | rfl | rfl | rfl | rfl
  · exact Application.each.inj single ▸ expand_determined
  · exact Application.each.inj single ▸ unnest_determined
  · exact Application.each.inj single ▸ minusToFront_determined
  · exact Application.each.inj single ▸ minusInside_determined
  · cases single
  · cases single
  · cases single
  · exact Application.each.inj single ▸ factorAllTerms_determined

/-- Running an action that applies its rule to every element on its own gives the same on siblings
whatever their order: nothing for both orders or for neither, equal contents, and for each sibling
elements that equal each other one for one. -/
theorem order_of_siblings_is_immaterial {action : Action} (wf : a.WellFormed) (filled : a.Filled ∅)
    (member : action ∈ Catalog.builtIn.actions) (single : action.application = .each rule)
    (owned : ∀ h ∈ hs, a.owner? h = some p) (nodup : hs.Nodup) (perm : hs.Perm ks) :
    ∃ f g b c, Applied rule f a hs b ∧ Applied rule g a ks c ∧
      (action.run hs).run a = .ok (answers f hs) b ∧
      (action.run ks).run a = .ok (answers g ks) c ∧
      (answers f hs = none ↔ answers g ks = none) ∧
      (∃ x y, b.content = .ok x ∧ c.content = .ok y ∧ b.equalAcross c x y = .ok true) ∧
      ∀ h ∈ hs, (f h = none ↔ g h = none) ∧
        List.Forall₂ (fun r s => b.equalAcross c r s = .ok true) ((f h).getD [h])
          ((g h).getD [h]) := by
  obtain ⟨makes, determined⟩ := determined_of_single member single
  have owned' : ∀ h ∈ ks, a.owner? h = some p := fun h listed => owned h (perm.mem_iff.mpr listed)
  obtain ⟨f, b, applied, first, made⟩ := exists_applied determined wf filled owned nodup
  obtain ⟨g, c, applied', second, made'⟩ :=
    exists_applied determined wf filled owned' (perm.nodup nodup)
  have alike : ∀ h ∈ hs, (f h).isSome = (g h).isSome ∧
      ((f h).getD [h]).map b.denote = ((g h).getD [h]).map c.denote := by
    intro h listed
    obtain ⟨m, around⟩ := wf.stored_of_owner? (owned h listed)
    obtain ⟨some?, denotes⟩ := made m around h listed
    obtain ⟨some?', denotes'⟩ := made' m around h (perm.mem_iff.mp listed)
    exact ⟨some?.trans some?'.symm, denotes.trans denotes'.symm⟩
  have nothing : ∀ h ∈ hs, (f h = none ↔ g h = none) := by
    intro h listed
    rw [← Option.isNone_iff_eq_none, ← Option.isNone_iff_eq_none, ← Option.not_isSome,
      ← Option.not_isSome, (alike h listed).1]
  refine ⟨f, g, b, c, applied, applied', applied.run single, applied'.run single, ?_, ?_,
    fun h listed => ⟨nothing h listed, ?_⟩⟩
  · rw [answers_eq_none, answers_eq_none, forall₂_congr nothing]
    exact forall_congr' fun h => imp_congr_left perm.mem_iff
  · cases hs with
    | nil =>
      cases List.nil_perm.mp perm
      cases applied
      cases applied'
      obtain ⟨inner, root⟩ := wf.wrapper
      obtain ⟨n, stored⟩ := wf.stored_of_mem_children root (List.mem_singleton_self inner)
      have content : a.content = .ok inner := content_eq_ok.mpr ⟨_, root, rfl⟩
      exact ⟨inner, inner, content, content, (wf.equalAcross_eq_true wf stored stored).mpr rfl⟩
    | cons h hs =>
      exact first.contents_alike second wf List.mem_cons_self perm
        fun h listed => (alike h listed).2
  · exact first.wf.forall₂_equalAcross second.wf
      (fun r stands => first.stored_slot wf listed stands)
      (fun s stands => second.stored_slot wf (perm.mem_iff.mp listed) stands) (alike h listed).2

/-- In `a + (b + c) + (d + e)` the inner sums can be unnested in both orders, although the first one
that goes shifts the other. -/
theorem order_of_siblings_is_immaterial_in_nested_sum : ∃ (a b c : Arena) (rs ss : List Handle),
    a.WellFormed ∧ a.Filled ∅ ∧ a.get? ⟨2⟩ = some ⟨some ⟨0⟩, .sum [⟨3⟩, ⟨4⟩, ⟨7⟩]⟩ ∧
    (Action.run ⟨"Unnest", "U", .each unnest⟩ [⟨4⟩, ⟨7⟩]).run a = .ok (some rs) b ∧
    (Action.run ⟨"Unnest", "U", .each unnest⟩ [⟨7⟩, ⟨4⟩]).run a = .ok (some ss) c ∧
    ∃ x y, b.content = .ok x ∧ c.content = .ok y ∧ b.equalAcross c x y = .ok true := by
  let t : Term :=
    .sum [.symbol "a", .sum [.symbol "b", .symbol "c"], .sum [.symbol "d", .symbol "e"]]
  have root : zero.get? ⟨0⟩ = some ⟨none, .root ⟨1⟩⟩ := rfl
  have only : (⟨1⟩ : Handle) ∈ [(⟨1⟩ : Handle)] := List.mem_singleton_self _
  have full := filled_zero.plant_replaced wellFormed_zero root only (t := t) (by decide) (by decide)
  obtain ⟨a, same⟩ : ∃ a, a = (zero.plant t).rewire ⟨0⟩ (.root ⟨2⟩) := ⟨_, rfl⟩
  have wf : a.WellFormed := by rw [same]; exact Edit.wellFormed_expression (by decide)
  have filled : a.Filled ∅ := by rw [same]; exact full
  have sum : a.get? ⟨2⟩ = some ⟨some ⟨0⟩, .sum [⟨3⟩, ⟨4⟩, ⟨7⟩]⟩ := by rw [same]; rfl
  have inner : a.get? ⟨4⟩ = some ⟨some ⟨2⟩, .sum [⟨5⟩, ⟨6⟩]⟩ := by rw [same]; rfl
  have owned : ∀ h ∈ [(⟨4⟩ : Handle), ⟨7⟩], a.owner? h = some ⟨2⟩ :=
    (List.forall_mem_cons.mp (wf.records sum)).2
  have member : (⟨"Unnest", "U", .each unnest⟩ : Action) ∈ Catalog.builtIn.actions := by
    simp [Catalog.builtIn]
  have perm : [(⟨4⟩ : Handle), ⟨7⟩].Perm [⟨7⟩, ⟨4⟩] := by decide
  obtain ⟨f, g, b, c, applied, _, run, run', either, contents, _⟩ :=
    order_of_siblings_is_immaterial wf filled member rfl owned (by decide) perm
  have done : answers f [⟨4⟩, ⟨7⟩] ≠ none := by
    intro nothing
    obtain ⟨rs, b', unnested⟩ := run_unnest_of_nested wf inner (owner?_of_get? inner) sum rfl rfl
      (by simp [Element.children])
    cases applied with
    | cons first _ =>
      cases (answers_eq_none.mp nothing ⟨4⟩ List.mem_cons_self) ▸ first.symm.trans unnested
  obtain ⟨rs, answered⟩ := Option.ne_none_iff_exists'.mp done
  obtain ⟨ss, answered'⟩ := Option.ne_none_iff_exists'.mp (mt either.mpr done)
  rw [answered] at run
  rw [answered'] at run'
  exact ⟨a, b, c, rs, ss, wf, filled, sum, run, run', contents⟩

end AlgebraEditor.Law
