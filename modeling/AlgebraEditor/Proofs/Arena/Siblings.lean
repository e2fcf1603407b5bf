import AlgebraEditor.Proofs.Arena.Equality

/-!
# Changes at several slots of one container

Children of a container leave their slots one after the other. `SplicedAll` says what the container
then holds and that nothing outside of the children is touched. Two such changes leave everything
else denoting the same if they leave the same terms in each slot, whatever the order.
-/

namespace AlgebraEditor.Arena

variable {a b c : Arena} {h p x : Handle} {hs ks rs : List Handle} {f g : Handle → List Handle}
  {n : Node}

theorem Spliced.refl (wf : a.WellFormed) (owned : a.owner? h = some p) : a.Spliced p h [h] a where
  toEvolves := .refl wf
  owned := owned
  fresh r stands other := absurd (List.mem_singleton.mp stands) other
  slot {n} _ _ stored children := ⟨n.element, stored, rfl, by simp [children]⟩
  kept stored _ _ := stored

/-- The other children of the container stay there and denote what they did. -/
theorem Spliced.sibling (spliced : a.Spliced p h rs b) (wf : a.WellFormed)
    (owned : a.owner? x = some p) (other : x ≠ h) :
    b.owner? x = some p ∧ b.denote x = a.denote x := by
  obtain ⟨n, stored⟩ := Arena.stored_of_owner? owned
  have below := wf.not_encloses_sibling owned spliced.owned (Ne.symm other)
  have outside := wf.not_encloses_sibling spliced.owned owned other
  exact ⟨(spliced.owner?_eq wf stored outside).trans owned, spliced.denote_eq wf stored below outside⟩

/-- Elements that denote the same terms one for one are equal one for one. -/
theorem WellFormed.forall₂_equalAcross (wf : a.WellFormed) (wf' : b.WellFormed)
    (stored : ∀ r ∈ rs, ∃ n, a.get? r = some n) (stored' : ∀ s ∈ ks, ∃ n, b.get? s = some n)
    (same : rs.map a.denote = ks.map b.denote) :
    List.Forall₂ (fun r s => a.equalAcross b r s = .ok true) rs ks := by
  induction rs generalizing ks with
  | nil =>
    cases List.map_eq_nil_iff.mp same.symm
    exact .nil
  | cons r rs ih =>
    obtain ⟨s, ks, rfl, denotes, rest⟩ := List.map_eq_cons_iff.mp same.symm
    obtain ⟨⟨n, held⟩, tail⟩ := List.forall_mem_cons.mp stored
    obtain ⟨⟨m, held'⟩, tail'⟩ := List.forall_mem_cons.mp stored'
    exact .cons ((wf.equalAcross_eq_true wf' held held').mpr denotes.symm) (ih tail tail' rest.symm)

/-- Every child `x` of the container `p` has left its slot to the elements `f x`, which is `x` itself
unless `x` is listed. Nothing else has changed outside of the listed children. -/
structure SplicedAll (a : Arena) (p : Handle) (hs : List Handle) (f : Handle → List Handle)
    (b : Arena) : Prop extends Evolves a b where
  owned : ∀ h ∈ hs, a.owner? h = some p
  still : ∀ x, x ∉ hs → f x = [x]
  slots : ∀ {n}, a.get? p = some n → ∃ e, b.get? p = some ⟨n.parent, e⟩ ∧
    e.kind = n.element.kind ∧ e.children = n.element.children.flatMap f
  kept : ∀ {x n}, a.get? x = some n → x ≠ p → (∀ h ∈ hs, ¬ a.Encloses h x) → b.get? x = some n

namespace SplicedAll

theorem nil (wf : a.WellFormed) : a.SplicedAll p [] (fun x => [x]) a where
  toEvolves := .refl wf
  owned := nofun
  still _ _ := rfl
  slots {n} stored := ⟨n.element, stored, rfl, by simp⟩
  kept stored _ _ := stored

/-- The slots are given up one after the other. -/
theorem cons (wf : a.WellFormed) (first : a.Spliced p h rs b) (rest : b.SplicedAll p hs f c)
    (owned : ∀ x ∈ hs, a.owner? x = some p) (absent : h ∉ hs) :
    a.SplicedAll p (h :: hs) (Function.update f h rs) c where
  toEvolves := first.toEvolves.trans rest.toEvolves
  owned := List.forall_mem_cons.mpr ⟨first.owned, owned⟩
  still := by
    intro x outside
    rw [List.mem_cons, not_or] at outside
    rw [Function.update_of_ne outside.1, rest.still x outside.2]
  slots := by
    intro n stored
    obtain ⟨before, after, children⟩ :=
      List.append_of_mem ((wf.mem_children_iff stored).mpr first.owned)
    obtain ⟨e, held, kind, slots⟩ := first.slot stored children
    obtain ⟨e', held', kind', slots'⟩ := rest.slots held
    refine ⟨e', held', kind'.trans kind, ?_⟩
    -- what came into the slot is not listed, and no other child is `h`
    have came : ∀ r ∈ rs, f r = [r] := by
      refine fun r stands => rest.still r fun listed => ?_
      by_cases same : r = h
      · exact absent (same ▸ listed)
      · obtain ⟨m, there⟩ := Arena.stored_of_owner? (owned r listed)
        cases (first.fresh r stands same).symm.trans there
    have others : ∀ x ∈ before ++ after, Function.update f h rs x = f x := by
      intro x beside
      have nodup := wf.distinct stored
      rw [children, List.nodup_middle, List.nodup_cons] at nodup
      refine Function.update_of_ne ?_ ..
      rintro rfl
      exact nodup.1 beside
    obtain ⟨front, back⟩ := List.forall_mem_append.mp others
    have whole : rs.flatMap f = rs := by
      rw [List.flatMap_congr came, List.flatMap_singleton']
    rw [slots', slots, children, List.flatMap_append, List.flatMap_append, List.flatMap_append,
      List.flatMap_cons, Function.update_self, List.flatMap_congr front, List.flatMap_congr back,
      whole, List.append_assoc]
  kept := by
    intro x n stored other outside
    obtain ⟨apart, later⟩ := List.forall_mem_cons.mp outside
    refine rest.kept (first.kept stored other apart) other fun k listed => ?_
    rintro (rfl | above)
    · exact later x listed (.inl rfl)
    · exact later k listed (.inr ((first.isAbove_iff wf stored apart).mp above))

/-- What neither holds the container nor lies in a listed child denotes what it did. -/
theorem denote_eq (spliced : a.SplicedAll p hs f b) (wf : a.WellFormed) (stored : a.get? x = some n)
    (below : ¬ a.Encloses x p) (outside : ∀ h ∈ hs, ¬ a.Encloses h x) : b.denote x = a.denote x := by
  refine wf.denote_congr spliced.wf stored fun y m place held =>
    ⟨m, spliced.kept held ?_ fun h listed around => ?_, rfl⟩
  · rintro rfl
    exact below place
  · -- a listed child around what lies in `x` is around `x`, or has its container in `x`
    have owned := spliced.owned h listed
    have apart := outside h listed
    have lower : ¬ a.IsAbove x h := by
      intro above
      obtain ⟨q, owned', rest⟩ := isAbove_iff.mp above
      cases owned.symm.trans owned'
      exact below (rest.imp_left Eq.symm)
    rcases place with rfl | above
    · exact apart around
    · rcases around with rfl | above'
      · exact lower above
      · rcases above.comparable above' with rfl | within | around
        · exact apart (.inl rfl)
        · exact lower within
        · exact apart (.inr around)

theorem denote_sibling (spliced : a.SplicedAll p hs f b) (wf : a.WellFormed)
    (owned : a.owner? x = some p) (absent : x ∉ hs) : b.denote x = a.denote x := by
  obtain ⟨n, stored⟩ := Arena.stored_of_owner? owned
  refine spliced.denote_eq wf stored (wf.not_encloses_owner owned) fun h listed => ?_
  refine wf.not_encloses_sibling (spliced.owned h listed) owned ?_
  rintro rfl
  exact absent listed

theorem stored_slot (spliced : a.SplicedAll p hs f b) (wf : a.WellFormed) (listed : h ∈ hs)
    (stands : x ∈ f h) : ∃ n, b.get? x = some n := by
  obtain ⟨n, stored, member⟩ := wf.holds (spliced.owned h listed)
  obtain ⟨e, held, _, slots⟩ := spliced.slots stored
  refine spliced.wf.stored_of_mem_children held ?_
  rw [slots]
  exact List.mem_flatMap.mpr ⟨h, member, stands⟩

variable (first : a.SplicedAll p hs f b) (second : a.SplicedAll p ks g c) (wf : a.WellFormed)
  (listed : h ∈ hs) (perm : hs.Perm ks) (equal : ∀ h ∈ hs, (f h).map b.denote = (g h).map c.denote)

include first second wf listed perm equal

/-- Outside of the listed children everything denotes the same after both changes. -/
theorem denotes_alike (stored : a.get? x = some n) (outside : ∀ h ∈ hs, ¬ a.Encloses h x) :
    b.denote x = c.denote x := by
  revert outside
  refine wf.induction (motive := fun x => (∀ h ∈ hs, ¬ a.Encloses h x) → b.denote x = c.denote x)
    (fun x n stored ih outside => ?_) stored
  by_cases container : x = p
  · subst container
    obtain ⟨e, held, kind, slots⟩ := first.slots stored
    obtain ⟨e', held', kind', slots'⟩ := second.slots stored
    have member := (wf.mem_children_iff stored).mpr (first.owned h listed)
    have inner : e.kind.isLeaf = false := kind ▸ Element.isLeaf_of_mem member
    rw [first.wf.denote_eq held, second.wf.denote_eq held', Element.toTerm_eq_iff inner, slots,
      slots', List.map_flatMap, List.map_flatMap]
    refine ⟨kind.trans kind'.symm, List.flatMap_congr fun y inside => ?_⟩
    by_cases changed : y ∈ hs
    · exact equal y changed
    · rw [first.still y changed, second.still y fun there => changed (perm.mem_iff.mpr there),
        List.map_singleton, List.map_singleton]
      have owned := wf.records stored y inside
      refine congrArg (fun t => [t]) (ih y (isAbove_of_owner? owned) fun k there => ?_)
      refine wf.not_encloses_sibling (first.owned k there) owned ?_
      rintro rfl
      exact changed there
  · have held := first.kept stored container outside
    have held' := second.kept stored container fun k there => outside k (perm.mem_iff.mpr there)
    rw [first.wf.denote_eq held, second.wf.denote_eq held']
    refine Element.toTerm_congr fun y inside => ih y (wf.isAbove_child stored inside) ?_
    have owned := wf.records stored y inside
    rintro k there (rfl | above)
    · cases owned.symm.trans (first.owned y there)
      exact container rfl
    · obtain ⟨q, owned', rest⟩ := isAbove_iff.mp above
      cases owned.symm.trans owned'
      exact outside k there (rest.imp_left Eq.symm)

/-- Both changes leave equal contents. -/
theorem contents_alike : ∃ x y, b.content = .ok x ∧ c.content = .ok y ∧
    b.equalAcross c x y = .ok true := by
  obtain ⟨inner, root⟩ := wf.wrapper
  obtain ⟨x, held⟩ := first.wf.wrapper
  obtain ⟨y, held'⟩ := second.wf.wrapper
  have outside : ∀ h ∈ hs, ¬ a.Encloses h a.root := by
    rintro h there (same | above)
    · exact wf.ne_root_of_owner? (first.owned h there) same.symm
    · exact wf.not_isAbove_root above
  have same := denotes_alike first second wf listed perm equal root outside
  have whole := first.wf.denote_eq held
  have whole' := second.wf.denote_eq held'
  rw [first.root, same, ← second.root, whole'] at whole
  obtain ⟨n, stored⟩ := first.wf.stored_of_mem_children held (List.mem_singleton_self x)
  obtain ⟨m, stored'⟩ := second.wf.stored_of_mem_children held' (List.mem_singleton_self y)
  refine ⟨x, y, content_eq_ok.mpr ⟨_, held, rfl⟩, content_eq_ok.mpr ⟨_, held', rfl⟩, ?_⟩
  exact (first.wf.equalAcross_eq_true second.wf stored stored').mpr (Term.root.inj whole).symm

end SplicedAll

end AlgebraEditor.Arena
