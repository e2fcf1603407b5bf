import AlgebraEditor.Proofs.Arena.Splicing
import AlgebraEditor.Proofs.Renaming.Reading

/-!
# Structural equality

Two elements are equal exactly if they denote the same term. So it does not matter which handles the
parts have or who owns them, and an element stays equal to what it was when something in it leaves
its slot to an equal.
-/

namespace AlgebraEditor

theorem Element.toTerm_rename (f : Handle → Handle) (g : Handle → Term) (e : Element) :
    (e.rename f).toTerm g = e.toTerm (g ∘ f) := by
  cases e <;> simp [rename, toTerm]

theorem Element.isLeaf_of_mem {e : Element} {x : Handle} (member : x ∈ e.children) :
    e.kind.isLeaf = false := by
  cases e with
  | symbol | integer => cases member
  | _ => rfl

namespace Arena

variable {a b : Arena} {f : Handle → Handle} {h p old new x y : Handle} {k m n : Node}

/-- The elements of `x` are in the second arena, under the handles that `f` gives them. -/
def Matches (a : Arena) (f : Handle → Handle) (x : Handle) (b : Arena) : Prop :=
  ∀ h n, a.Encloses x h → a.get? h = some n →
    ∃ m, b.get? (f h) = some m ∧ m.element = n.element.rename f

namespace WellFormed

theorem equalAcross_eq_true (wf : a.WellFormed) (wf' : b.WellFormed) (stored : a.get? x = some n)
    (stored' : b.get? y = some m) :
    a.equalAcross b x y = .ok true ↔ a.denote x = b.denote y := by
  obtain ⟨same, compared, equal⟩ := wf.equalAcross_eq_ok wf' stored stored'
  rw [compared, Except.ok.injEq, equal]

theorem equalAcross_comm (wf : a.WellFormed) (wf' : b.WellFormed) (stored : a.get? x = some n)
    (stored' : b.get? y = some m) : a.equalAcross b x y = b.equalAcross a y x := by
  obtain ⟨same, compared, equal⟩ := wf.equalAcross_eq_ok wf' stored stored'
  obtain ⟨same', compared', equal'⟩ := wf'.equalAcross_eq_ok wf stored' stored
  rw [compared, compared', Bool.eq_iff_iff.mpr (equal.trans (eq_comm.trans equal'.symm))]

theorem denote_of_matches (wf : a.WellFormed) (wf' : b.WellFormed) (stored : a.get? x = some n)
    (shape : a.Matches f x b) : b.denote (f x) = a.denote x := by
  revert shape
  refine wf.induction (motive := fun x => a.Matches f x b → b.denote (f x) = a.denote x)
    (fun x n stored ih shape => ?_) stored
  obtain ⟨m, held, same⟩ := shape x n (.inl rfl) stored
  rw [wf'.denote_eq held, same, Element.toTerm_rename, wf.denote_eq stored]
  refine Element.toTerm_congr fun c member => ?_
  have above := wf.isAbove_child stored member
  refine ih c above fun h k inside found => shape h k (.inr ?_) found
  rcases inside with rfl | below
  · exact above
  · exact above.trans below

/-! ### Equals in the place of each other -/

theorem size_denote_lt (wf : a.WellFormed) (above : a.IsAbove h x) :
    (a.denote x).size < (a.denote h).size := by
  have child : ∀ {p y}, a.owner? y = some p → (a.denote y).size < (a.denote p).size := by
    intro p y owned
    obtain ⟨m, held, member⟩ := wf.holds owned
    apply Term.size_lt_of_mem_children
    rw [wf.denote_eq held, Element.children_toTerm]
    exact List.mem_map_of_mem member
  induction above with
  | single owned => exact child owned
  | tail _ owned ih => exact (child owned).trans ih

/-- An element that nothing owns may take the place of one that it is equal to: it cannot be the
root, and neither holds the container nor is it. -/
theorem attachable_of_equal (wf : a.WellFormed) (owned : a.owner? old = some p)
    (stored : a.get? new = some m) (free : a.owner? new = none)
    (equal : a.denote old = a.denote new) : a.Attachable p new where
  stored := ⟨m, stored⟩
  free := free
  not_root := by
    rintro rfl
    obtain ⟨k, held⟩ := Arena.stored_of_owner? owned
    obtain ⟨inner, wrapper⟩ := wf.wrapper
    have kinds := congrArg Term.kind equal
    rw [kind_denote wf held, kind_denote wf wrapper] at kinds
    exact wf.kind_ne_root held (wf.ne_root_of_owner? owned) kinds
  other := by
    rintro rfl
    have less := wf.size_denote_lt (isAbove_of_owner? owned)
    rw [equal] at less
    exact Nat.lt_irrefl _ less
  not_above above := by
    have less := wf.size_denote_lt (above.tail owned)
    rw [equal] at less
    exact Nat.lt_irrefl _ less

/-- Where an element has left its slot to an equal one, everything denotes what it did. -/
theorem denote_exchanged (wf : a.WellFormed) (held : a.get? p = some k)
    (member : old ∈ k.element.children) (fits : a.Attachable p new)
    (equal : a.denote old = a.denote new) (stored : a.get? x = some n) :
    (a.rewire p (k.element.replaceChild old new)).denote x = a.denote x := by
  have wf' := wf.rewire held (Edit.rewirable_replace wf held member fits)
  obtain ⟨m, found⟩ := fits.stored
  refine wf.induction (motive := fun x =>
    (a.rewire p (k.element.replaceChild old new)).denote x = a.denote x)
    (fun x n stored ih => ?_) stored
  by_cases container : x = p
  · subst container
    cases stored.symm.trans held
    have inner : (k.element.replaceChild old new).kind.isLeaf = false := by
      rw [Element.kind_replaceChild]
      exact Element.isLeaf_of_mem member
    rw [wf'.denote_eq (get?_rewire_of_stored stored), element_rewired_self, wf.denote_eq stored,
      Element.toTerm_eq_iff inner, Element.kind_replaceChild, Element.children_replaceChild]
    -- the new child lies nowhere below the container, so it is looked at on its own
    refine ⟨rfl, map_replace (wf.distinct stored) (fun c inside _ => ?_) ?_⟩
    · exact ih c (wf.isAbove_child stored inside)
    · rw [wf.denote_rewire wf' found (Ne.symm fits.other) fits.not_above, equal]
  · rw [wf'.denote_eq (get?_rewire_of_stored stored), element_rewired_of_ne container,
      wf.denote_eq stored]
    exact Element.toTerm_congr fun c inside => ih c (wf.isAbove_child stored inside)

end WellFormed

/-- Comparing two elements ends, and answers whether they denote the same term. So equality is an
equivalence across arenas and takes no notice of handles and owners. An element that nothing owns can
take the place of an equal one, and whatever is stored then equals what it was. -/
theorem equality_is_of_terms (wf : a.WellFormed) (wf' : b.WellFormed) (stored : a.get? x = some n)
    (stored' : b.get? y = some m) :
    (∃ same t u, a.equalAcross b x y = .ok same ∧ a.term x = .ok t ∧ b.term y = .ok u ∧
      (same = true ↔ t = u)) ∧
    a.equal x x = .ok true ∧
    a.equalAcross b x y = b.equalAcross a y x ∧
    (∀ c z k, c.WellFormed → c.get? z = some k → a.equalAcross b x y = .ok true →
      b.equalAcross c y z = .ok true → a.equalAcross c x z = .ok true) ∧
    (∀ f, a.Matches f x b → a.equalAcross b x (f x) = .ok true) ∧
    ∀ p k new k', a.get? p = some k → x ∈ k.element.children → a.get? new = some k' →
      k'.parent = none → a.equal x new = .ok true →
      ∃ c, (Edit.replace p x new).run a = .ok () c ∧ c.WellFormed ∧
        ∀ h k, a.get? h = some k → a.equalAcross c h h = .ok true := by
  refine ⟨?_, (wf.equalAcross_eq_true wf stored stored).mpr rfl,
    wf.equalAcross_comm wf' stored stored', fun c z k wf'' held first second => ?_,
    fun f shape => ?_, fun p k new k' held member found free equal => ?_⟩
  · obtain ⟨same, compared, equal⟩ := wf.equalAcross_eq_ok wf' stored stored'
    exact ⟨same, _, _, compared, wf.term_eq_ok stored, wf'.term_eq_ok stored', equal⟩
  · rw [wf.equalAcross_eq_true wf' stored stored'] at first
    rw [wf'.equalAcross_eq_true wf'' stored' held] at second
    exact (wf.equalAcross_eq_true wf'' stored held).mpr (first.trans second)
  · obtain ⟨k, found, _⟩ := shape x n (.inl rfl) stored
    exact (wf.equalAcross_eq_true wf' stored found).mpr (wf.denote_of_matches wf' stored shape).symm
  · have same := (wf.equalAcross_eq_true wf stored found).mp equal
    have owned := wf.records held x member
    have unowned := (owner?_of_get? found).trans free
    have fits := wf.attachable_of_equal owned found unowned same
    have other : x ≠ new := by
      rintro rfl
      cases owned.symm.trans unowned
    have wf'' := wf.rewire held (Edit.rewirable_replace wf held member fits)
    refine ⟨_, (Edit.run_replace_eq_ok wf).mpr ⟨k, held, member, .inr ⟨other, fits, rfl⟩⟩, wf'',
      fun h k' there => ?_⟩
    rw [wf.equalAcross_eq_true wf'' there (get?_rewire_of_stored there),
      wf.denote_exchanged held member fits same there]

/-- In `x + y*z` the product equals the one that was added to another arena, handle by handle, and
the product `y*z` that nothing owns can take its place. -/
theorem equality_is_of_terms_of_products : ∃ a b : Arena, a.WellFormed ∧ b.WellFormed ∧
    a.get? ⟨2⟩ = some ⟨some ⟨0⟩, .sum [⟨3⟩, ⟨4⟩]⟩ ∧
    a.get? ⟨4⟩ = some ⟨some ⟨2⟩, .product [⟨5⟩, ⟨6⟩]⟩ ∧
    a.get? ⟨7⟩ = some ⟨none, .product [⟨8⟩, ⟨9⟩]⟩ ∧ b.get? ⟨2⟩ = some ⟨none, .product [⟨3⟩, ⟨4⟩]⟩ ∧
    a.equalAcross b ⟨4⟩ ⟨2⟩ = .ok true ∧ b.equalAcross a ⟨2⟩ ⟨4⟩ = .ok true ∧
    b.equalAcross a ⟨2⟩ ⟨7⟩ = .ok true ∧ ∃ c, (Edit.replace ⟨2⟩ ⟨4⟩ ⟨7⟩).run a = .ok () c ∧
      a.equalAcross c ⟨0⟩ ⟨0⟩ = .ok true := by
  have factors : (Term.product [.symbol "y", .symbol "z"]).Unwrapped := by decide
  obtain ⟨a, same⟩ : ∃ a, a = ((zero.plant (.sum [.symbol "x", .product [.symbol "y",
    .symbol "z"]])).rewire ⟨0⟩ (.root ⟨2⟩)).plant (.product [.symbol "y", .symbol "z"]) := ⟨_, rfl⟩
  obtain ⟨b, same'⟩ : ∃ b, b = zero.plant (.product [.symbol "y", .symbol "z"]) := ⟨_, rfl⟩
  have wf : a.WellFormed := by
    rw [same]
    exact (Edit.wellFormed_expression (by decide)).plant factors
  have wf' : b.WellFormed := by rw [same']; exact wellFormed_zero.plant factors
  have sum : a.get? ⟨2⟩ = some ⟨some ⟨0⟩, .sum [⟨3⟩, ⟨4⟩]⟩ := by rw [same]; rfl
  have product : a.get? ⟨4⟩ = some ⟨some ⟨2⟩, .product [⟨5⟩, ⟨6⟩]⟩ := by rw [same]; rfl
  have first : a.get? ⟨5⟩ = some ⟨some ⟨4⟩, .symbol "y"⟩ := by rw [same]; rfl
  have second : a.get? ⟨6⟩ = some ⟨some ⟨4⟩, .symbol "z"⟩ := by rw [same]; rfl
  have free : a.get? ⟨7⟩ = some ⟨none, .product [⟨8⟩, ⟨9⟩]⟩ := by rw [same]; rfl
  have added : b.get? ⟨2⟩ = some ⟨none, .product [⟨3⟩, ⟨4⟩]⟩ := by rw [same']; rfl
  have equal : a.equal ⟨4⟩ ⟨7⟩ = .ok true := by rw [same]; rfl
  have shape : a.Matches (fun h => ⟨h.index - 2⟩) ⟨4⟩ b := by
    have below : ∀ h, a.Encloses ⟨4⟩ h → h = ⟨4⟩ ∨ h = ⟨5⟩ ∨ h = ⟨6⟩ := by
      intro h inside
      simpa [Encloses, wf.isAbove_iff_child product, wf.isAbove_iff_child first,
        wf.isAbove_iff_child second, Element.children] using inside
    intro h n inside stored
    rcases below h inside with rfl | rfl | rfl
    · cases product.symm.trans stored
      exact ⟨_, added, rfl⟩
    · cases first.symm.trans stored
      exact ⟨_, by rw [same']; rfl, rfl⟩
    · cases second.symm.trans stored
      exact ⟨_, by rw [same']; rfl, rfl⟩
  obtain ⟨_, _, comm, _, renamed, replaced⟩ := equality_is_of_terms wf wf' product added
  obtain ⟨_, _, _, trans, _⟩ := equality_is_of_terms wf' wf added product
  have across := renamed _ shape
  have back := comm.symm.trans across
  obtain ⟨c, run, _, kept⟩ :=
    replaced ⟨2⟩ _ ⟨7⟩ _ sum (List.mem_cons_of_mem _ List.mem_cons_self) free rfl equal
  obtain ⟨inner, root⟩ := wf.wrapper
  have top : a.root = ⟨0⟩ := by rw [same]; rfl
  exact ⟨a, b, wf, wf', sum, product, free, added, across, back,
    trans a ⟨7⟩ _ wf free back equal, c, run, kept ⟨0⟩ _ (top ▸ root)⟩

end Arena

end AlgebraEditor
