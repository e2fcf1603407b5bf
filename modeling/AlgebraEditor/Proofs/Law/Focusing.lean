import AlgebraEditor.Proofs.Arena.Audit
import AlgebraEditor.Proofs.Law.Locality
import AlgebraEditor.Proofs.Law.Settling
import AlgebraEditor.Proofs.Selection.Focus

/-!
# Rules keep the focus

What a rule answers with stands where the element was that it was applied to. So a run of children
stays a run of children while a rule goes over it, and its container stays in the expression.
-/

namespace AlgebraEditor

open Arena Selection

variable {x y : Handle} {rest before after : List Handle}

namespace Law

/-- The rule answers with what stands in the place of an owned element. -/
structure KeepsFocus (rule : ElementRule) : Prop where
  owned : ∀ {a b h n rs}, a.WellFormed → a.get? h = some n → (rule h).run a = .ok (some rs) b →
    ∃ p, a.owner? h = some p
  focus : ∀ {a b p h rs before after}, a.WellFormed → a.Filled ∅ → a.Holds p (before ++ h :: after) →
    (rule h).run a = .ok (some rs) b → Focus b p before rs after

/-! ### One element -/

/-- What is left in the slot of an element is the child of its container there. -/
theorem StaysInSlot.keepsFocus {rule : ElementRule} (stays : StaysInSlot rule) :
    KeepsFocus rule where
  owned wf stored run := by
    obtain ⟨p, _, _, spliced⟩ := stays wf stored run
    exact ⟨p, spliced.owned⟩
  focus := by
    intro a b p h rs before after wf filled holds run
    obtain ⟨m, n, held, children, owned, stored⟩ := holds.child wf
    obtain ⟨q, r, rfl, spliced⟩ := stays wf stored run
    cases owned.symm.trans spliced.owned
    have later := spliced.holds wf holds
    exact ⟨later, List.cons_ne_nil r [], .inl rfl⟩

theorem expand_keepsFocus : KeepsFocus expand := expand_staysInSlot.keepsFocus

theorem minusToFront_keepsFocus : KeepsFocus minusToFront := minusToFront_staysInSlot.keepsFocus

theorem minusInside_keepsFocus : KeepsFocus minusInside := minusInside_staysInSlot.keepsFocus

theorem factorAllTerms_keepsFocus : KeepsFocus factorAllTerms := factorAllTerms_staysInSlot.keepsFocus

theorem unnest_keepsFocus : KeepsFocus unnest where
  owned wf stored run := by
    obtain ⟨same, _⟩ | ⟨p, _, owned, _⟩ := run_unnest wf stored
    · cases same.symm.trans run
    · exact ⟨p, owned⟩
  focus := by
    intro a b p h rs before after wf filled holds run
    obtain ⟨m, n, held, children, owned, stored⟩ := holds.child wf
    obtain ⟨q, m', owned', held', isList, kind, supplanted⟩ := supplanted_of_run_unnest wf stored run
    cases owned.symm.trans owned'
    cases held.symm.trans held'
    have long := filled owned stored (Set.notMem_empty h) isList
    have length := congrArg List.length supplanted.denotes
    rw [List.length_map, List.length_map] at length
    have long' := wf.longLists filled holds.reached held (by rw [kind]; exact isList)
    rw [children] at long'
    refine ⟨(supplanted.spliced owned).holds wf holds, List.ne_nil_of_length_pos (by omega),
      .inr (List.ne_nil_of_length_pos ?_)⟩
    rw [List.length_append, List.length_cons] at long'
    rw [List.length_append]
    omega

/-! ### Children of one parent -/

/-- What the rule answers with for a run of children is selected as it is. -/
def KeepsRun (rule : SiblingRule) : Prop :=
  ∀ {a b p hs rs before after}, a.WellFormed → Focus a p before hs after → 2 ≤ hs.length →
    (rule p hs).run a = .ok (some rs) b → Resolves b rs

theorem map_swap_between (nodup : (before ++ [x, y] ++ after).Nodup) :
    (before ++ [x, y] ++ after).map (Equiv.swap x y) = before ++ [y, x] ++ after := by
  obtain ⟨nodup, _, apart'⟩ := List.nodup_append.mp nodup
  obtain ⟨_, _, apart⟩ := List.nodup_append.mp nodup
  have first : before.map (Equiv.swap x y) = before.map id :=
    List.map_congr_left fun h member => Equiv.swap_apply_of_ne_of_ne
      (apart h member x (by simp)) (apart h member y (by simp))
  have last : after.map (Equiv.swap x y) = after.map id :=
    List.map_congr_left fun h member => Equiv.swap_apply_of_ne_of_ne
      (Ne.symm (apart' x (by simp) h member)) (Ne.symm (apart' y (by simp) h member))
  rw [List.map_append, List.map_append, first, last, List.map_id, List.map_id]
  simp

theorem swap_keepsRun : KeepsRun swap := by
  intro a b p hs rs before after wf focus _ run
  have owned : ∀ x ∈ hs, a.owner? x = some p := fun x member =>
    focus.holds.owner? wf (List.mem_append_left after (List.mem_append_right before member))
  obtain ⟨m, x, y, held, isList, rfl, first, second, other⟩ := run_swap_some wf owned run
  obtain ⟨_, held', children⟩ := focus.holds.children
  cases held.symm.trans held'
  obtain ⟨e, fits, _, _, exchanged, same⟩ := run_swap wf held isList first second other
  cases same.symm.trans run
  have adds := adds_placeholders wf
  have later := (focus.holds.retained adds.retains).rewire_self adds.wf fits
  rw [exchanged, children, map_swap_between (focus.holds.nodup wf)] at later
  have focus' : Focus _ p before [y, x] after :=
    ⟨later, List.cons_ne_nil y [x], .inr (focus.proper.resolve_left (by simp))⟩
  exact focus'.resolves_swapped (adds.wf.rewire (adds.stored held) fits)

theorem cancel_keepsRun : KeepsRun cancel := by
  intro a b p hs rs before after wf focus _ run
  obtain ⟨none, _⟩ | ⟨n, x, y, s, stored, kind, rfl, _, removed, same⟩ := run_cancel_eq_ok run
  · cases none
  obtain ⟨m, held, children⟩ := focus.holds.children
  cases held.symm.trans stored
  obtain ⟨q, e, stored, _, _, later⟩ := Edit.removed_of_run wf removed
  cases held.symm.trans stored
  obtain ⟨cs, rfl⟩ := Element.kind_eq_sum.mp kind
  obtain rfl : cs = before ++ [x, y] ++ after := children
  -- the two stand next to each other, and something stands beside them
  have first : (before ++ [x, y] ++ after)[before.length]? = some x := by simp
  have second : (before ++ [x, y] ++ after)[before.length + 1]? = some y := by simp
  have order := Nat.lt_add_one before.length
  have others := List.length_pos_of_ne_nil (focus.proper.resolve_left (by simp))
  obtain ⟨two, _⟩ | ⟨k, z, _, least, found, neighbor⟩ :=
    lowestNeighbor?_cases (focus.holds.nodup wf) first second order (.inl rfl)
  · simp only [List.length_append, List.length_cons, List.length_nil] at two others
    omega
  dsimp only [Element.children] at same
  rw [neighbor] at same
  cases same
  have stays := neighbor_stays wf stored first second order (.inl rfl) later least.1 found
  exact .of_reachable (stays.2 focus.holds.reached) later.wf

theorem filter_rest (nodup : (before ++ x :: (rest ++ after)).Nodup) :
    (before ++ x :: (rest ++ after)).filter (!rest.contains ·) = before ++ x :: after := by
  have apart : ((before ++ [x]) ++ rest ++ after).Nodup := by simpa using nodup
  simpa using filter_between apart

theorem factor_keepsRun : KeepsRun factor := by
  intro a b p hs rs before after wf focus several run
  obtain ⟨n, stored, children⟩ := focus.holds.children
  obtain ⟨-, first, rest, t, r, d, s, rfl, adds, same, removed⟩ :=
    run_factor_some wf stored (fun h member => by rw [children]; simp [member]) run
  cases same
  have member : first ∈ n.element.children := by rw [children]; simp
  have terms : a.Holds p (before ++ first :: (rest ++ after)) := by simpa using focus.holds
  have top := List.mem_singleton_self r
  have placed := terms.adds_replaced wf adds stored top
  have wf' := adds.wf.rewire (adds.stored stored) (adds.rewirable wf stored member top)
  have left := filter_rest (placed.nodup wf')
  have other := List.length_pos_of_ne_nil (focus.proper.resolve_left (by omega))
  have later := placed.removeChildren wf' removed (by
    rw [left, List.length_append, List.length_cons]
    rw [List.length_append] at other
    omega)
  rw [left] at later
  exact (Focus.of_mem later).resolves (Edit.removeChildren_evolves wf' removed).wf

end Law

end AlgebraEditor
