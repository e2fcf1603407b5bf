import AlgebraEditor.Proofs.Arena.Holding
import AlgebraEditor.Proofs.Selection.Moving

/-!
# Focus

What an action is applied to is a run of children of one reachable container. As long as what comes
out stands in the place of the run, and does not come to be all that the container holds, it is
selected as it is.
-/

namespace AlgebraEditor

open Arena

namespace Selection

variable {a : Arena} {p h x y : Handle} {hs before after : List Handle} {s : Selection}

/-- A run of children of a reachable container: one child, or two or more but not all of them. -/
structure Focus (a : Arena) (p : Handle) (before hs after : List Handle) : Prop where
  holds : a.Holds p (before ++ hs ++ after)
  nonempty : hs ≠ []
  proper : hs.length = 1 ∨ before ++ after ≠ []

theorem Focus.of_mem (holds : a.Holds p (before ++ h :: after)) : Focus a p before [h] after where
  holds := by simpa using holds
  nonempty := List.cons_ne_nil _ _
  proper := .inl rfl

/-- The elements can be selected, all of them and nothing else. -/
structure Resolves (a : Arena) (hs : List Handle) : Prop where
  nonempty : hs ≠ []
  reached : ∀ h ∈ hs, a.Reachable h
  selected : ∃ s, (resolve a hs).run = .ok (.ok s) ∧ s.toList.Perm hs

theorem Resolves.of_reachable (reached : a.Reachable h) (wf : a.WellFormed) : Resolves a [h] where
  nonempty := List.cons_ne_nil h []
  reached := List.forall_mem_singleton.mpr reached
  selected := ⟨single h, resolve_single wf reached, .refl _⟩

theorem Focus.reachable (focus : Focus a p before hs after) (member : h ∈ hs) : a.Reachable h :=
  focus.holds.reachable (List.mem_append_left _ (List.mem_append_right _ member))

theorem Focus.resolves (focus : Focus a p before hs after) (wf : a.WellFormed) : Resolves a hs where
  nonempty := focus.nonempty
  reached _ := focus.reachable
  selected := by
    obtain ⟨n, stored, children⟩ := focus.holds.children
    match hs with
    | [] => exact absurd rfl focus.nonempty
    | [h] => exact (Resolves.of_reachable (focus.reachable (List.mem_singleton_self h)) wf).selected
    | first :: second :: rest =>
      have other : before ++ after ≠ [] := focus.proper.resolve_left (by simp)
      refine ⟨_, resolve_run wf focus.holds.reached stored children, ?_⟩
      rw [if_neg other]
      exact .refl _

theorem Focus.resolves_swapped (focus : Focus a p before [x, y] after) (wf : a.WellFormed) :
    Resolves a [y, x] where
  nonempty := List.cons_ne_nil y [x]
  reached _ member := focus.reachable ((List.Perm.swap x y []).subset member)
  selected := by
    obtain ⟨n, stored, children⟩ := focus.holds.children
    have other : before ++ after ≠ [] := focus.proper.resolve_left (by simp)
    exact ⟨_, resolve_pair wf focus.holds.reached stored children other, .swap y x []⟩

theorem Valid.focus (valid : s.Valid a) (wf : a.WellFormed) :
    s = ofRoot a ∨ ∃ p before after, Focus a p before s.toList after := by
  cases valid with
  | @single h reached =>
    by_cases root : h = a.root
    · exact .inl (by rw [root]; rfl)
    · obtain ⟨p, owned⟩ := reached.owned wf root
      obtain ⟨before, after, holds⟩ := reached.held wf owned
      exact .inr ⟨p, before, after, .of_mem holds⟩
  | @run p first second n before rest after reached stored children other =>
    exact .inr ⟨p, before, after, ⟨reached, n, stored, children⟩, List.cons_ne_nil _ _, .inr other⟩

end Selection

end AlgebraEditor
