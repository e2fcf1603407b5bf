import AlgebraEditor.Proofs.Arena.Normalizing

/-!
# Gathering terms of a sum

A new element takes the place of one term of a sum, and other terms are removed. `Gathered` tells
all nodes afterwards: what was stored stays as it was, up to the sum, the terms that left it, and the
owner of a sum that left its own slot to the new element.
-/

namespace AlgebraEditor

open Arena

variable {a b : Arena} {first p q r : Handle} {cs others : List Handle} {t : Term}

/-- What is left of the terms of a sum if a new one takes the place of the first listed one, and the
other listed ones are removed. -/
def gathered (cs : List Handle) (first : Handle) (others : List Handle) (new : Handle) :
    List Handle :=
  (cs.replace first new).filter (!others.contains ·)

/-- The new element `r` stands for the listed terms of the sum `p`, which is owned by `q`. -/
structure Arena.Gathered (a : Arena) (p q : Handle) (cs : List Handle) (first : Handle)
    (others : List Handle) (t : Term) (r : Handle) (b : Arena) : Prop where
  wf : b.WellFormed
  root : b.root = a.root
  fresh : a.get? r = none
  denotes : b.denote r = t
  beside : gathered cs first others r ≠ [r] →
    b.get? p = some ⟨some q, .sum (gathered cs first others r)⟩
  alone : gathered cs first others r = [r] → b.get? p = some ⟨none, .sum []⟩ ∧
    ∀ m, a.get? q = some m → b.get? q = some ⟨m.parent, m.element.replaceChild p r⟩
  removed : ∀ x ∈ first :: others, ∀ m, a.get? x = some m → b.get? x = some ⟨none, m.element⟩
  kept : ∀ x m, a.get? x = some m → x ∉ first :: others → x ≠ p →
    (gathered cs first others r = [r] → x ≠ q) → b.get? x = some m

section

variable {m : Node} {x : Handle} (wf : a.WellFormed) (stored : a.get? p = some ⟨some q, .sum cs⟩)
  (inside : ∀ x ∈ first :: others, x ∈ cs) (fresh : a.get? r = none)

include wf stored inside fresh

/-- The new element is left in any case, so that the sum is never emptied. -/
theorem mem_gathered : r ∈ gathered cs first others r := by
  rw [gathered, List.mem_filter]
  refine ⟨(perm_replace (inside first List.mem_cons_self)).mem_iff.mpr List.mem_cons_self, ?_⟩
  have apart : r ∉ others := fun later => by
    obtain ⟨m, held⟩ := wf.stored_of_mem_children stored (inside _ (List.mem_cons_of_mem _ later))
    rw [fresh] at held
    cases held
  simpa using apart

theorem two_le_length_gathered (more : gathered cs first others r ≠ [r]) :
    2 ≤ (gathered cs first others r).length := by
  have new := mem_gathered wf stored inside fresh
  by_contra short
  obtain ⟨only, single⟩ := List.length_eq_one_iff.mp
    (Nat.le_antisymm (Nat.le_of_lt_succ (Nat.lt_of_not_le short)) (List.length_pos_of_mem new))
  rw [single, List.mem_singleton] at new
  exact more (by rw [single, new])

theorem gathered_ne_singleton (held : a.get? x = some m) : gathered cs first others r ≠ [x] := by
  intro only
  have new := mem_gathered wf stored inside fresh
  rw [only, List.mem_singleton] at new
  rw [new, held] at fresh
  cases fresh

end

/-- After a new element has taken the slot of one term, the removal of other terms leaves it among
the terms, or in the slot of the sum. -/
theorem gathered_of_removed {c : Arena} {s : Handle} (wf : a.WellFormed)
    (stored : a.get? p = some ⟨some q, .sum cs⟩) (nodup : (first :: others).Nodup)
    (inside : ∀ x ∈ first :: others, x ∈ cs) (superseded : a.Superseded p first t r c)
    (removed : c.Removed p q (.sum (cs.replace first r)) others s b) :
    a.Gathered p q cs first others t r b := by
  have member : first ∈ cs := inside first List.mem_cons_self
  obtain ⟨notListed, _⟩ := List.nodup_cons.mp nodup
  have long := two_le_length_gathered wf stored inside superseded.fresh
  obtain ⟨notSum, notOwner⟩ := ne_owner_of_child wf stored member
  have replaced := superseded.slot stored
  refine ⟨removed.wf, removed.root.trans superseded.root, superseded.fresh, ?_,
    fun more => (removed.long (long more)).2, fun only => ⟨removed.short ?_, fun m around => ?_⟩,
    fun x out m held => ?_, fun x m held out other away => ?_⟩
  · have slot := superseded.wf.records replaced r
      ((perm_replace member).mem_iff.mpr List.mem_cons_self)
    obtain ⟨m, found⟩ := stored_of_owner? slot
    rw [← superseded.denotes]
    exact removed.denote_eq superseded.wf replaced found (superseded.wf.irrefl slot) fun above =>
      superseded.wf.acyclic r (above.tail slot)
  · rw [show (Element.sum (cs.replace first r)).remaining others = [r] from only]
    exact Nat.lt_add_one 1
  · obtain ⟨rfl, -⟩ := removed.single only
    have apart := wf.irrefl (owner?_of_get? stored)
    exact removed.slot (superseded.kept around (Ne.symm apart) (Ne.symm notOwner))
  · have notOnly := gathered_ne_singleton wf stored inside superseded.fresh held
    rcases List.mem_cons.mp out with rfl | later
    · exact removed.kept (superseded.left held) notListed notSum notOwner notOnly
    · have apart : x ≠ first := fun same => notListed (same ▸ later)
      have notSum := (ne_owner_of_child wf stored (inside x out)).1
      exact removed.removed later (superseded.kept held notSum apart)
  · have notOnly := gathered_ne_singleton wf stored inside superseded.fresh held
    obtain ⟨apart, later⟩ := not_or.mp (mt List.mem_cons.mpr out)
    have kept := superseded.kept held other apart
    by_cases around : x = q
    · subst around
      exact removed.owner_kept (long fun only => away only rfl) kept
    · exact removed.kept kept later other around notOnly

namespace Edit

/-- What is added takes the place of a term of a sum, and other terms can be removed. -/
theorem run_gathered {d : Arena} (wf : a.WellFormed) (adds : a.Adds [t] [r] d)
    (stored : a.get? p = some ⟨some q, .sum cs⟩) (nodup : (first :: others).Nodup)
    (inside : ∀ x ∈ first :: others, x ∈ cs) : ∃ c s b, (replace p first r).run d = .ok () c ∧
      (removeChildren p others).run c = .ok s b ∧ a.Gathered p q cs first others t r b := by
  have terms : cs.Nodup := wf.distinct stored
  have member : first ∈ cs := inside first List.mem_cons_self
  obtain ⟨apart, distinct⟩ := List.nodup_cons.mp nodup
  have superseded := superseded_rewire wf adds stored member
  have held : ∀ x ∈ others, x ∈ cs.replace first r := fun x listed =>
    (mem_replace_iff terms member).mpr
      (.inr ⟨inside x (List.mem_cons_of_mem _ listed), fun same => apart (same ▸ listed)⟩)
  obtain ⟨s, b, run, removed⟩ :=
    exists_removed superseded.wf (superseded.slot stored) rfl distinct held
  exact ⟨_, s, b, adds.run_replace wf stored member (List.mem_singleton_self r), run,
    gathered_of_removed wf stored nodup inside superseded removed⟩

end Edit

end AlgebraEditor
