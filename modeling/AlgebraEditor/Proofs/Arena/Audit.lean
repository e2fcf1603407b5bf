import AlgebraEditor.Arena.Audit
import AlgebraEditor.Proofs.Arena.Orderly

/-!
# Audits

`audit_decides` holds of every arena: the audit ends, it goes through exactly on the orderly ones,
and what it lets through is a tree. An audit that goes on meets nothing twice, so the visits do not
outnumber the places. On an orderly arena what waits for a visit was put there by its owner, which
is seen, so that nothing is met twice in the first place. On a well-formed arena lists of fewer than
two children are all that can be found.
-/

namespace AlgebraEditor.Arena

variable {a b : Arena} {h x w : Handle} {n : Node} {seen waiting : List Handle} {steps : Nat}

/-! ### One element -/

/-- What is asked of one element. -/
theorem auditElement_eq_ok {e : Element} : a.auditElement h e = .ok () ↔
    (e.kind = .root → h = a.root) ∧ e.Filled ∧ ∀ c ∈ e.children, a.owner? c = some h := by
  have child : ∀ c, (a.parent c >>= fun recorded =>
      if recorded ≠ some h then throw (.parentMismatch c h recorded) else pure ()) = .ok () ↔
      a.owner? c = some h := by
    intro c
    rw [← parent_eq_some, bind_eq_ok]
    constructor
    · rintro ⟨recorded, read, checked⟩
      split at checked
      · cases checked
      · rename_i same
        rw [read, not_not.mp same]
    · intro read
      exact ⟨some h, read, if_neg (not_not.mpr rfl)⟩
  unfold auditElement Element.Filled
  by_cases inside : e.kind = .root ∧ h ≠ a.root
  · rw [if_pos inside]
    exact ⟨nofun, fun fits => absurd (fits.1 inside.1) inside.2⟩
  by_cases short : e.kind.isList = true ∧ e.children.length < 2
  · rw [if_neg inside, if_pos short]
    exact ⟨nofun, fun fits => absurd (fits.2.1 short.1) (Nat.not_le_of_lt short.2)⟩
  rw [if_neg inside, if_neg short]
  have records := forM_eq_ok.trans (forall₂_congr fun c (_ : c ∈ e.children) => child c)
  refine records.trans ⟨fun records => ⟨fun kind => ?_, fun isList => ?_, records⟩, fun fits => fits.2.2⟩
  · exact not_not.mp fun other => inside ⟨kind, other⟩
  · exact Nat.le_of_not_lt fun less => short ⟨isList, less⟩

theorem auditElement_ne_endless (h x : Handle) (e : Element) :
    a.auditElement h e ≠ .error (.endless x) := by
  unfold auditElement
  by_cases inside : e.kind = .root ∧ h ≠ a.root
  · rw [if_pos inside]
    rintro ⟨⟩
  by_cases short : e.kind.isList = true ∧ e.children.length < 2
  · rw [if_neg inside, if_pos short]
    rintro ⟨⟩
  rw [if_neg inside, if_neg short]
  refine forM_ne_error fun c _ => bind_ne_error ?_ fun recorded => ?_
  · cases held : a.get? c with
    | none =>
      unfold parent node
      rw [held]
      rintro ⟨⟩
    | some n =>
      rw [parent_of_get? held]
      rintro ⟨⟩
  · split <;> rintro ⟨⟩

/-! ### All visits -/

/-- The visits do not outnumber the places. -/
theorem auditFrom_ne_endless (nodup : seen.Nodup) (stored : ∀ x ∈ seen, ∃ n, a.get? x = some n)
    (enough : a.places.size < steps + seen.length) :
    a.auditFrom steps seen waiting ≠ .error (.endless x) := by
  induction steps generalizing seen waiting with
  | zero =>
    have bound := length_le_of_nodup nodup stored
    omega
  | succ steps ih =>
    match waiting with
    | [] => rintro ⟨⟩
    | h :: waiting =>
      unfold auditFrom
      split
      · rintro ⟨⟩
      rename_i fresh
      cases held : a.get? h with
      | none =>
        unfold element node
        rw [held]
        rintro ⟨⟩
      | some n =>
        rw [element_of_get? held, ok_bind]
        refine bind_ne_error (auditElement_ne_endless h x n.element) fun _ => ?_
        refine ih (List.nodup_cons.mpr ⟨fresh, nodup⟩) (List.forall_mem_cons.mpr ⟨⟨n, held⟩, stored⟩) ?_
        rw [List.length_cons]
        omega

theorem audit_ne_endless (a : Arena) (h : Handle) : a.audit ≠ .error (.endless h) := by
  unfold audit
  cases held : a.get? a.root with
  | none =>
    unfold parent node
    rw [held]
    rintro ⟨⟩
  | some n =>
    rw [parent_of_get? held, ok_bind]
    cases a.owner? a.root with
    | some owner => rintro ⟨⟩
    | none => exact auditFrom_ne_endless .nil nofun (Nat.lt_succ_self _)

/-- One visit, and the audit of what is left. -/
theorem auditFrom_cons_eq_ok : a.auditFrom (steps + 1) seen (h :: waiting) = .ok () ↔
    h ∉ seen ∧ ∃ n, a.get? h = some n ∧ a.auditElement h n.element = .ok () ∧
      a.auditFrom steps (h :: seen) (n.element.children.reverse ++ waiting) = .ok () := by
  rw [auditFrom]
  by_cases met : h ∈ seen
  · rw [if_pos met]
    exact ⟨nofun, fun fits => absurd met fits.1⟩
  rw [if_neg met]
  constructor
  · intro passed
    obtain ⟨e, read, passed⟩ := bind_eq_ok.mp passed
    obtain ⟨n, held, rfl⟩ := element_eq_ok.mp read
    obtain ⟨_, checked, passed⟩ := bind_eq_ok.mp passed
    exact ⟨met, n, held, checked, passed⟩
  · rintro ⟨_, n, held, checked, passed⟩
    rw [element_of_get? held, ok_bind, checked, ok_bind, passed]

/-- What waits for an audit that goes through is met once. -/
theorem fresh_of_auditFrom (passed : a.auditFrom steps seen waiting = .ok ()) :
    waiting.Nodup ∧ ∀ x ∈ waiting, x ∉ seen := by
  induction steps generalizing seen waiting with
  | zero =>
    match waiting with
    | [] => exact ⟨.nil, nofun⟩
  | succ steps ih =>
    match waiting with
    | [] => exact ⟨.nil, nofun⟩
    | h :: waiting =>
      obtain ⟨fresh, n, _, _, passed⟩ := auditFrom_cons_eq_ok.mp passed
      obtain ⟨nodup, apart⟩ := ih passed
      have apart' : ∀ x ∈ waiting, x ∉ h :: seen := fun x member =>
        apart x (List.mem_append_right _ member)
      refine ⟨List.nodup_cons.mpr ⟨fun member => apart' h member List.mem_cons_self,
        (List.nodup_append.mp nodup).2.1⟩, List.forall_mem_cons.mpr ⟨fresh, fun x member inside => ?_⟩⟩
      exact apart' x member (List.mem_cons_of_mem _ inside)

/-- What an audit visits passes the check, and all children of it are visited. -/
theorem visited_of_auditFrom (passed : a.auditFrom steps seen waiting = .ok ()) :
    ∃ visited : List Handle, waiting ⊆ visited ∧ ∀ h ∈ visited, ∃ n, a.get? h = some n ∧
      a.auditElement h n.element = .ok () ∧ n.element.children.Nodup ∧
      n.element.children ⊆ visited := by
  induction steps generalizing seen waiting with
  | zero =>
    match waiting with
    | [] => exact ⟨[], List.Subset.refl _, nofun⟩
  | succ steps ih =>
    match waiting with
    | [] => exact ⟨[], List.Subset.refl _, nofun⟩
    | h :: waiting =>
      obtain ⟨_, n, held, checked, passed⟩ := auditFrom_cons_eq_ok.mp passed
      obtain ⟨visited, part, closed⟩ := ih passed
      obtain ⟨part', part''⟩ := List.append_subset.mp part
      have nodup := (List.nodup_append.mp (fresh_of_auditFrom passed).1).1
      refine ⟨h :: visited, List.cons_subset_cons h part'', List.forall_mem_cons.mpr ⟨?_, ?_⟩⟩
      · refine ⟨n, held, checked, List.nodup_reverse.mp nodup, fun c member => ?_⟩
        exact List.mem_cons_of_mem _ (part' (List.mem_reverse.mpr member))
      · intro x member
        obtain ⟨m, held', checked', nodup', part⟩ := closed x member
        exact ⟨m, held', checked', nodup', fun c inside => List.mem_cons_of_mem _ (part inside)⟩

theorem orderly_of_audit (passed : a.audit = .ok ()) : a.Orderly := by
  unfold audit at passed
  obtain ⟨q, read, passed⟩ := bind_eq_ok.mp passed
  obtain ⟨n, held, rfl⟩ := parent_eq_ok.mp read
  cases free : n.parent with
  | some owner =>
    rw [free] at passed
    cases passed
  | none =>
    rw [free] at passed
    obtain ⟨visited, part, closed⟩ := visited_of_auditFrom passed
    have met : ∀ {h}, a.Reachable h → h ∈ visited := by
      intro h reached
      induction reached with
      | root => exact part List.mem_cons_self
      | child _ stored member ih =>
        obtain ⟨m, held', _, _, part'⟩ := closed _ ih
        cases stored.symm.trans held'
        exact part' member
    have checked : ∀ {h n}, a.Reachable h → a.get? h = some n →
        a.auditElement h n.element = .ok () ∧ n.element.children.Nodup := by
      intro h n reached stored
      obtain ⟨m, held', checked, nodup, _⟩ := closed h (met reached)
      cases stored.symm.trans held'
      exact ⟨checked, nodup⟩
    exact {
      top := ⟨n, held, free⟩
      stored := fun reached => (closed _ (met reached)).imp fun _ => And.left
      records := fun reached stored => (auditElement_eq_ok.mp (checked reached stored).1).2.2
      distinct := fun reached stored => (checked reached stored).2
      filled := fun reached stored => (auditElement_eq_ok.mp (checked reached stored).1).2.1
      only_wrapper := fun reached stored => (auditElement_eq_ok.mp (checked reached stored).1).1 }

namespace Orderly

theorem auditElement_eq_ok (orderly : a.Orderly) (reached : a.Reachable h)
    (stored : a.get? h = some n) : a.auditElement h n.element = .ok () :=
  Arena.auditElement_eq_ok.mpr ⟨orderly.only_wrapper reached stored, orderly.filled reached stored,
    orderly.records reached stored⟩

/-- Whatever is seen or waiting is the root, or was put there by its owner, which is seen. -/
theorem auditFrom_eq_ok (orderly : a.Orderly) (nodup : (seen ++ waiting).Nodup)
    (reached : ∀ x ∈ seen ++ waiting, a.Reachable x)
    (origin : ∀ x ∈ seen ++ waiting, x = a.root ∨ ∃ p ∈ seen, a.owner? x = some p)
    (enough : a.places.size < steps + seen.length) : a.auditFrom steps seen waiting = .ok () := by
  induction steps generalizing seen waiting with
  | zero =>
    have bound := length_le_of_nodup nodup fun x member => orderly.stored (reached x member)
    rw [List.length_append] at bound
    omega
  | succ steps ih =>
    match waiting with
    | [] => rfl
    | h :: waiting =>
      have member : h ∈ seen ++ h :: waiting := by simp
      obtain ⟨distinct, distinct', apart⟩ := List.nodup_append.mp nodup
      have fresh : h ∉ seen := fun inside => apart h inside h List.mem_cons_self rfl
      obtain ⟨n, stored⟩ := orderly.stored (reached h member)
      have records := orderly.records (reached h member) stored
      -- a child was put there by nothing but `h`, which is seen only now
      have new : ∀ c ∈ n.element.children, c ∉ seen ++ h :: waiting := by
        intro c inside listed
        rcases origin c listed with rfl | ⟨p, before, owned⟩
        · cases orderly.owner?_root.symm.trans (records _ inside)
        · cases (records c inside).symm.trans owned
          exact fresh before
      have parts : ((h :: seen) ++ (n.element.children.reverse ++ waiting)).Perm
          (n.element.children ++ (seen ++ h :: waiting)) := by
        have forwards := (List.reverse_perm n.element.children).append_right waiting
        have swapped := List.perm_append_comm_assoc (h :: seen) n.element.children waiting
        have middle : (h :: (seen ++ waiting)).Perm (seen ++ h :: waiting) := List.perm_middle.symm
        exact ((forwards.append_left (h :: seen)).trans swapped).trans
          (middle.append_left n.element.children)
      refine auditFrom_cons_eq_ok.mpr ⟨fresh, n, stored,
        orderly.auditElement_eq_ok (reached h member) stored, ?_⟩
      refine ih ?_ (fun x inside => ?_) (fun x inside => ?_) ?_
      · rw [parts.nodup_iff]
        exact List.nodup_append.mpr ⟨orderly.distinct (reached h member) stored, nodup,
          fun c inside x listed same => new c inside (same ▸ listed)⟩
      · rcases List.mem_append.mp (parts.subset inside) with child | before
        · exact (reached h member).child stored child
        · exact reached x before
      · rcases List.mem_append.mp (parts.subset inside) with child | before
        · exact .inr ⟨h, List.mem_cons_self, records x child⟩
        · obtain same | ⟨p, listed, owned⟩ := origin x before
          · exact .inl same
          · exact .inr ⟨p, List.mem_cons_of_mem _ listed, owned⟩
      · rw [List.length_cons]
        omega

theorem audit_eq_ok (orderly : a.Orderly) : a.audit = .ok () := by
  obtain ⟨n, stored, free⟩ := orderly.top
  unfold audit
  rw [parent_of_get? stored, orderly.owner?_root, ok_bind]
  refine orderly.auditFrom_eq_ok (List.nodup_singleton _) ?_ ?_ (Nat.lt_succ_self _)
  · intro x member
    rw [List.mem_singleton.mp member]
    exact .root
  · exact fun x member => .inl (List.mem_singleton.mp member)

end Orderly

/-- On every arena the audit ends, and goes through exactly if the arena is orderly. What it lets
through is a tree: the pre-order of the root lists each part of it once, and every way up ends at
the root. -/
theorem audit_decides (a : Arena) :
    (∀ h, a.audit ≠ .error (.endless h)) ∧ (a.audit = .ok () ↔ a.Orderly) ∧
    (a.audit = .ok () →
      (∃ xs, a.preOrder a.root = .ok xs ∧ xs.Nodup ∧ ∀ x, x ∈ xs ↔ a.Reachable x) ∧
      ∀ h, a.Reachable h →
        ∃ hs, a.ancestors h = .ok hs ∧ (h :: hs).getLast? = some a.root ∧ (h :: hs).Nodup ∧
          a.isReachable h = .ok true) := by
  refine ⟨a.audit_ne_endless, ⟨orderly_of_audit, Orderly.audit_eq_ok⟩, fun passed => ?_⟩
  have orderly := orderly_of_audit passed
  refine ⟨orderly.preOrder_eq_ok, fun h reached => ?_⟩
  obtain ⟨hs, up, last⟩ := orderly.exists_ascends reached
  exact ⟨hs, up.ancestors_eq_ok, last, up.nodup, orderly.isReachable_eq_ok reached⟩

/-! ### Well-formed arenas -/

theorem Swept.filled (swept : a.Swept b) (filled : a.Filled ∅) : b.Filled ∅ :=
  fun _ _ _ owned found outside => filled (swept.owned owned).2 (swept.stored found) outside

namespace WellFormed

theorem longLists (wf : a.WellFormed) (filled : a.Filled ∅) : a.LongLists := by
  intro h n reached stored isList
  have other : h ≠ a.root := by
    rintro rfl
    obtain ⟨inner, held⟩ := wf.wrapper
    cases held.symm.trans stored
    cases isList
  obtain ⟨p, owned⟩ := reached.owned wf other
  exact filled owned stored (Set.notMem_empty h) isList

/-- The audit goes through exactly if every list of the expression is long. -/
theorem audit_eq_ok_iff (wf : a.WellFormed) : a.audit = .ok () ↔ a.LongLists :=
  ⟨fun passed _ _ reached stored => (orderly_of_audit passed).filled reached stored,
    fun long => (wf.orderly long).audit_eq_ok⟩

theorem audit_eq_ok (wf : a.WellFormed) (filled : a.Filled ∅) : a.audit = .ok () :=
  wf.audit_eq_ok_iff.mpr (wf.longLists filled)

end WellFormed

end AlgebraEditor.Arena
