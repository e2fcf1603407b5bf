import AlgebraEditor.Arena.Element
import Mathlib.Data.List.Nodup
import Mathlib.Data.List.Perm.Basic

/-!
# Slots

Where the children of an element stand, and what happens to them when one of them leaves its slot to
another, and when a list is changed.
-/

namespace AlgebraEditor

variable {hs : List Handle} {old new x y : Handle} {i : Nat}

/-! ### Positions -/

theorem idxOf?_getElem (nodup : hs.Nodup) (inside : i < hs.length) :
    hs.idxOf? hs[i] = some i := by
  refine List.idxOf?_eq_some_iff.mpr ⟨inside, rfl, fun j less same => ?_⟩
  exact Nat.ne_of_lt less (nodup.getElem_inj_iff.mp same)

theorem idxOf?_append_cons {before after : List Handle} (fresh : x ∉ before) :
    (before ++ x :: after).idxOf? x = some before.length := by
  rw [List.idxOf?_eq_some_iff]
  refine ⟨by simp, by simp, fun j less same => ?_⟩
  rw [List.getElem_append_left less] at same
  exact fresh (same ▸ List.getElem_mem less)

theorem exists_idxOf? (member : x ∈ hs) : ∃ i, hs.idxOf? x = some i := by
  cases found : hs.idxOf? x with
  | none => exact absurd member (List.idxOf?_eq_none_iff.mp found)
  | some i => exact ⟨i, rfl⟩

theorem lt_of_idxOf? (found : hs.idxOf? x = some i) : i < hs.length :=
  (List.idxOf?_eq_some_iff.mp found).1

theorem getElem_of_idxOf? (found : hs.idxOf? x = some i) (inside : i < hs.length) : hs[i] = x :=
  (List.idxOf?_eq_some_iff.mp found).2.1

theorem mem_of_idxOf? (found : hs.idxOf? x = some i) : x ∈ hs := by
  rw [← getElem_of_idxOf? found (lt_of_idxOf? found)]
  exact List.getElem_mem _

theorem eq_of_idxOf? (found : hs.idxOf? x = some i) (found' : hs.idxOf? y = some i) : x = y := by
  rw [← getElem_of_idxOf? found (lt_of_idxOf? found), getElem_of_idxOf? found']

theorem drop_of_idxOf? (found : hs.idxOf? x = some i) : hs.drop i = x :: hs.drop (i + 1) := by
  rw [List.drop_eq_getElem_cons (lt_of_idxOf? found), getElem_of_idxOf? found]

/-- What is found stands between what comes before its position and what comes after it. -/
theorem between_of_idxOf? (found : hs.idxOf? x = some i) :
    hs = hs.take i ++ x :: hs.drop (i + 1) := by
  rw [← drop_of_idxOf? found, List.take_append_drop]

/-! ### Changed slots -/

theorem replace_cons_of_ne {h : Handle} (other : h ≠ old) :
    (h :: hs).replace old new = h :: hs.replace old new := by
  rw [List.replace_cons]
  simp only [beq_eq_false_iff_ne.mpr (Ne.symm other)]

theorem perm_replace (member : old ∈ hs) : (hs.replace old new).Perm (new :: hs.erase old) := by
  induction hs with
  | nil => cases member
  | cons h hs ih =>
    by_cases same : h = old
    · subst same
      rw [List.replace_cons_self, List.erase_cons_head]
    · have later : old ∈ hs := by simpa [Ne.symm same] using member
      rw [replace_cons_of_ne same, List.erase_cons_tail (by simpa using same)]
      exact ((ih later).cons h).trans (.swap new h _)

theorem mem_replace_iff (nodup : hs.Nodup) (member : old ∈ hs) :
    y ∈ hs.replace old new ↔ y = new ∨ (y ∈ hs ∧ y ≠ old) := by
  rw [(perm_replace member).mem_iff, List.mem_cons, nodup.mem_erase_iff, and_comm]

theorem nodup_replace (nodup : hs.Nodup) (member : old ∈ hs) (fresh : new ∉ hs) :
    (hs.replace old new).Nodup := by
  rw [(perm_replace member).nodup_iff, List.nodup_cons]
  exact ⟨fun inside => fresh (List.mem_of_mem_erase inside), nodup.erase old⟩

theorem replace_self : hs.replace old old = hs := by
  induction hs with
  | nil => rfl
  | cons h hs ih =>
    by_cases same : h = old
    · rw [same, List.replace_cons_self]
    · rw [replace_cons_of_ne same, ih]

theorem replace_eq_set (nodup : hs.Nodup) {k : Nat} (found : hs[k]? = some old) :
    hs.replace old new = hs.set k new := by
  induction hs generalizing k with
  | nil => cases found
  | cons h hs ih =>
    obtain ⟨fresh, nodup⟩ := List.nodup_cons.mp nodup
    cases k with
    | zero =>
      cases found
      rw [List.replace_cons_self, List.set_cons_zero]
    | succ k =>
      have other : h ≠ old := fun same => fresh (same ▸ List.mem_of_getElem? found)
      rw [replace_cons_of_ne other, List.set_cons_succ, ih nodup found]

theorem replace_between {before after : List Handle} (fresh : old ∉ before) :
    (before ++ old :: after).replace old new = before ++ new :: after := by
  rw [List.replace_append_right fresh, List.replace_cons_self]

theorem insertIdx_between {α : Type} (before after : List α) (new : α) :
    (before ++ after).insertIdx before.length new = before ++ new :: after := by
  induction before with
  | nil => rfl
  | cons h before ih => simp [ih]

theorem not_mem_before {before after : List Handle} {h : Handle}
    (nodup : (before ++ h :: after).Nodup) : h ∉ before := fun member =>
  (List.nodup_append.mp nodup).2.2 h member h List.mem_cons_self rfl

/-- What takes the place of one child stands in front of the others in some order. -/
theorem perm_splice {before after : List Handle} {h : Handle} (nodup : (before ++ h :: after).Nodup)
    (xs : List Handle) :
    (before ++ xs ++ after).Perm (xs ++ (before ++ h :: after).erase h) := by
  rw [List.erase_append_right _ (not_mem_before nodup), List.erase_cons_head, List.append_assoc]
  exact List.perm_append_comm_assoc before xs after

theorem filter_between {before after : List Handle} (nodup : (before ++ hs ++ after).Nodup) :
    (before ++ hs ++ after).filter (!hs.contains ·) = before ++ after := by
  obtain ⟨nodup, _, apart'⟩ := List.nodup_append.mp nodup
  obtain ⟨_, _, apart⟩ := List.nodup_append.mp nodup
  have first : before.filter (!hs.contains ·) = before :=
    List.filter_eq_self.mpr fun h member => by
      simpa using fun inside => apart h member h inside rfl
  have last : after.filter (!hs.contains ·) = after :=
    List.filter_eq_self.mpr fun h member => by
      simpa using fun inside => apart' h (List.mem_append_right before inside) h member rfl
  have between : hs.filter (!hs.contains ·) = [] :=
    List.filter_eq_nil_iff.mpr fun h member => by simpa using member
  rw [List.filter_append, List.filter_append, first, last, between, List.append_nil]

theorem replace_eq_map (nodup : hs.Nodup) :
    hs.replace old new = hs.map fun h => if h = old then new else h := by
  induction hs with
  | nil => rfl
  | cons h hs ih =>
    obtain ⟨fresh, nodup⟩ := List.nodup_cons.mp nodup
    by_cases same : h = old
    · subst same
      have others : (hs.map fun x => if x = h then new else x) = hs.map id :=
        List.map_congr_left fun x member => if_neg (by rintro rfl; exact fresh member)
      rw [List.replace_cons_self, List.map_cons, if_pos rfl, others, List.map_id]
    · rw [replace_cons_of_ne same, List.map_cons, if_neg same, ih nodup]

/-- Some distinct members and those that are left make up the whole list. -/
theorem perm_append_filter {xs : List Handle} (nodup : hs.Nodup) (distinct : xs.Nodup)
    (held : ∀ x ∈ xs, x ∈ hs) : hs.Perm (xs ++ hs.filter (!xs.contains ·)) := by
  have parts := List.filter_append_perm (xs.contains ·) hs
  have same : (hs.filter (xs.contains ·)).Perm xs := by
    rw [List.perm_ext_iff_of_nodup (nodup.filter _) distinct]
    intro y
    rw [List.mem_filter, List.contains_iff_mem]
    exact ⟨And.right, fun member => ⟨held y member, member⟩⟩
  exact parts.symm.trans (same.append_right _)

/-- Where one member leaves its slot to a new one and some others leave the list, the same members
stay as in the list without all of these. -/
theorem perm_replace_filter {xs : List Handle} (nodup : hs.Nodup) (member : old ∈ hs)
    (distinct : xs.Nodup) (others : ∀ x ∈ xs, x ∈ hs.erase old) (fresh : new ∉ xs) :
    ∃ left, hs.Perm (old :: (xs ++ left)) ∧
      ((hs.replace old new).filter (!xs.contains ·)).Perm (new :: left) := by
  refine ⟨(hs.erase old).filter (!xs.contains ·), ?_, ?_⟩
  · exact (List.perm_cons_erase member).trans
      ((perm_append_filter (nodup.erase old) distinct others).cons old)
  · refine ((perm_replace member).filter _).trans ?_
    rw [List.filter_cons_of_pos]
    simpa using fresh

theorem map_replace {α : Type*} {v w : Handle → α} (nodup : hs.Nodup)
    (kept : ∀ c ∈ hs, c ≠ old → w c = v c) (exchanged : w new = v old) :
    (hs.replace old new).map w = hs.map v := by
  induction hs with
  | nil => rfl
  | cons h hs ih =>
    obtain ⟨fresh, nodup⟩ := List.nodup_cons.mp nodup
    by_cases here : h = old
    · subst here
      have others : hs.map w = hs.map v := List.map_congr_left fun c member =>
        kept c (List.mem_cons_of_mem _ member) fun same => fresh (same ▸ member)
      rw [List.replace_cons_self, List.map_cons, List.map_cons, exchanged, others]
    · rw [replace_cons_of_ne here, List.map_cons, List.map_cons, kept h List.mem_cons_self here,
        ih nodup fun c member => kept c (List.mem_cons_of_mem _ member)]

theorem replace_replace {mid : Handle} (fresh : mid ∉ hs) :
    (hs.replace old mid).replace mid new = hs.replace old new := by
  induction hs with
  | nil => rfl
  | cons h hs ih =>
    obtain ⟨other, fresh⟩ := not_or.mp (mt List.mem_cons.mpr fresh)
    by_cases here : h = old
    · subst here
      rw [List.replace_cons_self, List.replace_cons_self, List.replace_cons_self]
    · rw [replace_cons_of_ne here, replace_cons_of_ne (Ne.symm other), replace_cons_of_ne here,
        ih fresh]

namespace Element

theorem replaceChild_replaceChild {mid : Handle} {e : Element} (fresh : mid ∉ e.children) :
    (e.replaceChild old mid).replaceChild mid new = e.replaceChild old new := by
  cases e with
  | product hs | sum hs =>
    have slots : (hs.replace old mid).replace mid new = hs.replace old new := replace_replace fresh
    rw [replaceChild, replaceChild, slots, replaceChild]
  | _ => grind [replaceChild, children]

theorem mem_replaceChild {e : Element} (new : Handle) (nodup : e.children.Nodup)
    (member : old ∈ e.children) :
    y ∈ (e.replaceChild old new).children ↔ y = new ∨ (y ∈ e.children ∧ y ≠ old) := by
  rw [children_replaceChild, mem_replace_iff nodup member]

/-- The other children keep their positions. -/
theorem children_replaceChild_eq_set {e : Element} {k : Nat} (new : Handle)
    (nodup : e.children.Nodup) (slot : e.children[k]? = some old) :
    (e.replaceChild old new).children = e.children.set k new := by
  rw [children_replaceChild, replace_eq_set nodup slot]

theorem modifyList_eq (f : List Handle → List Handle) (e : Element) :
    e.modifyList f = e.modifyList fun _ => f e.children := by
  cases e <;> rfl

theorem modifyList_modifyList (f g : List Handle → List Handle) (e : Element) :
    (e.modifyList f).modifyList g = e.modifyList (g ∘ f) := by
  cases e <;> rfl

end Element

end AlgebraEditor
