import AlgebraEditor.Arena.Edit
import Mathlib.Data.List.Forall2

/-!
# Outcomes

What the outcome of a composed computation says about its parts, for readings of an arena and for
edits of it.
-/

namespace AlgebraEditor

/-! ### Readings -/

section Reading

variable {ε α β : Type}

theorem bind_eq_ok {x : Except ε α} {f : α → Except ε β} {b : β} :
    (x >>= f) = .ok b ↔ ∃ a, x = .ok a ∧ f a = .ok b := by
  cases x with
  | ok a => exact ⟨fun h => ⟨a, rfl, h⟩, fun ⟨_, same, h⟩ => by cases same; exact h⟩
  | error e => exact ⟨nofun, fun ⟨_, same, _⟩ => nomatch same⟩

theorem bind_ne_error {x : Except ε α} {f : α → Except ε β} {e : ε} (first : x ≠ .error e)
    (rest : ∀ a, f a ≠ .error e) : (x >>= f) ≠ .error e := by
  cases x with
  | ok a => exact rest a
  | error e' => exact fun same => first (by cases same; rfl)

theorem pure_eq_ok {a b : α} : (pure a : Except ε α) = .ok b ↔ a = b :=
  ⟨fun h => by cases h; rfl, fun h => by rw [h]; rfl⟩

theorem ok_bind (a : α) (f : α → Except ε β) : ((Except.ok a : Except ε α) >>= f) = f a := rfl

theorem mapM_eq_ok {f : α → Except ε β} {xs : List α} {ys : List β} :
    xs.mapM f = .ok ys ↔ List.Forall₂ (fun x y => f x = .ok y) xs ys := by
  induction xs generalizing ys with
  | nil =>
    rw [List.mapM_nil, pure_eq_ok, List.forall₂_nil_left_iff]
    exact eq_comm
  | cons x xs ih =>
    rw [List.mapM_cons, bind_eq_ok, List.forall₂_cons_left_iff]
    constructor
    · rintro ⟨y, read, rest⟩
      obtain ⟨zs, later, same⟩ := bind_eq_ok.mp rest
      exact ⟨y, zs, read, ih.mp later, (pure_eq_ok.mp same).symm⟩
    · rintro ⟨y, zs, read, later, rfl⟩
      exact ⟨y, read, bind_eq_ok.mpr ⟨zs, ih.mpr later, rfl⟩⟩

theorem mapM_outcome {f : α → Except ε β} {Q : α → β → Prop} {xs : List α}
    (each : ∀ x ∈ xs, ∃ y, f x = .ok y ∧ Q x y) :
    ∃ ys, xs.mapM f = .ok ys ∧ List.Forall₂ Q xs ys := by
  induction xs with
  | nil => exact ⟨[], rfl, .nil⟩
  | cons x xs ih =>
    obtain ⟨y, read, holds⟩ := each x List.mem_cons_self
    obtain ⟨ys, later, rest⟩ := ih fun x member => each x (List.mem_cons_of_mem _ member)
    exact ⟨y :: ys, by rw [List.mapM_cons, read, later]; rfl, .cons holds rest⟩

theorem exists_of_mem_right {Q : α → β → Prop} {xs : List α} {ys : List β} {y : β}
    (all : List.Forall₂ Q xs ys) (member : y ∈ ys) : ∃ x ∈ xs, Q x y := by
  induction all with
  | nil => cases member
  | @cons x z xs ys holds _ ih =>
    rcases List.mem_cons.mp member with rfl | later
    · exact ⟨x, List.mem_cons_self, holds⟩
    · obtain ⟨w, inside, holds'⟩ := ih later
      exact ⟨w, List.mem_cons_of_mem _ inside, holds'⟩

theorem mapM_eq_map {f : α → Except ε β} {g : α → β} {xs : List α}
    (all : ∀ x ∈ xs, f x = .ok (g x)) : xs.mapM f = .ok (xs.map g) := by
  rw [mapM_eq_ok, List.forall₂_map_right_iff, List.forall₂_same]
  exact all

theorem allM_eq_all {f : α → Except ε Bool} {g : α → Bool} {xs : List α}
    (all : ∀ x ∈ xs, f x = .ok (g x)) : xs.allM f = .ok (xs.all g) := by
  induction xs with
  | nil => rfl
  | cons x xs ih =>
    rw [List.allM, all x List.mem_cons_self, ok_bind, List.all_cons]
    cases g x with
    | false => rfl
    | true => exact ih fun y member => all y (List.mem_cons_of_mem _ member)

theorem of_allM {f : α → Except ε Bool} {xs : List α} (all : xs.allM f = .ok true) :
    ∀ x ∈ xs, f x = .ok true := by
  induction xs with
  | nil => nofun
  | cons x xs ih =>
    unfold List.allM at all
    obtain ⟨first, read, rest⟩ := bind_eq_ok.mp all
    cases first with
    | false => cases rest
    | true => exact List.forall_mem_cons.mpr ⟨read, ih rest⟩

theorem forM_eq_ok {f : α → Except ε Unit} {xs : List α} :
    xs.forM f = .ok () ↔ ∀ x ∈ xs, f x = .ok () := by
  induction xs with
  | nil => exact ⟨fun _ => nofun, fun _ => rfl⟩
  | cons x xs ih =>
    rw [List.forM, bind_eq_ok, List.forall_mem_cons]
    exact ⟨fun ⟨_, first, rest⟩ => ⟨first, ih.mp rest⟩, fun ⟨first, rest⟩ => ⟨_, first, ih.mpr rest⟩⟩

theorem forM_ne_error {f : α → Except ε Unit} {xs : List α} {e : ε} (none : ∀ x ∈ xs, f x ≠ .error e) :
    xs.forM f ≠ .error e := by
  induction xs with
  | nil => nofun
  | cons x xs ih =>
    obtain ⟨head, tail⟩ := List.forall_mem_cons.mp none
    rw [List.forM]
    exact bind_ne_error head fun _ => ih tail

theorem foldlM_eq_foldl {f : β → α → Except ε β} {g : β → α → β} {xs : List α} {y : β}
    (all : ∀ x ∈ xs, ∀ y, f y x = .ok (g y x)) : xs.foldlM f y = .ok (xs.foldl g y) := by
  induction xs generalizing y with
  | nil => rfl
  | cons x xs ih =>
    rw [List.foldlM_cons, all x List.mem_cons_self, ok_bind, List.foldl_cons]
    exact ih fun z member => all z (List.mem_cons_of_mem _ member)

theorem anyM_eq_any {f : α → Except ε Bool} {g : α → Bool} {xs : List α}
    (all : ∀ x ∈ xs, f x = .ok (g x)) : xs.anyM f = .ok (xs.any g) := by
  induction xs with
  | nil => rfl
  | cons x xs ih =>
    rw [List.anyM, all x List.mem_cons_self, ok_bind, List.any_cons]
    cases g x with
    | true => rfl
    | false => exact ih fun y member => all y (List.mem_cons_of_mem _ member)

theorem filterM_eq_filter {f : α → Except ε Bool} {g : α → Bool} {xs : List α}
    (all : ∀ x ∈ xs, f x = .ok (g x)) : xs.filterM f = .ok (xs.filter g) := by
  have aux : ∀ xs ys : List α, (∀ x ∈ xs, f x = .ok (g x)) →
      List.filterAuxM f xs ys = .ok ((xs.filter g).reverse ++ ys) := by
    intro xs
    induction xs with
    | nil => exact fun _ _ => rfl
    | cons x xs ih =>
      intro ys all
      obtain ⟨head, tail⟩ := List.forall_mem_cons.mp all
      rw [List.filterAuxM, head, ok_bind, ih _ tail]
      cases kept : g x <;> simp [kept]
  rw [List.filterM, aux xs [] all, ok_bind, List.append_nil, List.reverse_reverse]
  rfl

end Reading

/-! ### Edits -/

namespace Edit

variable {α β : Type} {a a' : Arena}

theorem run_bind_eq_ok {x : Edit α} {f : α → Edit β} {b : β} :
    (x >>= f).run a = .ok b a' ↔ ∃ y a₁, x.run a = .ok y a₁ ∧ (f y).run a₁ = .ok b a' := by
  rw [EStateM.run_bind]
  cases x.run a with
  | ok y a₁ => exact ⟨fun h => ⟨y, a₁, rfl, h⟩, fun ⟨_, _, same, h⟩ => by cases same; exact h⟩
  | error e a₁ => exact ⟨nofun, fun ⟨_, _, same, _⟩ => nomatch same⟩

theorem run_pure_eq_ok {x y : α} : (pure x : Edit α).run a = .ok y a' ↔ x = y ∧ a = a' := by
  rw [EStateM.run_pure, EStateM.Result.ok.injEq]

theorem run_inspect (read : Arena → Except Fault α) :
    (inspect read).run a = match read a with
      | .ok x => .ok x a
      | .error fault => .error fault a := rfl

theorem run_inspect_eq_ok {read : Arena → Except Fault α} {x : α} :
    (inspect read).run a = .ok x a' ↔ read a = .ok x ∧ a = a' := by
  rw [run_inspect]
  cases read a with
  | ok y => simp
  | error e => simp

theorem run_inspect_of_ok {read : Arena → Except Fault α} {x : α} (h : read a = .ok x) :
    (inspect read).run a = .ok x a := by
  rw [run_inspect, h]

theorem run_bind_of_ok {x : Edit α} {f : α → Edit β} {y : α} {a₁ : Arena} (h : x.run a = .ok y a₁) :
    (x >>= f).run a = (f y).run a₁ := by
  rw [EStateM.run_bind, h]

theorem run_discard {x : Edit α} {y : α} (h : x.run a = .ok y a') :
    (discard x).run a = .ok () a' := by
  change EStateM.map (fun _ => ()) x a = _
  unfold EStateM.map
  rw [show x a = .ok y a' from h]

theorem run_discard_eq_ok {x : Edit α} {u : Unit} :
    (discard x).run a = .ok u a' ↔ ∃ y, x.run a = .ok y a' := by
  constructor
  · intro run
    cases done : x.run a with
    | ok y b =>
      rw [run_discard done] at run
      cases run
      exact ⟨y, rfl⟩
    | error fault b =>
      have failed : (discard x).run a = .error fault b := by
        change EStateM.map (fun _ => ()) x a = _
        unfold EStateM.map
        rw [show x a = .error fault b from done]
      rw [failed] at run
      cases run
  · rintro ⟨y, done⟩
    exact run_discard done

theorem run_modify_bind (change : Arena → Arena) (f : PUnit → Edit β) :
    (modify change >>= f).run a = (f ⟨⟩).run (change a) := rfl

theorem run_get_bind {f : Arena → Edit β} {r : β} :
    (get >>= f).run a = .ok r b ↔ (f a).run a = .ok r b := by
  rw [run_bind_of_ok (EStateM.run_get a)]

theorem run_inspect_bind {read : Arena → Except Fault α} {f : α → Edit β} {r : β} :
    (inspect read >>= f).run a = .ok r b ↔ ∃ y, read a = .ok y ∧ (f y).run a = .ok r b := by
  rw [run_bind_eq_ok]
  simp only [run_inspect_eq_ok]
  constructor
  · rintro ⟨y, _, ⟨h, rfl⟩, k⟩; exact ⟨y, h, k⟩
  · rintro ⟨y, h, k⟩; exact ⟨y, _, ⟨h, rfl⟩, k⟩

/-- A guard lets pass what it does not refuse. -/
theorem run_guard {p : Prop} [Decidable p] {fault : Fault} {f : PUnit → Edit β} {r : β} :
    (if p then throw fault >>= f else f ⟨⟩).run a = .ok r b ↔ ¬ p ∧ (f ⟨⟩).run a = .ok r b := by
  split
  · rename_i holds
    exact ⟨nofun, fun h => absurd holds h.1⟩
  · rename_i fails
    exact ⟨fun h => ⟨fails, h⟩, fun h => h.2⟩

theorem run_last_guard {p : Prop} [Decidable p] {fault : Fault} {r : Unit} :
    (if p then throw fault else pure () : Edit Unit).run a = .ok r b ↔ ¬ p ∧ b = a := by
  split
  · rename_i holds
    exact ⟨nofun, fun h => absurd holds h.1⟩
  · rename_i fails
    rw [run_pure_eq_ok]
    exact ⟨fun h => ⟨fails, h.2.symm⟩, fun h => ⟨rfl, h.2.symm⟩⟩

theorem run_throw_bind {fault : Fault} {f : α → Edit β} {r : β} :
    (throw fault >>= f).run a ≠ .ok r b := nofun

end Edit

end AlgebraEditor
