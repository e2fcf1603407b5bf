import AlgebraEditor.Proofs.Arena.Reachability
import AlgebraEditor.Proofs.Renaming.Reading

/-!
# Editing under other names

An edit of an arena can be followed in any arena that embeds it: it goes through there as well, with
the same answer under the other names, and one arena embeds the other again. `Follows` says so of two
edits; it holds of the primitive ones and is kept by every way to compose them.
-/

namespace AlgebraEditor

open Function (Injective)

variable {f : Handle → Handle}

/-! ### Changed arenas -/

namespace Arena

variable {a b : Arena} {h : Handle}

namespace Embeds

variable (e : a.Embeds f b)

include e

theorem push (n : Node) : (a.push n).Embeds f (b.push (n.rename f)) where
  injective := e.injective
  root := e.root
  view h := by
    by_cases last : h = a.next
    · rw [last, e.next, get?_push_self, get?_push_self]
      rfl
    · have last' : f h ≠ b.next := fun same => last (e.injective (same.trans e.next.symm))
      rw [get?_push_of_ne _ _ last, get?_push_of_ne _ _ last', e.view]
  fresh i := by simp [Arena.push, Nat.add_assoc, e.fresh]
  room := by simpa [Arena.push] using e.room

theorem modify (h : Handle) {change change' : Node → Node}
    (same : ∀ n, (change n).rename f = change' (n.rename f)) :
    (a.modify h change).Embeds f (b.modify (f h) change') where
  injective := e.injective
  root := e.root
  view k := by
    rw [get?_modify, get?_modify, e.view]
    simp only [e.injective.eq_iff]
    split
    · cases a.get? k <;> simp [same]
    · rfl
  fresh i := by simpa [Arena.modify] using e.fresh i
  room := by simpa [Arena.modify] using e.room

theorem retain (kept : List Handle) : (a.retain kept).Embeds f (b.retain (kept.map f)) where
  injective := e.injective
  root := e.root
  view h := by
    rw [get?_retain, get?_retain, e.view]
    simp only [mem_map_iff e.injective]
    split <;> rfl
  fresh i := by simpa [Arena.retain] using e.fresh i
  room := by simpa [Arena.retain] using e.room

end Embeds

end Arena

/-! ### Followed edits -/

namespace Edit

/-- Whenever the one edit goes through, the other one does so in every arena that embeds the arena
of the first, with the same answer, translated. -/
def Follows {α β : Type} (f : Handle → Handle) (g : α → β) (x : Edit α) (y : Edit β) : Prop :=
  ∀ a b r a', a.Embeds f b → x.run a = .ok r a' → ∃ b', y.run b = .ok (g r) b' ∧ a'.Embeds f b'

namespace Follows

variable {α β γ δ : Type} {g : α → β} {g' : γ → δ} {x : Edit α} {y : Edit β}

theorem pure {r : α} {r' : β} (same : g r = r') :
    Follows f g (Pure.pure r : Edit α) (Pure.pure r' : Edit β) := by
  intro a b r' a' e run
  obtain ⟨rfl, rfl⟩ := run_pure_eq_ok.mp run
  exact ⟨b, run_pure_eq_ok.mpr ⟨same.symm, rfl⟩, e⟩

theorem throw {fault : Fault} : Follows f g (MonadExcept.throw fault : Edit α) y :=
  fun _ _ _ _ _ => nofun

theorem throw_bind {fault : Fault} {k : γ → Edit α} :
    Follows f g ((MonadExcept.throw fault : Edit γ) >>= k) y := fun _ _ _ _ _ => nofun

theorem bind {k : α → Edit γ} {k' : β → Edit δ} (first : Follows f g x y)
    (rest : ∀ r, Follows f g' (k r) (k' (g r))) : Follows f g' (x >>= k) (y >>= k') := by
  intro a b s a' e run
  obtain ⟨r, a₁, before, after⟩ := run_bind_eq_ok.mp run
  obtain ⟨b₁, before', e₁⟩ := first a b r a₁ e before
  obtain ⟨b', after', e'⟩ := rest r a₁ b₁ s a' e₁ after
  exact ⟨b', run_bind_eq_ok.mpr ⟨g r, b₁, before', after'⟩, e'⟩

theorem inspect {read : Arena → Except Fault α} {read' : Arena → Except Fault β}
    (mirrors : ∀ {a b : Arena}, a.Embeds f b → Mirrors g (read a) (read' b)) :
    Follows f g (Edit.inspect read) (Edit.inspect read') := by
  intro a b r a' e run
  obtain ⟨read, rfl⟩ := run_inspect_eq_ok.mp run
  exact ⟨b, run_inspect_of_ok (mirrors e r read), e⟩

theorem get_bind {k : Arena → Edit α} {k' : Arena → Edit β}
    (each : ∀ {a b : Arena}, a.Embeds f b → Follows f g (k a) (k' b)) :
    Follows f g (get >>= k) (get >>= k') := by
  intro a b r a' e run
  obtain ⟨b', run', e'⟩ := each e a b r a' e (run_get_bind.mp run)
  exact ⟨b', run_get_bind.mpr run', e'⟩

theorem changed {change change' : Arena → Arena}
    (same : ∀ {a b : Arena}, a.Embeds f b → (change a).Embeds f (change' b)) :
    Follows f id (modify change : Edit PUnit) (modify change') := by
  rintro a b r _ e ⟨⟩
  exact ⟨_, rfl, same e⟩

theorem discarded (same : Follows f g x y) : Follows f id (discard x) (discard y) :=
  same.bind fun _ => .pure rfl

theorem guard {p p' : Prop} [Decidable p] [Decidable p'] (same : p' ↔ p) {z : Edit α} {z' : Edit β}
    (yes : p → Follows f g x y) (no : ¬ p → Follows f g z z') :
    Follows f g (if p then x else z) (if p' then y else z') := by
  by_cases holds : p
  · rw [if_pos holds, if_pos (same.mpr holds)]
    exact yes holds
  · rw [if_neg holds, if_neg (mt same.mp holds)]
    exact no holds

theorem forM {k : α → Edit Unit} {k' : β → Edit Unit} {xs : List α}
    (each : ∀ x, Follows f id (k x) (k' (g x))) : Follows f id (xs.forM k) ((xs.map g).forM k') := by
  induction xs with
  | nil => exact .pure rfl
  | cons x xs ih =>
    rw [List.map_cons, List.forM, List.forM]
    exact (each x).bind fun _ => ih

theorem mapM {k : α → Edit γ} {k' : β → Edit δ} {xs : List α}
    (each : ∀ x, Follows f g' (k x) (k' (g x))) :
    Follows f (List.map g') (xs.mapM k) ((xs.map g).mapM k') := by
  induction xs with
  | nil => exact .pure rfl
  | cons x xs ih =>
    rw [List.map_cons, List.mapM_cons, List.mapM_cons]
    exact (each x).bind fun y => ih.bind fun ys => .pure rfl

/-! ### The primitive edits -/

theorem parentOf (h : Handle) :
    Follows f (Option.map f) (Edit.parentOf h) (Edit.parentOf (f h)) := .inspect fun e => e.parent h

theorem kindOf (h : Handle) : Follows f id (Edit.kindOf h) (Edit.kindOf (f h)) :=
  .inspect fun e => e.kind h

theorem childrenOf (h : Handle) :
    Follows f (List.map f) (Edit.childrenOf h) (Edit.childrenOf (f h)) :=
  .inspect fun e => e.children h

theorem negatedOf (h : Handle) :
    Follows f (Option.map f) (Edit.negatedOf h) (Edit.negatedOf (f h)) :=
  .inspect fun e => e.negated? h

theorem store (n : Node) : Follows f f (Edit.store n) (Edit.store (n.rename f)) := by
  -- both answer with the place they fill, and these places go by the same renaming
  rintro a b _ _ e ⟨⟩
  refine ⟨b.push (n.rename f), ?_, e.push n⟩
  change EStateM.Result.ok b.next _ = _
  rw [e.next]

/-! ### Ownership -/

section

variable (inj : Injective f)

include inj

theorem checkAttachable (container child : Handle) :
    Follows f id (Edit.checkAttachable container child)
      (Edit.checkAttachable (f container) (f child)) := by
  unfold Edit.checkAttachable
  refine get_bind fun e => guard (by rw [e.root, inj.eq_iff]) (fun _ => throw_bind) fun _ => ?_
  refine (parentOf child).bind fun owner => ?_
  cases owner with
  | some p => exact throw_bind
  | none =>
    refine guard inj.eq_iff (fun _ => throw_bind) fun _ => ?_
    refine (inspect fun e => e.isAncestorOf child container).bind fun above => ?_
    exact guard Iff.rfl (fun _ => throw) fun _ => .pure rfl

theorem attach (container child : Handle) :
    Follows f id (Edit.attach container child) (Edit.attach (f container) (f child)) :=
  (checkAttachable inj container child).bind fun _ => changed fun e => e.modify child fun _ => rfl

theorem detach (container child : Handle) :
    Follows f id (Edit.detach container child) (Edit.detach (f container) (f child)) := by
  refine (parentOf child).bind fun owner => guard ?_ (fun _ => throw_bind) fun _ =>
    changed fun e => e.modify child fun _ => rfl
  exact (Option.map_injective inj).ne_iff (y := some container)

/-! ### New elements -/

theorem create (x : Element) : Follows f f (Edit.create x) (Edit.create (x.rename f)) := by
  unfold Edit.create
  rw [Element.children_rename]
  exact (store ⟨none, x⟩).bind fun h => (forM fun c => attach inj h c).bind fun _ => .pure rfl

theorem integer (value : UInt64) : Follows f f (Edit.integer value) (Edit.integer value) :=
  create inj (.integer value)

theorem negation (inner : Handle) : Follows f f (Edit.negation inner) (Edit.negation (f inner)) :=
  create inj (.negation inner)

theorem gather {k : List Handle → Element} (renamed : ∀ hs, (k hs).rename f = k (hs.map f))
    (identity : UInt64) (hs : List Handle) :
    Follows f f (Edit.gather k identity hs) (Edit.gather k identity (hs.map f)) := by
  match hs with
  | [] => exact integer inj identity
  | [only] =>
    refine (parentOf only).bind fun owner => ?_
    cases owner with
    | none => exact .pure rfl
    | some p => exact throw_bind
  | x :: y :: rest =>
    have made := create inj (k (x :: y :: rest))
    rwa [renamed] at made

theorem product (hs : List Handle) : Follows f f (Edit.product hs) (Edit.product (hs.map f)) :=
  gather inj (fun _ => rfl) 1 hs

theorem sum (hs : List Handle) : Follows f f (Edit.sum hs) (Edit.sum (hs.map f)) :=
  gather inj (fun _ => rfl) 0 hs

/-- A copy is followed by one that may go deeper. -/
theorem copyWithin {i j : Nat} (more : i ≤ j) (h : Handle) :
    Follows f f (Edit.copyWithin i h) (Edit.copyWithin j (f h)) := by
  induction i generalizing j h with
  | zero => exact throw
  | succ i ih =>
    obtain ⟨j, rfl⟩ : ∃ k, j = k + 1 := ⟨j - 1, by omega⟩
    have part := fun k => ih (j := j) (by omega) k
    rw [Edit.copyWithin, Edit.copyWithin]
    refine (inspect fun e => e.element h).bind fun x => ?_
    cases x with
    | symbol name => exact create inj (.symbol name)
    | integer value => exact integer inj value
    | negation inner => exact (part inner).bind fun c => negation inj c
    | fraction x y =>
      exact (part x).bind fun c => (part y).bind fun d => create inj (.fraction c d)
    | power x y => exact (part x).bind fun c => (part y).bind fun d => create inj (.power c d)
    | product hs => exact (mapM part).bind fun cs => create inj (.product cs)
    | sum hs => exact (mapM part).bind fun cs => create inj (.sum cs)
    | root inner => exact throw

theorem copy (h : Handle) : Follows f f (Edit.copy h) (Edit.copy (f h)) :=
  get_bind fun e => copyWithin inj e.reach h

/-! ### Changing slots -/

theorem replace (container old new : Handle) :
    Follows f id (Edit.replace container old new) (Edit.replace (f container) (f old) (f new)) := by
  have elsewhere : ∀ owner : Option Handle,
      owner.map f ≠ some (f container) ↔ owner ≠ some container := fun owner =>
    (Option.map_injective inj).ne_iff (y := some container)
  refine guard inj.eq_iff (fun _ => ?_) fun _ => ?_
  · refine (parentOf old).bind fun owner => ?_
    exact guard (elsewhere owner) (fun _ => throw_bind) fun _ => .pure rfl
  refine (parentOf old).bind fun owner => ?_
  refine guard (elsewhere owner) (fun _ => throw_bind) fun _ => ?_
  refine (childrenOf container).bind fun hs => ?_
  refine guard (not_congr (mem_map_iff inj)) (fun _ => throw_bind) fun _ => ?_
  refine (checkAttachable inj container new).bind fun _ => ?_
  refine (changed fun e => e.modify container fun n => ?_).bind fun _ => ?_
  · exact congrArg (Node.mk _) (n.element.rename_replaceChild inj old new)
  · exact (detach inj container old).bind fun _ => attach inj container new

theorem replaceWith (h : Handle) {build build' : Handle → Edit Handle}
    (each : ∀ k, Follows f f (build k) (build' (f k))) :
    Follows f f (Edit.replaceWith h build) (Edit.replaceWith (f h) build') := by
  refine (parentOf h).bind fun owner => ?_
  cases owner with
  | none => exact throw
  | some p =>
    refine (integer inj 0).bind fun placeholder => ?_
    refine (replace inj p h placeholder).bind fun _ => (each h).bind fun new => ?_
    exact (replace inj p placeholder new).bind fun _ => .pure rfl

theorem setContent (new : Handle) : Follows f f (Edit.setContent new) (Edit.setContent (f new)) := by
  refine (inspect fun e => e.content).bind fun old => get_bind fun e => ?_
  rw [e.root]
  exact (replace inj _ old new).bind fun _ => .pure rfl

theorem insertChild (list : Handle) (index : Nat) (child : Handle) :
    Follows f id (Edit.insertChild list index child) (Edit.insertChild (f list) index (f child)) := by
  refine (inspect fun e => e.element list).bind fun x => ?_
  refine guard (by rw [Element.kind_rename]) (fun _ => throw_bind) fun _ => ?_
  refine guard (by rw [Element.children_rename, List.length_map]) (fun _ => throw_bind) fun _ => ?_
  refine (checkAttachable inj list child).bind fun _ => ?_
  refine (changed fun e => e.modify list fun n => ?_).bind fun _ => attach inj list child
  exact congrArg (Node.mk _) (n.element.rename_modifyList fun hs => List.map_insertIdx f hs index child)

theorem firstNotRemovable_map (current before children : List Handle) :
    Edit.firstNotRemovable (current.map f) (before.map f) (children.map f) =
      (Edit.firstNotRemovable current before children).map f := by
  induction children generalizing before with
  | nil => rfl
  | cons child rest ih =>
    rw [List.map_cons, Edit.firstNotRemovable, Edit.firstNotRemovable, ← List.map_cons, ih]
    simp only [mem_map_iff inj]
    split <;> rfl

theorem removeChildren (list : Handle) (children : List Handle) :
    Follows f f (Edit.removeChildren list children)
      (Edit.removeChildren (f list) (children.map f)) := by
  refine (kindOf list).bind fun kind => ?_
  unfold id
  cases kind.identity? with
  | none => exact throw
  | some value =>
    refine (parentOf list).bind fun owner => ?_
    cases owner with
    | none => exact throw
    | some p =>
      refine (childrenOf list).bind fun current => ?_
      have same := firstNotRemovable_map inj current [] children
      rw [List.map_nil] at same
      rw [same]
      cases Edit.firstNotRemovable current [] children with
      | some bad => exact throw_bind
      | none =>
        refine (changed fun e => e.modify list fun n => ?_).bind fun _ => ?_
        · exact congrArg (Node.mk _)
            (n.element.rename_modifyList fun hs => (filter_map_contains inj hs children).symm)
        refine (forM fun c => detach inj list c).bind fun _ => (childrenOf list).bind fun left => ?_
        cases left with
        | nil =>
          refine (integer inj value).bind fun new => ?_
          exact (replace inj p list new).bind fun _ => .pure rfl
        | cons only more =>
          cases more with
          | cons => exact .pure rfl
          | nil =>
            refine (changed fun e => e.modify list fun n => ?_).bind fun _ => ?_
            · have emptied : (n.element.modifyList fun _ => []).rename f =
                  (n.element.rename f).modifyList fun _ => [] := by
                cases n.element <;> rfl
              exact congrArg (Node.mk _) emptied
            refine (detach inj list only).bind fun _ => ?_
            exact (replace inj p list only).bind fun _ => .pure rfl

end

end Follows

/-- A sweep can be followed as well, but it may have more to remove. -/
theorem sweep_embeds {a a' b : Arena} {count : Nat} (e : a.Embeds f b)
    (swept : sweep.run a = .ok count a') :
    ∃ count' b', sweep.run b = .ok count' b' ∧ a'.Embeds f b' := by
  obtain ⟨kept, read, rest⟩ := run_inspect_bind.mp (run_get_bind.mp swept)
  cases rest
  have read' : b.preOrder b.root = .ok (kept.map f) := by
    rw [e.root]
    exact e.preOrder _ kept read
  exact ⟨_, b.retain (kept.map f), run_get_bind.mpr (run_inspect_bind.mpr ⟨_, read', rfl⟩),
    e.retain kept⟩

end Edit

end AlgebraEditor
