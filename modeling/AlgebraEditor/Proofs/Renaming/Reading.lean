import AlgebraEditor.Arena.Audit
import AlgebraEditor.Arena.Walk
import AlgebraEditor.Proofs.Arena.Planting
import AlgebraEditor.Proofs.Arena.Slots
import Mathlib.Data.List.Basic

/-!
# Reading under other names

An arena may hold what another one holds under other handles, and more besides. As long as the
handles are renamed injectively, whatever can be read in the one can be read in the other, with the
same answer up to the names. `Embeds` relates the arenas, `Mirrors` the computations. Nothing is asked
of the arenas themselves, and an answer that needs few steps stays the same when more are allowed.
-/

namespace AlgebraEditor

open Function (Injective)

/-! ### Lists of renamed handles -/

section Lists

variable {f : Handle → Handle}

theorem mem_map_iff (inj : Injective f) {h : Handle} {hs : List Handle} :
    f h ∈ hs.map f ↔ h ∈ hs := List.mem_map_of_injective inj

theorem map_of_fixed {hs : List Handle} (fixed : ∀ h ∈ hs, f h = h) : hs.map f = hs :=
  (List.map_congr_left fixed).trans (List.map_id hs)

theorem contains_map (inj : Injective f) (hs : List Handle) (h : Handle) :
    (hs.map f).contains (f h) = hs.contains h := by
  rw [Bool.eq_iff_iff, List.contains_iff_mem, List.contains_iff_mem, mem_map_iff inj]

theorem idxOf?_map (inj : Injective f) (hs : List Handle) (h : Handle) :
    (hs.map f).idxOf? (f h) = hs.idxOf? h := by
  induction hs with
  | nil => rfl
  | cons k hs ih => simp [List.idxOf?_cons, inj.eq_iff, ih]

theorem replace_map (inj : Injective f) (hs : List Handle) (old new : Handle) :
    (hs.map f).replace (f old) (f new) = (hs.replace old new).map f := by
  induction hs with
  | nil => rfl
  | cons k hs ih =>
    by_cases same : k = old
    · simp [same]
    · rw [List.map_cons, replace_cons_of_ne (inj.ne same), replace_cons_of_ne same, ih, List.map_cons]

theorem filter_map_contains (inj : Injective f) (hs ks : List Handle) :
    (hs.map f).filter (!(ks.map f).contains ·) = (hs.filter (!ks.contains ·)).map f := by
  induction hs with
  | nil => rfl
  | cons h hs ih =>
    rw [List.map_cons, List.filter_cons, List.filter_cons, contains_map inj, ih]
    split <;> rfl

end Lists

/-! ### Renamed nodes -/

namespace Element

variable (f : Handle → Handle)

/-- The element with its children under other names. -/
def rename : Element → Element
  | symbol name => symbol name
  | integer value => integer value
  | negation inner => negation (f inner)
  | fraction numerator denominator => fraction (f numerator) (f denominator)
  | power base exponent => power (f base) (f exponent)
  | product factors => product (factors.map f)
  | sum terms => sum (terms.map f)
  | root inner => root (f inner)

@[simp] theorem kind_rename (e : Element) : (e.rename f).kind = e.kind := by cases e <;> rfl

@[simp] theorem children_rename (e : Element) : (e.rename f).children = e.children.map f := by
  cases e <;> rfl

@[simp] theorem negated?_rename (e : Element) : (e.rename f).negated? = e.negated?.map f := by
  cases e <;> rfl

theorem rename_replaceChild {f : Handle → Handle} (inj : Injective f) (old new : Handle)
    (e : Element) : (e.replaceChild old new).rename f = (e.rename f).replaceChild (f old) (f new) := by
  cases e with
  | symbol | integer => rfl
  | negation inner | root inner => simp [replaceChild, rename, inj.eq_iff, apply_ite f]
  | product hs | sum hs => simp [replaceChild, rename, replace_map inj]
  | fraction x y | power x y =>
    by_cases same : x = old <;> simp [replaceChild, rename, same, inj.eq_iff, apply_ite f]

theorem rename_modifyList {f : Handle → Handle} {change change' : List Handle → List Handle}
    (same : ∀ hs, (change hs).map f = change' (hs.map f)) (e : Element) :
    (e.modifyList change).rename f = (e.rename f).modifyList change' := by
  cases e <;> simp [modifyList, rename, same]

theorem rename_of_children {e : Element} (same : ∀ c ∈ e.children, f c = c) : e.rename f = e := by
  cases e with
  | symbol | integer => rfl
  | product hs | sum hs =>
    have unchanged : hs.map f = hs := map_of_fixed same
    rw [rename, unchanged]
  | _ => simp_all [rename, children]

end Element

/-- The node with all its handles under other names. -/
def Node.rename (f : Handle → Handle) (n : Node) : Node := ⟨n.parent.map f, n.element.rename f⟩

/-! ### Readings -/

/-- Whenever the one reading answers, the other gives the same answer, translated. -/
def Mirrors {ε ε' α β : Type} (g : α → β) (m : Except ε α) (m' : Except ε' β) : Prop :=
  ∀ x, m = .ok x → m' = .ok (g x)

namespace Mirrors

variable {ε ε' α β γ δ : Type} {g : α → β} {g' : γ → δ} {m : Except ε α} {m' : Except ε' β}

theorem pure {x : α} {y : β} (same : g x = y) :
    Mirrors g (Pure.pure x : Except ε α) (Pure.pure y : Except ε' β) := by
  rintro _ ⟨⟩
  rw [same]
  rfl

theorem throw {e : ε} : Mirrors g (MonadExcept.throw e : Except ε α) m' := nofun

theorem bind {k : α → Except ε γ} {k' : β → Except ε' δ} (first : Mirrors g m m')
    (rest : ∀ x, Mirrors g' (k x) (k' (g x))) : Mirrors g' (m >>= k) (m' >>= k') := by
  intro y done
  obtain ⟨x, read, later⟩ := bind_eq_ok.mp done
  rw [first x read, ok_bind]
  exact rest x y later

theorem map {k : α → γ} {k' : β → δ} (read : Mirrors g m m') (same : ∀ x, g' (k x) = k' (g x)) :
    Mirrors g' (do return k (← m)) (do return k' (← m')) :=
  read.bind fun x => .pure (same x)

theorem guard {p p' : Prop} [Decidable p] [Decidable p'] (same : p' ↔ p) {n : Except ε α}
    {n' : Except ε' β} (yes : p → Mirrors g m m') (no : ¬ p → Mirrors g n n') :
    Mirrors g (if p then m else n) (if p' then m' else n') := by
  by_cases holds : p
  · rw [if_pos holds, if_pos (same.mpr holds)]
    exact yes holds
  · rw [if_neg holds, if_neg (mt same.mp holds)]
    exact no holds

theorem mapM {k : α → Except ε γ} {k' : β → Except ε' δ} {xs : List α}
    (each : ∀ x, Mirrors g' (k x) (k' (g x))) :
    Mirrors (List.map g') (xs.mapM k) ((xs.map g).mapM k') := by
  induction xs with
  | nil => exact .pure rfl
  | cons x xs ih =>
    rw [List.map_cons, List.mapM_cons, List.mapM_cons]
    exact (each x).bind fun y => ih.map fun ys => rfl

theorem mapM_same {k : α → Except ε γ} {k' : β → Except ε' γ} {xs : List α}
    (each : ∀ x, Mirrors id (k x) (k' (g x))) : Mirrors id (xs.mapM k) ((xs.map g).mapM k') := by
  have all : Mirrors (List.map id) (xs.mapM k) ((xs.map g).mapM k') := mapM each
  rwa [List.map_id_fun] at all

theorem allM {k : α → Except ε Bool} {k' : β → Except ε' Bool} {xs : List α}
    (each : ∀ x, Mirrors id (k x) (k' (g x))) : Mirrors id (xs.allM k) ((xs.map g).allM k') := by
  induction xs with
  | nil => exact .pure rfl
  | cons x xs ih =>
    rw [List.map_cons, List.allM, List.allM]
    refine (each x).bind fun holds => ?_
    cases holds with
    | false => exact .pure rfl
    | true => exact ih

theorem anyM {k : α → Except ε Bool} {k' : β → Except ε' Bool} {xs : List α}
    (each : ∀ x, Mirrors id (k x) (k' (g x))) : Mirrors id (xs.anyM k) ((xs.map g).anyM k') := by
  induction xs with
  | nil => exact .pure rfl
  | cons x xs ih =>
    rw [List.map_cons, List.anyM, List.anyM]
    refine (each x).bind fun holds => ?_
    cases holds with
    | false => exact ih
    | true => exact .pure rfl

theorem forM {k : α → Except ε Unit} {k' : β → Except ε' Unit} {xs : List α}
    (each : ∀ x, Mirrors id (k x) (k' (g x))) : Mirrors id (xs.forM k) ((xs.map g).forM k') := by
  induction xs with
  | nil => exact .pure rfl
  | cons x xs ih =>
    rw [List.map_cons, List.forM, List.forM]
    exact (each x).bind fun _ => ih

theorem foldlM {k : γ → α → Except ε γ} {k' : δ → β → Except ε' δ} {xs : List α}
    (each : ∀ y x, Mirrors g' (k y x) (k' (g' y) (g x))) (y : γ) :
    Mirrors g' (xs.foldlM k y) ((xs.map g).foldlM k' (g' y)) := by
  induction xs generalizing y with
  | nil => exact .pure rfl
  | cons x xs ih =>
    rw [List.map_cons, List.foldlM_cons, List.foldlM_cons]
    exact (each y x).bind ih

theorem filterM {k : α → Except ε Bool} {k' : β → Except ε' Bool} {xs : List α}
    (each : ∀ x, Mirrors id (k x) (k' (g x))) :
    Mirrors (List.map g) (xs.filterM k) ((xs.map g).filterM k') := by
  have aux : ∀ found, Mirrors (List.map g) (List.filterAuxM k xs found)
      (List.filterAuxM k' (xs.map g) (found.map g)) := by
    induction xs with
    | nil => exact fun _ => .pure rfl
    | cons x xs ih =>
      intro found
      rw [List.map_cons, List.filterAuxM, List.filterAuxM]
      refine (each x).bind fun keep => ?_
      cases keep with
      | false => exact ih found
      | true => exact ih (x :: found)
  exact (aux []).map fun _ => List.map_reverse

end Mirrors

/-! ### Arenas -/

/-- The one arena holds what the other holds, under renamed handles. Handles of places that neither
has yet are renamed in order. -/
structure Arena.Embeds (f : Handle → Handle) (a b : Arena) : Prop where
  injective : Injective f
  root : b.root = f a.root
  view : ∀ h, b.get? (f h) = (a.get? h).map (Node.rename f)
  fresh : ∀ i, f ⟨a.places.size + i⟩ = ⟨b.places.size + i⟩
  room : a.places.size ≤ b.places.size

namespace Arena.Embeds

variable {f : Handle → Handle} {a b : Arena} (e : a.Embeds f b)

include e

theorem next : f a.next = b.next := e.fresh 0

theorem reach : a.reach ≤ b.reach := Nat.succ_le_succ e.room

theorem contains (h : Handle) : b.contains (f h) = a.contains h := by
  rw [Arena.contains, Arena.contains, e.view, Option.isSome_map]

/-! ### One element -/

theorem node (h : Handle) : Mirrors (Node.rename f) (a.node h) (b.node (f h)) := by
  intro n read
  rw [node_eq_ok] at read ⊢
  rw [e.view, read, Option.map_some]

theorem element (h : Handle) : Mirrors (Element.rename f) (a.element h) (b.element (f h)) :=
  (e.node h).map fun _ => rfl

theorem kind (h : Handle) : Mirrors id (a.kind h) (b.kind (f h)) :=
  (e.element h).map fun x => (x.kind_rename f).symm

theorem parent (h : Handle) : Mirrors (Option.map f) (a.parent h) (b.parent (f h)) :=
  (e.node h).map fun _ => rfl

theorem children (h : Handle) : Mirrors (List.map f) (a.children h) (b.children (f h)) :=
  (e.element h).map fun x => (x.children_rename f).symm

theorem childIndex (p h : Handle) : Mirrors id (a.childIndex p h) (b.childIndex (f p) (f h)) :=
  (e.children p).map fun hs => (idxOf?_map e.injective hs h).symm

theorem negated? (h : Handle) : Mirrors (Option.map f) (a.negated? h) (b.negated? (f h)) :=
  (e.element h).map fun x => (x.negated?_rename f).symm

theorem content : Mirrors f a.content b.content := by
  rw [Arena.content, Arena.content, e.root]
  refine (e.element a.root).bind fun x => ?_
  cases x with
  | root inner => exact .pure rfl
  | _ => exact .throw

/-! ### Walks -/

theorem climb {i j : Nat} (more : i ≤ j) (h : Handle) :
    Mirrors (List.map f) (a.climb i h) (b.climb j (f h)) := by
  -- an arena with more places allows more steps, so `j` may exceed `i`
  induction i generalizing j h with
  | zero => exact .throw
  | succ i ih =>
    obtain ⟨j, rfl⟩ : ∃ k, j = k + 1 := ⟨j - 1, by omega⟩
    rw [Arena.climb, Arena.climb]
    refine (e.parent h).bind fun above => ?_
    cases above with
    | none => exact .pure rfl
    | some p => exact (ih (by omega) p).map fun _ => rfl

theorem ancestors (h : Handle) : Mirrors (List.map f) (a.ancestors h) (b.ancestors (f h)) :=
  e.climb e.reach h

theorem climbMeets {i j : Nat} (more : i ≤ j) (target h : Handle) :
    Mirrors id (a.climbMeets target i h) (b.climbMeets (f target) j (f h)) := by
  induction i generalizing j h with
  | zero => exact .throw
  | succ i ih =>
    obtain ⟨j, rfl⟩ : ∃ k, j = k + 1 := ⟨j - 1, by omega⟩
    rw [Arena.climbMeets, Arena.climbMeets]
    refine (e.parent h).bind fun above => ?_
    cases above with
    | none => exact .pure rfl
    | some p =>
      refine (e.node p).bind fun _ => .guard e.injective.eq_iff (fun _ => .pure rfl) fun _ => ?_
      exact ih (by omega) p

theorem isAncestorOf (x h : Handle) : Mirrors id (a.isAncestorOf x h) (b.isAncestorOf (f x) (f h)) :=
  e.climbMeets e.reach x h

theorem isReachable (h : Handle) : Mirrors id (a.isReachable h) (b.isReachable (f h)) := by
  rw [Arena.isReachable, Arena.isReachable, e.root]
  refine .guard e.injective.eq_iff (fun _ => .pure rfl) fun _ => (e.ancestors h).map fun hs => ?_
  have last : (hs.map f).getLast? = some (f a.root) ↔ hs.getLast? = some a.root := by
    rw [List.getLast?_map, Option.map_eq_some_iff]
    exact ⟨fun ⟨k, same, named⟩ => by rw [same, e.injective named], fun same => ⟨_, same, rfl⟩⟩
  rw [id, decide_eq_decide.mpr last]

theorem descend {i j : Nat} (more : i ≤ j) (h : Handle) :
    Mirrors (List.map f) (a.descend i h) (b.descend j (f h)) := by
  induction i generalizing j h with
  | zero => exact .throw
  | succ i ih =>
    obtain ⟨j, rfl⟩ : ∃ k, j = k + 1 := ⟨j - 1, by omega⟩
    rw [Arena.descend, Arena.descend]
    refine (e.children h).bind fun hs => ?_
    refine (Mirrors.mapM fun k => ih (by omega) k).map fun below => ?_
    rw [List.map_cons, List.map_flatten]

theorem preOrder (h : Handle) : Mirrors (List.map f) (a.preOrder h) (b.preOrder (f h)) :=
  e.descend e.reach h

theorem lineage (h : Handle) : Mirrors (List.map f) (a.lineage h) (b.lineage (f h)) :=
  (e.ancestors h).map fun hs => by simp

theorem compareLineages (common : Handle) (xs ys : List Handle) :
    Mirrors id (a.compareLineages common xs ys)
      (b.compareLineages (f common) (xs.map f) (ys.map f)) := by
  induction xs generalizing common ys with
  | nil => cases ys <;> exact .pure rfl
  | cons x xs ih =>
    cases ys with
    | nil => exact .pure rfl
    | cons y ys =>
      rw [List.map_cons, List.map_cons, Arena.compareLineages, Arena.compareLineages]
      refine .guard e.injective.eq_iff (fun _ => ih x ys) fun _ => ?_
      exact (e.childIndex common x).bind fun i => (e.childIndex common y).map fun j => rfl

theorem documentOrder (x y : Handle) :
    Mirrors id (a.documentOrder x y) (b.documentOrder (f x) (f y)) := by
  unfold Arena.documentOrder
  refine (e.lineage x).bind fun xs => (e.lineage y).bind fun ys => ?_
  cases xs with
  | nil => exact .throw
  | cons top xs =>
    cases ys with
    | nil => exact .throw
    | cons other ys =>
      exact .guard e.injective.eq_iff (fun _ => e.compareLineages top xs ys) fun _ => .throw

/-! ### Comparing -/

theorem equalWithin {i j : Nat} (more : i ≤ j) (x y : Handle) :
    Mirrors id (a.equalWithin a i x y) (b.equalWithin b j (f x) (f y)) := by
  induction i generalizing j x y with
  | zero => exact .throw
  | succ i ih =>
    obtain ⟨j, rfl⟩ : ∃ k, j = k + 1 := ⟨j - 1, by omega⟩
    rw [Arena.equalWithin, Arena.equalWithin]
    refine (e.element x).bind fun p => (e.element y).bind fun q => ?_
    have parts : Mirrors id
        (if p.kind = q.kind ∧ p.children.length = q.children.length then
          (p.children.zip q.children).allM fun both => a.equalWithin a i both.1 both.2
          else return false)
        (if (p.rename f).kind = (q.rename f).kind ∧
            (p.rename f).children.length = (q.rename f).children.length then
          ((p.rename f).children.zip (q.rename f).children).allM fun both =>
            b.equalWithin b j both.1 both.2
          else return false) := by
      refine .guard (by simp) (fun _ => ?_) fun _ => .pure rfl
      rw [Element.children_rename, Element.children_rename, List.zip_map]
      exact .allM fun both => ih (by omega) both.1 both.2
    cases p with
    | symbol | integer => cases q <;> exact .pure rfl
    | _ => exact parts

theorem equal (x y : Handle) : Mirrors id (a.equal x y) (b.equal (f x) (f y)) :=
  e.equalWithin (Nat.add_le_add e.reach e.reach) x y

/-! ### The audit -/

theorem auditElement (h : Handle) (x : Element) :
    Mirrors id (a.auditElement h x) (b.auditElement (f h) (x.rename f)) := by
  unfold Arena.auditElement
  refine .guard (by simp [e.root, e.injective.eq_iff]) (fun _ => nofun) fun _ => ?_
  refine .guard (by simp) (fun _ => nofun) fun _ => ?_
  rw [Element.children_rename]
  refine .forM fun c => (e.parent c).bind fun recorded => .guard ?_ (fun _ => nofun) fun _ => .pure rfl
  cases recorded <;> simp [e.injective.eq_iff]

theorem auditFrom {i j : Nat} (more : i ≤ j) (seen waiting : List Handle) :
    Mirrors id (a.auditFrom i seen waiting) (b.auditFrom j (seen.map f) (waiting.map f)) := by
  induction i generalizing j seen waiting with
  | zero =>
    cases waiting with
    | nil =>
      cases j <;> exact .pure rfl
    | cons h waiting => exact .throw
  | succ i ih =>
    obtain ⟨j, rfl⟩ : ∃ k, j = k + 1 := ⟨j - 1, by omega⟩
    cases waiting with
    | nil => exact .pure rfl
    | cons h waiting =>
      rw [List.map_cons, Arena.auditFrom, Arena.auditFrom]
      refine .guard (mem_map_iff e.injective) (fun _ => nofun) fun _ => ?_
      refine (e.element h).bind fun x => (e.auditElement h x).bind fun _ => ?_
      have later := ih (j := j) (by omega) (h :: seen) (x.children.reverse ++ waiting)
      simpa using later

theorem audit : Mirrors id a.audit b.audit := by
  unfold Arena.audit
  rw [e.root]
  refine (e.parent a.root).bind fun owner => ?_
  cases owner with
  | none => exact e.auditFrom e.reach [] [a.root]
  | some p => exact nofun

end Arena.Embeds

end AlgebraEditor
