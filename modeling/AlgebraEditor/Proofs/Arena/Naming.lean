import AlgebraEditor.Proofs.Arena.Reachability
import AlgebraEditor.Proofs.Law.Basic

/-!
# Names

No edit makes up a name. Whatever holds of the names of all symbols of an arena, and of those that are
added, holds of the names afterwards.
-/

namespace AlgebraEditor

variable {P : String → Prop} {a b : Arena} {h : Handle} {n : Node} {t : Term}

/-! ### Terms -/

namespace Term

/-- The names of all symbols in the term have the property. -/
def Named (P : String → Prop) (t : Term) : Prop := t.All fun u => ∀ name, u = .symbol name → P name

theorem Named.of_children (other : ∀ name, t ≠ .symbol name) (parts : ∀ u ∈ t.children, u.Named P) :
    t.Named P :=
  .mk (fun name same => absurd same (other name)) parts

end Term

/-! ### Arenas -/

namespace Arena

/-- The names of all symbols in the arena have the property. -/
def Named (P : String → Prop) (a : Arena) : Prop :=
  ∀ h n name, a.get? h = some n → n.element = .symbol name → P name

theorem named_zero (P : String → Prop) : zero.Named P := by
  intro h n name stored same
  rcases get?_zero.mp stored with ⟨-, rfl⟩ | ⟨-, rfl⟩
  · cases same
  · cases same

namespace Named

theorem push (named : a.Named P) (new : ∀ name, n.element = .symbol name → P name) :
    (a.push n).Named P := by
  intro h m name stored same
  by_cases last : h = a.next
  · subst last
    rw [get?_push_self] at stored
    cases stored
    exact new name same
  · rw [get?_push_of_ne a n last] at stored
    exact named h m name stored same

/-- A change that makes no symbol of another element can be made anywhere. -/
theorem modify (named : a.Named P) {f : Node → Node}
    (old : ∀ n name, (f n).element = .symbol name → n.element = .symbol name) :
    (a.modify h f).Named P := by
  intro k n name stored same
  rw [get?_modify] at stored
  split at stored
  · obtain ⟨m, held, rfl⟩ := Option.map_eq_some_iff.mp stored
    exact named k m name held (old m name same)
  · exact named k n name stored same

theorem retain (named : a.Named P) (kept : List Handle) : (a.retain kept).Named P := by
  intro h n name stored same
  rw [get?_retain] at stored
  split at stored
  · exact named h n name stored same
  · cases stored

/-- What is read off an arena has the names of the arena. -/
theorem readTerm (named : a.Named P) {depth : Nat}
    (read : a.readTerm depth h = .ok t) : t.Named P := by
  induction depth generalizing h t with
  | zero => cases read
  | succ depth ih =>
    have list : ∀ {hs : List Handle} {ts : List Term},
        hs.mapM (a.readTerm depth) = .ok ts → ∀ t ∈ ts, t.Named P := by
      intro hs ts read t member
      obtain ⟨_, -, read⟩ := exists_of_mem_right (mapM_eq_ok.mp read) member
      exact ih read
    unfold Arena.readTerm at read
    obtain ⟨e, element, read⟩ := bind_eq_ok.mp read
    obtain ⟨n, stored, rfl⟩ := element_eq_ok.mp element
    split at read
    case h_1 name shape =>
      cases read
      refine .mk (fun _ same => ?_) nofun
      cases same
      exact named h n name stored shape
    case h_2 =>
      cases read
      exact .of_children nofun nofun
    case h_3 | h_8 =>
      obtain ⟨inner, found, done⟩ := bind_eq_ok.mp read
      cases done
      exact .of_children nofun (List.forall_mem_singleton.mpr (ih found))
    case h_4 | h_5 =>
      obtain ⟨first, found, rest⟩ := bind_eq_ok.mp read
      obtain ⟨second, found', done⟩ := bind_eq_ok.mp rest
      cases done
      refine .of_children nofun (List.forall_mem_cons.mpr ⟨ih found, ?_⟩)
      exact List.forall_mem_singleton.mpr (ih found')
    case h_6 | h_7 =>
      obtain ⟨parts, found, done⟩ := bind_eq_ok.mp read
      cases done
      exact .of_children nofun (list found)

theorem denote (named : a.Named P) (wf : a.WellFormed) (stored : a.get? h = some n) :
    (a.denote h).Named P := named.readTerm (wf.term_eq_ok stored)

end Named

end Arena

/-! ### Edits -/

namespace Element

theorem replaceChild_eq_symbol {e : Element} {old new : Handle} {name : String}
    (same : e.replaceChild old new = .symbol name) : e = .symbol name := by
  have kind : (e.replaceChild old new).kind = .symbol := congrArg Element.kind same
  rw [kind_replaceChild] at kind
  cases e <;> simp_all [Element.kind, replaceChild]

theorem modifyList_eq_symbol {e : Element} {f : List Handle → List Handle} {name : String}
    (same : e.modifyList f = .symbol name) : e = .symbol name := by
  cases e <;> simp_all [modifyList]

end Element

namespace Edit

/-- If the edit goes through, what held of all names still does. -/
def KeepsNames {α : Type} (P : String → Prop) (x : Edit α) : Prop :=
  ∀ a r b, a.Named P → x.run a = .ok r b → b.Named P

namespace KeepsNames

variable {α β : Type} {x : Edit α} {f : α → Edit β}

theorem pure (r : α) : KeepsNames P (Pure.pure r : Edit α) := by
  intro a _ b named run
  obtain ⟨-, rfl⟩ := run_pure_eq_ok.mp run
  exact named

theorem throw (fault : Fault) : KeepsNames P (MonadExcept.throw fault : Edit α) :=
  fun _ _ _ _ => nofun

theorem throw_bind (fault : Fault) : KeepsNames P ((MonadExcept.throw fault : Edit α) >>= f) :=
  fun _ _ _ _ run => absurd run run_throw_bind

theorem bind (first : x.KeepsNames P) (rest : ∀ y, (f y).KeepsNames P) :
    (x >>= f).KeepsNames P := by
  intro a r b named run
  obtain ⟨y, c, before, after⟩ := run_bind_eq_ok.mp run
  exact rest y c r b (first a y c named before) after

/-- What is read may be used knowing where it was read. -/
theorem inspect_bind {read : Arena → Except Fault α}
    (each : ∀ a y, a.Named P → read a = .ok y → (f y).KeepsNames P) :
    (inspect read >>= f).KeepsNames P := by
  intro a r b named run
  obtain ⟨y, found, rest⟩ := run_inspect_bind.mp run
  exact each a y named found a r b named rest

theorem get_bind {f : Arena → Edit α} (each : ∀ a, (f a).KeepsNames P) :
    (get >>= f).KeepsNames P := fun a r b named run => each a a r b named (run_get_bind.mp run)

theorem inspect (read : Arena → Except Fault α) : (inspect read).KeepsNames P := by
  intro a r b named run
  obtain ⟨-, rfl⟩ := run_inspect_eq_ok.mp run
  exact named

theorem guard {p : Prop} [Decidable p] {y : Edit α} (yes : x.KeepsNames P) (no : y.KeepsNames P) :
    (if p then x else y).KeepsNames P := by
  split
  · exact yes
  · exact no

theorem discard (keeps : x.KeepsNames P) : (Functor.discard x).KeepsNames P :=
  keeps.bind fun _ => pure ()

theorem forM {xs : List α} {f : α → Edit Unit} (each : ∀ y ∈ xs, (f y).KeepsNames P) :
    (xs.forM f).KeepsNames P := by
  induction xs with
  | nil => exact pure _
  | cons y ys ih =>
    obtain ⟨head, tail⟩ := List.forall_mem_cons.mp each
    exact head.bind fun _ => ih tail

theorem mapM {xs : List α} (each : ∀ y ∈ xs, (f y).KeepsNames P) : (xs.mapM f).KeepsNames P := by
  induction xs with
  | nil => exact pure _
  | cons y ys ih =>
    obtain ⟨head, tail⟩ := List.forall_mem_cons.mp each
    rw [List.mapM_cons]
    exact head.bind fun _ => (ih tail).bind fun _ => pure _

/-! ### The primitive edits -/

theorem parentOf (h : Handle) : (parentOf h).KeepsNames P := inspect _

theorem kindOf (h : Handle) : (kindOf h).KeepsNames P := inspect _

theorem childrenOf (h : Handle) : (childrenOf h).KeepsNames P := inspect _

theorem negatedOf (h : Handle) : (negatedOf h).KeepsNames P := inspect _

theorem store (new : ∀ name, n.element = .symbol name → P name) : (store n).KeepsNames P := by
  rintro a _ _ named ⟨⟩
  exact named.push new

theorem modify (h : Handle) {change : Node → Node}
    (old : ∀ n name, (change n).element = .symbol name → n.element = .symbol name) :
    (modify (·.modify h change) : Edit PUnit).KeepsNames P := by
  rintro a _ _ named ⟨⟩
  exact named.modify old

/-! ### Ownership -/

theorem checkAttachable (container child : Handle) :
    (checkAttachable container child).KeepsNames P := by
  unfold Edit.checkAttachable
  refine get_bind fun _ => guard (throw_bind _) ((parentOf child).bind fun owner => ?_)
  cases owner with
  | some p => exact throw_bind _
  | none => exact guard (throw_bind _) ((inspect _).bind fun _ => guard (throw _) (pure _))

theorem attach (container child : Handle) : (attach container child).KeepsNames P :=
  (checkAttachable container child).bind fun _ => modify child fun _ _ => id

theorem detach (container child : Handle) : (detach container child).KeepsNames P :=
  (parentOf child).bind fun _ => guard (throw_bind _) (modify child fun _ _ => id)

/-! ### New elements -/

theorem create {e : Element} (new : ∀ name, e = .symbol name → P name) : (create e).KeepsNames P :=
  (store new).bind fun h => (forM fun c _ => attach h c).bind fun _ => pure h

theorem integer (value : UInt64) : (integer value).KeepsNames P := create nofun

theorem negation (inner : Handle) : (negation inner).KeepsNames P := create nofun

theorem gather (k : List Handle → Element) (identity : UInt64)
    (list : ∀ hs, (k hs).kind ≠ .symbol) (hs : List Handle) :
    (gather k identity hs).KeepsNames P := by
  match hs with
  | [] => exact integer identity
  | [only] =>
    refine (parentOf only).bind fun owner => ?_
    cases owner with
    | none => exact pure only
    | some p => exact throw_bind _
  | x :: y :: rest => exact create fun name same => absurd (by rw [same]; rfl) (list (x :: y :: rest))

theorem product (hs : List Handle) : (product hs).KeepsNames P := gather .product 1 (fun _ => nofun) hs

theorem sum (hs : List Handle) : (sum hs).KeepsNames P := gather .sum 0 (fun _ => nofun) hs

/-- Only names that are read are copied. -/
theorem copyWithin (depth : Nat) (h : Handle) : (copyWithin depth h).KeepsNames P := by
  induction depth generalizing h with
  | zero => exact throw _
  | succ depth ih =>
    unfold Edit.copyWithin
    refine inspect_bind fun a e named read => ?_
    cases e with
    | symbol name =>
      obtain ⟨n, stored, same⟩ := Arena.element_eq_ok.mp read
      exact create fun _ other => Element.symbol.inj other ▸ named h n name stored same
    | integer value => exact integer value
    | negation inner => exact (ih inner).bind fun _ => negation _
    | fraction x y | power x y => exact (ih x).bind fun _ => (ih y).bind fun _ => create (by simp)
    | product hs | sum hs => exact (mapM fun c _ => ih c).bind fun _ => create (by simp)
    | root inner => exact throw _

theorem copy (h : Handle) : (copy h).KeepsNames P := get_bind fun a => copyWithin a.reach h

/-! ### Changing slots -/

theorem replace (container old new : Handle) : (replace container old new).KeepsNames P := by
  unfold Edit.replace
  refine guard ((parentOf old).bind fun _ => guard (throw_bind _) (pure _)) ?_
  refine (parentOf old).bind fun _ => guard (throw_bind _) ?_
  refine (childrenOf container).bind fun _ => guard (throw_bind _) ?_
  refine (checkAttachable container new).bind fun _ => ?_
  refine (modify container fun _ _ => Element.replaceChild_eq_symbol).bind fun _ => ?_
  exact (detach container old).bind fun _ => attach container new

theorem replaceWith (h : Handle) {build : Handle → Edit Handle}
    (built : (build h).KeepsNames P) : (replaceWith h build).KeepsNames P := by
  unfold Edit.replaceWith
  refine (parentOf h).bind fun owner => ?_
  cases owner with
  | none => exact throw _
  | some p =>
    refine (integer 0).bind fun placeholder => (replace p h placeholder).bind fun _ => ?_
    exact built.bind fun new => (replace p placeholder new).bind fun _ => pure new

theorem setContent (new : Handle) : (setContent new).KeepsNames P :=
  (inspect _).bind fun old => get_bind fun a => (replace a.root old new).bind fun _ => pure old

theorem insertChild (list : Handle) (index : Nat) (child : Handle) :
    (insertChild list index child).KeepsNames P := by
  unfold Edit.insertChild
  refine (inspect _).bind fun _ => guard (throw_bind _) (guard (throw_bind _) ?_)
  refine (checkAttachable list child).bind fun _ => ?_
  refine (modify list fun _ _ => Element.modifyList_eq_symbol).bind fun _ => ?_
  exact attach list child

theorem removeChildren (list : Handle) (children : List Handle) :
    (removeChildren list children).KeepsNames P := by
  unfold Edit.removeChildren
  refine (kindOf list).bind fun kind => ?_
  cases kind.identity? with
  | none => exact throw _
  | some identity =>
    refine (parentOf list).bind fun owner => ?_
    cases owner with
    | none => exact throw _
    | some p =>
      refine (childrenOf list).bind fun current => ?_
      cases firstNotRemovable current [] children with
      | some bad => exact throw_bind _
      | none =>
        refine (modify list fun _ _ => Element.modifyList_eq_symbol).bind fun _ => ?_
        refine (forM fun c _ => detach list c).bind fun _ => (childrenOf list).bind fun rest => ?_
        match rest with
        | [] =>
          refine (integer identity).bind fun value => ?_
          exact (replace p list value).bind fun _ => pure value
        | [only] =>
          refine (modify list fun _ _ => Element.modifyList_eq_symbol).bind fun _ => ?_
          refine (detach list only).bind fun _ => ?_
          exact (replace p list only).bind fun _ => pure only
        | _ :: _ :: _ => exact pure list

theorem sweep : sweep.KeepsNames P := by
  intro a r b named run
  unfold Edit.sweep at run
  rw [run_get_bind, run_inspect_bind] at run
  obtain ⟨kept, -, done⟩ := run
  cases done
  exact named.retain kept

end KeepsNames

end Edit

end AlgebraEditor
