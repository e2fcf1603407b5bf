import AlgebraEditor.Proofs.Renaming.Reading
import AlgebraEditor.Proofs.Selection.Moving

/-!
# Selecting under other names

Selections are asked for, moved and grown under other names just as under the given ones: the same
requests are refused for the same reasons, and what is selected is the same but for the names.
-/

namespace AlgebraEditor

open Function (Injective)

variable {f : Handle → Handle} {a b : Arena}

/-! ### Computations that a select error may end -/

namespace Select

/-- Whenever the one computation answers, the other gives the same answer, translated. A select
error is an answer as well. -/
def Follows {α β : Type} (g : α → β) (m : Select α) (m' : Select β) : Prop :=
  Mirrors (Except.map g) m.run m'.run

namespace Follows

variable {α β γ δ : Type} {g : α → β} {g' : γ → δ} {m : Select α} {m' : Select β}

theorem pure {x : α} {y : β} (same : g x = y) :
    Follows g (Pure.pure x : Select α) (Pure.pure y : Select β) :=
  Mirrors.pure (congrArg Except.ok same)

theorem throw_bind {e : SelectError} {k : γ → Select α} {k' : δ → Select β} :
    Follows g ((MonadExcept.throw e : Select γ) >>= k) ((MonadExcept.throw e : Select δ) >>= k') :=
  Mirrors.pure rfl

theorem fault {e : Fault} : Follows g (throwThe Fault e : Select α) m' := nofun

theorem bind {k : α → Select γ} {k' : β → Select δ} (first : Follows g m m')
    (rest : ∀ x, Follows g' (k x) (k' (g x))) : Follows g' (m >>= k) (m' >>= k') := by
  unfold Follows
  rw [ExceptT.run_bind, ExceptT.run_bind]
  refine Mirrors.bind first fun out => ?_
  cases out with
  | ok x => exact rest x
  | error e => exact .pure rfl

theorem read {m : Except Fault α} {m' : Except Fault β} {k : α → Select γ} {k' : β → Select δ}
    (first : Mirrors g m m') (rest : ∀ x, Follows g' (k x) (k' (g x))) :
    Follows g' ((liftM m : Select α) >>= k) ((liftM m' : Select β) >>= k') := by
  intro out done
  cases read : m with
  | error => rw [read] at done; cases done
  | ok x =>
    rw [run_lift_bind read] at done
    rw [run_lift_bind (first x read)]
    exact rest x out done

theorem guard {p p' : Prop} [Decidable p] [Decidable p'] (same : p' ↔ p) {n : Select α}
    {n' : Select β} (yes : p → Follows g m m') (no : ¬ p → Follows g n n') :
    Follows g (if p then m else n) (if p' then m' else n') := by
  by_cases holds : p
  · rw [if_pos holds, if_pos (same.mpr holds)]
    exact yes holds
  · rw [if_neg holds, if_neg (mt same.mp holds)]
    exact no holds

theorem anyM {k : α → Select Bool} {k' : β → Select Bool} {xs : List α}
    (each : ∀ x, Follows id (k x) (k' (g x))) : Follows id (xs.anyM k) ((xs.map g).anyM k') := by
  induction xs with
  | nil => exact .pure rfl
  | cons x xs ih =>
    rw [List.map_cons, List.anyM, List.anyM]
    refine (each x).bind fun holds => ?_
    cases holds with
    | false => exact ih
    | true => exact .pure rfl

end Follows

end Select

/-! ### Requests -/

namespace Selection

open Select (Follows)

/-- The selection with its elements under other names. -/
def rename (f : Handle → Handle) (s : Selection) : Selection := ⟨f s.first, s.rest.map f⟩

@[simp] theorem toList_rename (s : Selection) : (s.rename f).toList = s.toList.map f := rfl

theorem last_rename (s : Selection) : (s.rename f).last = f s.last := by
  simp only [last, rename, List.getLastD_eq_getLast?, List.getLast?_map]
  cases s.rest.getLast? <;> rfl

theorem dropRepeated_map (inj : Injective f) (hs : List Handle) :
    dropRepeated (hs.map f) = (dropRepeated hs).map f := by
  induction hs using dropRepeated.induct with
  | case1 => rfl
  | case2 h => rfl
  | case3 k rest ih => simpa [dropRepeated] using ih
  | case4 h k rest other ih =>
    have other' : f h ≠ f k := inj.ne other
    simpa [dropRepeated, other, other'] using ih

section

variable (e : a.Embeds f b)

include e

theorem insertReversed_mirrors (h : Handle) (sorted : List Handle) :
    Mirrors (List.map f) (insertReversed a h sorted) (insertReversed b (f h) (sorted.map f)) := by
  induction sorted with
  | nil => exact .pure rfl
  | cons last before ih =>
    refine (e.documentOrder h last).bind fun order => ?_
    exact .guard Iff.rfl (fun _ => ih.map fun _ => rfl) fun _ => .pure rfl

theorem sortByDocument_mirrors (hs : List Handle) :
    Mirrors (List.map f) (sortByDocument a hs) (sortByDocument b (hs.map f)) :=
  (Mirrors.foldlM (fun sorted h => insertReversed_mirrors e h sorted) []).map fun _ =>
    List.map_reverse

theorem areSelectable_mirrors (hs : List Handle) :
    Mirrors id (areSelectable a hs) (areSelectable b (hs.map f)) :=
  .allM fun h => .guard (by rw [e.contains]) (fun _ => .pure rfl) fun _ => e.isReachable h

theorem outermost_mirrors (hs : List Handle) :
    Mirrors (List.map f) (outermost a hs) (outermost b (hs.map f)) := by
  have inside : ∀ h, Mirrors id (hs.anyM fun other => a.isAncestorOf other h)
      ((hs.map f).anyM fun other => b.isAncestorOf other (f h)) := fun h =>
    .anyM fun other => e.isAncestorOf other h
  exact .filterM fun h => (inside h).map fun _ => rfl

theorem ofSiblings_follows (first : Handle) (rest : List Handle) :
    Follows (rename f) (ofSiblings a first rest) (ofSiblings b (f first) (rest.map f)) := by
  refine .read (e.parent first) fun parent => ?_
  have differs : Follows id (rest.anyM fun h => return (← a.parent h) ≠ parent)
      ((rest.map f).anyM fun h => return (← b.parent h) ≠ parent.map f) := by
    refine .anyM fun h => .read (e.parent h) fun owner => .pure ?_
    exact decide_eq_decide.mpr (Option.map_injective e.injective).ne_iff.symm
  refine differs.bind fun _ => .guard Iff.rfl (fun _ => .throw_bind) fun _ => ?_
  cases parent with
  | none => exact .fault
  | some p =>
    refine .read (e.children p) fun siblings => ?_
    have positions : ((first :: rest).map f).mapM ((siblings.map f).idxOf? ·) =
        (first :: rest).mapM (siblings.idxOf? ·) := by
      rw [List.mapM_map]
      exact congrArg (List.mapM · _) (funext fun h => idxOf?_map e.injective siblings h)
    rw [← List.map_cons, positions]
    cases (first :: rest).mapM (siblings.idxOf? ·) with
    | none => exact .fault
    | some positions =>
      refine .guard Iff.rfl (fun _ => .throw_bind) fun _ => ?_
      refine .guard ?_ (fun _ => .pure rfl) fun _ => .pure rfl
      rw [List.length_map, List.length_map]

theorem resolve_follows (hs : List Handle) :
    Follows (rename f) (resolve a hs) (resolve b (hs.map f)) := by
  refine .guard (by rw [List.isEmpty_map]) (fun _ => .throw_bind) fun _ => ?_
  refine .read (areSelectable_mirrors e hs) fun _ => ?_
  refine .guard Iff.rfl (fun _ => .throw_bind) fun _ => ?_
  refine .read (sortByDocument_mirrors e hs) fun sorted => ?_
  rw [dropRepeated_map e.injective]
  refine .read (outermost_mirrors e _) fun outer => ?_
  rcases outer with _ | ⟨first, _ | ⟨second, rest⟩⟩
  · exact .fault
  · exact .pure rfl
  · exact ofSiblings_follows e first (second :: rest)

/-! ### Moves -/

theorem sibling?_mirrors (h : Handle) (d : Direction) :
    Mirrors (Option.map f) (sibling? a h d) (sibling? b (f h) d) := by
  refine (e.parent h).bind fun parent => ?_
  cases parent with
  | none => exact .pure rfl
  | some p =>
    refine (e.children p).bind fun siblings => ?_
    rw [idxOf?_map e.injective]
    cases siblings.idxOf? h with
    | none => exact .pure rfl
    | some i =>
      refine .pure ?_
      simp only [List.length_map, List.getElem?_map, Option.map_bind]
      rfl

theorem toChild_follows (s : Selection) :
    Follows (rename f) (s.toChild a) ((s.rename f).toChild b) := by
  refine .read (e.children s.first) fun hs => ?_
  cases hs with
  | nil => exact .pure rfl
  | cons child rest => exact resolve_follows e [child]

theorem toParent_follows (s : Selection) :
    Follows (rename f) (s.toParent a) ((s.rename f).toParent b) := by
  refine .read (e.parent s.first) fun parent => ?_
  cases parent with
  | none => exact .pure rfl
  | some p => exact resolve_follows e [p]

theorem toSibling_follows (s : Selection) (d : Direction) :
    Follows (rename f) (s.toSibling a d) ((s.rename f).toSibling b d) := by
  unfold toSibling
  cases d with
  | previous =>
    refine .read (sibling?_mirrors e s.first .previous) fun sibling => ?_
    cases sibling with
    | none => exact .pure rfl
    | some h => exact resolve_follows e [h]
  | next =>
    dsimp only
    rw [last_rename]
    refine .read (sibling?_mirrors e s.last .next) fun sibling => ?_
    cases sibling with
    | none => exact .pure rfl
    | some h => exact resolve_follows e [h]

theorem toOutermostSibling_follows (s : Selection) (d : Direction) :
    Follows (rename f) (s.toOutermostSibling a d) ((s.rename f).toOutermostSibling b d) := by
  refine .read (e.parent s.first) fun parent => ?_
  cases parent with
  | none => exact .pure rfl
  | some p =>
    refine .read (e.children p) fun hs => ?_
    cases d with
    | previous =>
      dsimp only
      rw [List.head?_map]
      cases hs.head? with
      | none => exact .pure rfl
      | some h => exact resolve_follows e [h]
    | next =>
      dsimp only
      rw [List.getLast?_map]
      cases hs.getLast? with
      | none => exact .pure rfl
      | some h => exact resolve_follows e [h]

end

end Selection

/-! ### Growing -/

/-- The run with its elements under other names. -/
def GrownRun.rename (f : Handle → Handle) (r : GrownRun) : GrownRun :=
  ⟨f r.anchor, f r.moving, r.selected.map f⟩

namespace Grow

/-- The same growing under other names. -/
def rename (f : Handle → Handle) (g : Grow) : Grow := ⟨g.active, g.run.map (GrownRun.rename f)⟩

theorem ends_rename (inj : Injective f) (g : Grow) (s : Selection) (d : Direction) :
    (g.rename f).ends (s.rename f) d = (g.ends s d).map f f := by
  obtain ⟨active, run⟩ := g
  cases run with
  | none => cases d <;> simp only [ends, rename, Selection.last_rename] <;> rfl
  | some r =>
    have kept : r.selected.map f = s.toList.map f ∧ f r.anchor ∈ r.selected.map f ↔
        r.selected = s.toList ∧ r.anchor ∈ r.selected := by
      rw [(List.map_injective_iff.mpr inj).eq_iff, mem_map_iff inj]
    cases d <;> simp only [ends, rename, Option.map_some, GrownRun.rename, Selection.toList_rename,
      Selection.last_rename, kept] <;> split <;> rfl

theorem between_map (hs : List Handle) (i j : Nat) :
    between (hs.map f) i j = (between hs i j).map f := by
  rw [between, between, List.map_take, List.map_drop]

theorem step_follows (e : a.Embeds f b) (g : Grow) (s : Selection) (d : Direction) :
    Select.Follows (Prod.map (rename f) (Selection.rename f)) (g.step s a d)
      ((g.rename f).step (s.rename f) b d) := by
  unfold step
  refine .guard Iff.rfl (fun _ => (Selection.toSibling_follows e s d).bind fun _ => .pure rfl)
    fun _ => ?_
  rw [ends_rename e.injective]
  obtain ⟨anchor, moving⟩ := g.ends s d
  refine .read (Selection.sibling?_mirrors e moving d) fun found => ?_
  cases found with
  | none => exact .pure rfl
  | some moved =>
    refine .read (e.parent moved) fun parent => ?_
    cases parent with
    | none => exact .fault
    | some p =>
      refine .read (e.children p) fun siblings => ?_
      beta_reduce
      rw [idxOf?_map e.injective, idxOf?_map e.injective]
      cases siblings.idxOf? anchor with
      | none => exact .fault
      | some i =>
        cases siblings.idxOf? moved with
        | none => exact .fault
        | some j =>
          dsimp only
          rw [between_map]
          exact (Selection.resolve_follows e _).bind fun _ => .pure rfl

end Grow

end AlgebraEditor
