import AlgebraEditor.Proofs.Arena.Building

/-!
# What edits build

An edit that builds a term does so in every arena that retains what the term is read off. So edits
that build parts can follow each other, whatever the others have added by then, and what joins the
parts builds the whole. A copy builds the term that its original denotes.
-/

namespace AlgebraEditor

open Term

namespace Arena

variable {a b : Arena} {e : Element} {t u : Term} {ts us : List Term} {x : Handle}
  {xs rs : List Handle}

/-- A new container takes all of the tops. -/
theorem Adds.join (adds : a.Adds ts xs b) (wf : a.WellFormed) (kind : e.kind ≠ .root)
    (parts : e.children = xs) : ∃ r d, (Edit.create e).run b = .ok r d ∧
      a.Adds [e.toTerm b.denote] [r] d := by
  have all : xs.Perm (e.children ++ []) := by rw [parts, List.append_nil]
  exact adds.create wf all kind

/-- A new container takes tops that stand next to each other, and stands where they stood. -/
theorem Adds.join_between {vs : List Term} {ys : List Handle}
    (adds : a.Adds (us ++ (ts ++ vs)) (rs ++ (xs ++ ys)) b) (before : rs.length = us.length)
    (held : xs.length = ts.length) (wf : a.WellFormed) (kind : e.kind ≠ .root)
    (parts : e.children = xs) (term : xs.map b.denote = ts → e.toTerm b.denote = u) :
    ∃ r d, (Edit.create e).run b = .ok r d ∧ a.Adds (us ++ u :: vs) (rs ++ r :: ys) d := by
  have denotes := adds.denotes
  rw [List.map_append, List.map_append] at denotes
  obtain ⟨front, denotes⟩ := List.append_inj denotes (by rw [List.length_map, before])
  obtain ⟨middle, back⟩ := List.append_inj denotes (by rw [List.length_map, held])
  have apart : (rs ++ (xs ++ ys)).Perm (e.children ++ (rs ++ ys)) := by
    rw [parts]
    exact List.perm_append_comm_assoc rs xs ys
  obtain ⟨r, d, run, created⟩ := adds.create wf apart kind
  obtain ⟨top, others⟩ := List.cons.inj created.denotes
  rw [List.map_append, List.map_append] at others
  obtain ⟨front', back'⟩ := List.append_inj others (by simp)
  have moved := created.perm (List.perm_middle (a := r)).symm
  rw [List.map_append, List.map_cons, top, term middle, front', back', front, back] at moved
  exact ⟨r, d, run, moved⟩

/-- Tops go one after the other into containers of their own. -/
theorem Adds.wrap {k : Handle → Element} {whole : Term → Term} (adds : a.Adds (us ++ ts) (rs ++ xs) b)
    (before : rs.length = us.length) (wf : a.WellFormed) (kind : ∀ h, (k h).kind ≠ .root)
    (parts : ∀ h, (k h).children = [h]) (term : ∀ f h, (k h).toTerm f = whole (f h)) :
    ∃ ys d, (xs.mapM fun x => Edit.create (k x)).run b = .ok ys d ∧
      a.Adds (us ++ ts.map whole) (rs ++ ys) d := by
  have lengths : xs.length = ts.length := by
    have all := adds.length_eq
    rwa [List.length_append, List.length_append, before, Nat.add_left_cancel_iff] at all
  induction xs generalizing b us rs ts with
  | nil =>
    rw [List.eq_nil_of_length_eq_zero lengths.symm] at adds ⊢
    exact ⟨[], b, rfl, adds⟩
  | cons x xs ih =>
    obtain ⟨t, ts, rfl⟩ := List.exists_cons_of_length_eq_add_one lengths.symm
    have first : a.Adds (us ++ ([t] ++ ts)) (rs ++ ([x] ++ xs)) b := adds
    obtain ⟨r, d, run, joined⟩ := first.join_between (u := whole t) before rfl wf (kind x) (parts x)
      fun top => by rw [term, List.singleton_inj.mp top]
    rw [List.append_cons us, List.append_cons rs] at joined
    obtain ⟨ys, d', run', wrapped⟩ := ih joined (by simp [before]) (by simpa using lengths)
    refine ⟨r :: ys, d', ?_, by simpa using wrapped⟩
    rw [List.mapM_cons, Edit.run_bind_of_ok run, Edit.run_bind_of_ok run']
    rfl

theorem Adds.denote_top (adds : a.Adds [t] [x] b) : b.denote x = t :=
  List.singleton_inj.mp adds.denotes

theorem Adds.term_top (adds : a.Adds [t] [x] b) : b.term x = .ok t := by
  obtain ⟨n, found, -⟩ := adds.top_stored (List.mem_singleton_self x)
  rw [adds.wf.term_eq_ok found, adds.denote_top]

end Arena

namespace Edit

open Arena

variable {a b : Arena} {h : Handle} {hs : List Handle} {n : Node} {t u : Term} {ts : List Term}

/-- Wherever what is stored in the arena is retained, the edit goes through, adds the elements of
the term and answers with their top. -/
def Builds (a : Arena) (x : Edit Handle) (t : Term) : Prop :=
  ∀ b, a.Retains b → b.WellFormed → ∃ r d, x.run b = .ok r d ∧ b.Adds [t] [r] d

/-- The edit builds several terms, and answers with their tops in order. -/
def BuildsAll (a : Arena) (x : Edit (List Handle)) (ts : List Term) : Prop :=
  ∀ b, a.Retains b → b.WellFormed → ∃ rs d, x.run b = .ok rs d ∧ b.Adds ts rs d

theorem builds_symbol (a : Arena) (name : String) : Builds a (symbol name) (.symbol name) :=
  fun _ _ wf => (Adds.refl wf).join wf nofun rfl

theorem builds_integer (a : Arena) (value : UInt64) : Builds a (integer value) (.integer value) :=
  fun _ _ wf => (Adds.refl wf).join wf nofun rfl

/-- An integer is planted as it is. -/
theorem adds_integer (wf : a.WellFormed) (value : UInt64) :
    a.Adds [.integer value] [a.next] (a.plant (.integer value)) := by
  obtain ⟨r, d, run, adds⟩ := builds_integer a value a (.refl a) wf
  cases run.symm.trans (run_integer a value)
  exact adds

section Parts

variable {x y : Edit Handle}

theorem Builds.negation (first : Builds a x t) : Builds a (x >>= negation) (.negation t) := by
  intro b retains wf
  obtain ⟨r, d, run, adds⟩ := first b retains wf
  obtain ⟨s, d', joined, adds'⟩ := adds.join wf (e := .negation r) nofun rfl
  refine ⟨s, d', by rw [run_bind_of_ok run]; exact joined, ?_⟩
  rwa [Element.toTerm, adds.denote_top] at adds'

theorem Builds.signed (first : Builds a x t) (negated : Bool) :
    Builds a (do let r ← x; if negated then Edit.negation r else return r) (t.signed negated) := by
  cases negated with
  | true => exact first.negation
  | false =>
    intro b retains wf
    obtain ⟨r, d, run, adds⟩ := first b retains wf
    exact ⟨r, d, by rw [run_bind_of_ok run]; rfl, adds⟩

/-- Two parts are built one after the other, and then joined. -/
theorem Builds.pair {k : Handle → Handle → Element} {whole : Term → Term → Term}
    (first : Builds a x t) (second : Builds a y u) (kind : ∀ r s, (k r s).kind ≠ .root)
    (parts : ∀ r s, (k r s).children = [r, s])
    (term : ∀ f r s, (k r s).toTerm f = whole (f r) (f s)) :
    Builds a (do let r ← x; create (k r (← y))) (whole t u) := by
  intro b retains wf
  obtain ⟨r, d, run, adds⟩ := first b retains wf
  obtain ⟨s, d', run', adds'⟩ := second d (retains.trans adds.retains) adds.wf
  have both := adds.trans adds'
  obtain ⟨q, d'', joined, adds''⟩ := both.join wf (kind r s) (parts r s)
  obtain ⟨top, rest⟩ := List.cons.inj both.denotes
  rw [term, top, List.singleton_inj.mp rest] at adds''
  exact ⟨q, d'', by rw [run_bind_of_ok run, run_bind_of_ok run', joined], adds''⟩

end Parts

section Lists

variable {x : Edit (List Handle)}

theorem BuildsAll.mapM {α : Type} {f : α → Edit Handle} {g : α → Term} {xs : List α}
    (each : ∀ x ∈ xs, Builds a (f x) (g x)) : BuildsAll a (xs.mapM f) (xs.map g) := by
  intro b retains wf
  induction xs generalizing b with
  | nil => exact ⟨[], b, rfl, .refl wf⟩
  | cons x xs ih =>
    obtain ⟨head, tail⟩ := List.forall_mem_cons.mp each
    obtain ⟨r, d, run, adds⟩ := head b retains wf
    obtain ⟨rs, d', run', adds'⟩ := ih tail d (retains.trans adds.retains) adds.wf
    refine ⟨r :: rs, d', ?_, adds.trans adds'⟩
    rw [List.mapM_cons, run_bind_of_ok run, run_bind_of_ok run']
    rfl

/-- Parts are built one after the other, and then joined to a list. -/
theorem BuildsAll.list {k : List Handle → Element} {whole : List Term → Term}
    (parts : BuildsAll a x ts) (kind : ∀ hs, (k hs).kind ≠ .root)
    (children : ∀ hs, (k hs).children = hs)
    (term : ∀ f hs, (k hs).toTerm f = whole (hs.map f)) :
    Builds a (do create (k (← x))) (whole ts) := by
  intro b retains wf
  obtain ⟨rs, d, run, adds⟩ := parts b retains wf
  obtain ⟨s, d', joined, adds'⟩ := adds.join wf (kind rs) (children rs)
  rw [term, adds.denotes] at adds'
  exact ⟨s, d', by rw [run_bind_of_ok run, joined], adds'⟩

/-- Tops are gathered to a list, unless there are none or one. -/
theorem run_gather_adds {make : List Handle → Element} {identity : UInt64}
    {whole : List Term → Term} (adds : a.Adds ts hs b) (wf : a.WellFormed)
    (kind : ∀ hs, (make hs).kind ≠ .root) (children : ∀ hs, (make hs).children = hs)
    (none : whole [] = .integer identity) (one : ∀ t, whole [t] = t)
    (more : ∀ f x y hs, (make (x :: y :: hs)).toTerm f = whole (f x :: f y :: hs.map f)) :
    ∃ r d, (gather make identity hs).run b = .ok r d ∧ a.Adds [whole ts] [r] d := by
  match hs, ts, adds.denotes with
  | [], _, rfl =>
    obtain ⟨r, d, run, adds'⟩ := adds.join wf (e := .integer identity) nofun rfl
    exact ⟨r, d, run, by rwa [List.map_nil, none]⟩
  | [x], _, rfl =>
    obtain ⟨n, stored, free⟩ := adds.top_stored (List.mem_singleton_self x)
    have unowned : b.parent x = .ok Option.none := by
      rw [parent_of_get? stored, owner?_of_get? stored, free]
    refine ⟨x, b, ?_, by rwa [List.map_singleton, one]⟩
    rw [gather, parentOf, run_bind_of_ok (run_inspect_of_ok unowned)]
    rfl
  | x :: y :: hs, _, rfl =>
    obtain ⟨r, d, run, adds'⟩ := adds.join wf (kind (x :: y :: hs)) (children _)
    rw [more] at adds'
    exact ⟨r, d, run, adds'⟩

theorem run_product_adds (adds : a.Adds ts hs b) (wf : a.WellFormed) :
    ∃ r d, (product hs).run b = .ok r d ∧ a.Adds [productOf ts] [r] d :=
  run_gather_adds adds wf nofun (fun _ => rfl) rfl (fun _ => rfl) fun _ _ _ _ => rfl

theorem run_sum_adds (adds : a.Adds ts hs b) (wf : a.WellFormed) :
    ∃ r d, (sum hs).run b = .ok r d ∧ a.Adds [sumOf ts] [r] d :=
  run_gather_adds adds wf nofun (fun _ => rfl) rfl (fun _ => rfl) fun _ _ _ _ => rfl

/-- A sign in front of every top. -/
theorem run_negations_adds (adds : a.Adds ts hs b) (wf : a.WellFormed) :
    ∃ rs d, (hs.mapM negation).run b = .ok rs d ∧ a.Adds (ts.map .negation) rs d := by
  have all : a.Adds ([] ++ ts) ([] ++ hs) b := adds
  exact all.wrap (k := .negation) rfl wf nofun (fun _ => rfl) fun _ _ => rfl

theorem BuildsAll.product (parts : BuildsAll a x ts) : Builds a (x >>= product) (productOf ts) := by
  intro b retains wf
  obtain ⟨rs, d, run, adds⟩ := parts b retains wf
  obtain ⟨r, d', gathered, adds'⟩ := run_product_adds adds wf
  exact ⟨r, d', by rw [run_bind_of_ok run, gathered], adds'⟩

theorem BuildsAll.sum (parts : BuildsAll a x ts) : Builds a (x >>= sum) (sumOf ts) := by
  intro b retains wf
  obtain ⟨rs, d, run, adds⟩ := parts b retains wf
  obtain ⟨r, d', gathered, adds'⟩ := run_sum_adds adds wf
  exact ⟨r, d', by rw [run_bind_of_ok run, gathered], adds'⟩

end Lists

/-! ### Answers -/

/-- The edit adds the elements of some terms and answers with their tops, or it answers with nothing
and changes nothing. -/
def Offers (a : Arena) (x : Edit (Option (List Handle))) : Option (List Term) → Prop
  | some ts => ∃ rs d, x.run a = .ok (some rs) d ∧ a.Adds ts rs d
  | none => x.run a = .ok none a

/-- The edit adds the elements of a term and answers with its top, or it answers with nothing and
changes nothing. -/
def OffersOne (a : Arena) (x : Edit (Option Handle)) : Option Term → Prop
  | some t => ∃ r d, x.run a = .ok (some r) d ∧ a.Adds [t] [r] d
  | none => x.run a = .ok none a

/-! ### Copies -/

/-- A copy goes through if it may go deep enough, and builds what its original denotes. -/
theorem builds_copyWithin (wf : a.WellFormed) (stored : a.get? h = some n) (other : h ≠ a.root)
    {d : Nat} (enough : (a.below h).card < d) : Builds a (copyWithin d h) (a.denote h) := by
  refine wf.depth_induction (motive := fun d h => h ≠ a.root →
    Builds a (copyWithin d h) (a.denote h)) (fun d h n stored ih other => ?_) stored enough other
  have part : ∀ x ∈ n.element.children, Builds a (copyWithin d x) (a.denote x) := fun x member =>
    ih x (wf.isAbove_child stored member) (wf.ne_root_of_mem_children stored member)
  intro b retains wf'
  rw [copyWithin, run_bind_of_ok (run_inspect_of_ok (element_of_get? (retains.kept h n stored))),
    wf.denote_eq stored]
  cases shape : n.element with
  | symbol name => exact builds_symbol a name b retains wf'
  | integer value => exact builds_integer a value b retains wf'
  | negation inner =>
    exact (part inner (by simp [shape, Element.children])).negation b retains wf'
  | fraction x y =>
    have first := part x (by simp [shape, Element.children])
    have second := part y (by simp [shape, Element.children])
    exact first.pair second (k := .fraction) (by simp [Element.kind]) (fun _ _ => rfl)
      (fun _ _ _ => rfl) b retains wf'
  | power x y =>
    have first := part x (by simp [shape, Element.children])
    have second := part y (by simp [shape, Element.children])
    exact first.pair second (k := .power) (by simp [Element.kind]) (fun _ _ => rfl)
      (fun _ _ _ => rfl) b retains wf'
  | product hs =>
    exact (BuildsAll.mapM fun x member => part x (by rwa [shape])).list (k := .product)
      (by simp [Element.kind]) (fun _ => rfl) (fun _ _ => rfl) b retains wf'
  | sum hs =>
    exact (BuildsAll.mapM fun x member => part x (by rwa [shape])).list (k := .sum)
      (by simp [Element.kind]) (fun _ => rfl) (fun _ _ => rfl) b retains wf'
  | root inner => exact absurd (by rw [shape]; rfl) (wf.kind_ne_root stored other)

/-- A copy builds what its original denotes. -/
theorem builds_copy (wf : a.WellFormed) (stored : a.get? h = some n) (other : h ≠ a.root) :
    Builds a (copy h) (a.denote h) := by
  intro b retains wf'
  have held := retains.kept h n stored
  obtain ⟨r, d, run, adds⟩ := builds_copyWithin wf' held (by rwa [retains.root])
    (b.card_below_lt_reach h) b (.refl b) wf'
  rw [retains.denote_eq wf wf' stored] at adds
  exact ⟨r, d, run, adds⟩

end Edit

end AlgebraEditor
