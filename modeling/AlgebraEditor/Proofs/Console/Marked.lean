import AlgebraEditor.Console.Marked
import AlgebraEditor.Proofs.Arena.Grouping
import AlgebraEditor.Proofs.Formula.Spelling
import AlgebraEditor.Proofs.Selection.Moving

/-!
# Marked text reads back

The marks around a single element only add brackets to it. The marks around a run are brackets
around a part of a list, so the text of the list is that of a list in which the run is grouped.
-/

namespace AlgebraEditor

open Arena Formula Grammar

namespace Arena

/-- `b` has the same elements as `a`, except that lists may hold something else. -/
structure Resembles (a b : Arena) : Prop where
  kind : ∀ {h n}, a.get? h = some n → (b.denote h).kind = n.element.kind
  fixed : ∀ {h n}, a.get? h = some n → n.element.kind.isList = false →
    b.denote h = n.element.toTerm b.denote

variable {a b : Arena} {c h p g : Handle} {hs before after : List Handle} {n k : Node} {m : Marks}
  {write : Handle → Except Fault (List Char)} {t : Term} {q : Precedence} {cs : List Char}

theorem WellFormed.resembles (wf : a.WellFormed) : a.Resembles a where
  kind := kind_denote wf
  fixed stored _ := wf.denote_eq stored

theorem Groups.denote_of_ne (groups : a.Groups b p g before hs after) (stored : a.get? h = some n)
    (other : h ≠ p) : b.denote h = n.element.toTerm b.denote := by
  obtain ⟨m, held, same⟩ := groups.others stored other
  rw [groups.wf.denote_eq held, same]

theorem Groups.resembles (groups : a.Groups b p g before hs after) : a.Resembles b := by
  obtain ⟨n, stored, isList, _, ⟨m, held, outer⟩, _⟩ := groups.lists
  constructor
  · intro h k found
    by_cases same : h = p
    · subst same
      cases stored.symm.trans found
      rw [kind_denote groups.wf held, outer, Element.kind_modifyList]
    · rw [groups.denote_of_ne found same, Element.kind_toTerm]
  · intro h k found notList
    refine groups.denote_of_ne found ?_
    rintro rfl
    cases stored.symm.trans found
    rw [isList] at notList
    cases notList

namespace Marks

/-! ### One element -/

/-- What is written for an element is spelled in the stratum of what `b` shows there. -/
def Reads (write : Handle → Except Fault (List Char)) (b : Arena) (h : Handle) : Prop :=
  ∃ cs, write h = .ok cs ∧ Legible (b.denote h) (b.denote h).kind.precedence cs

theorem legible_enclosed (asked : Bool) {o d : Char} (legible : Legible t q cs)
    (opens : TokenKind.ofChar? o = some .opening) (closes : TokenKind.ofChar? d = some .closing) :
    Legible t q (enclosed asked o d cs) := by
  cases asked with
  | false => exact legible
  | true => exact (legible.group opens closes).looser (by cases q <;> decide)

theorem slot_legible (m : Marks) (wf : a.WellFormed) (like : a.Resembles b)
    (stored : a.get? h = some n) (member : c ∈ n.element.children) (reads : Reads write b c)
    (inside : standsApart .display n.element c (b.denote c).kind = false) (container : Kind)
    (same : n.element.kind = container) (q : Precedence)
    (tighter : ∀ kind : Kind, ¬ kind.precedence ≤ container.precedence → q ≤ kind.precedence) :
    ∃ cs, m.slot a write h c = .ok cs ∧ Legible (b.denote c) q cs := by
  obtain ⟨cs, written, legible⟩ := reads
  obtain ⟨k, held⟩ := wf.stored_of_mem_children stored member
  have enclosed := legible.enclosed container q tighter
  rw [like.kind held, ← same] at enclosed
  rw [like.kind held] at inside
  refine ⟨_, ?_, legible_enclosed (m.isSingle c) (o := '[') (d := ']') enclosed (by rfl) (by rfl)⟩
  rw [slot, bracketed_eq_ok wf stored held member written inside]
  rfl

/-- What stands apart is written without parentheses. -/
theorem slot_of_standsApart (m : Marks) (wf : a.WellFormed) (stored : a.get? h = some n)
    (held : a.get? c = some k) (member : c ∈ n.element.children) (written : write c = .ok cs)
    (apart : standsApart .display n.element c k.element.kind = true) :
    m.slot a write h c = .ok (enclosed (m.isSingle c) '[' ']' cs) := by
  rw [slot, bracketed_of_standsApart wf stored held member written apart]
  rfl

theorem exponent_legible (m : Marks) (wf : a.WellFormed) (like : a.Resembles b) {base : Handle}
    (stored : a.get? h = some n) (shape : n.element = .power base c) (reads : Reads write b c) :
    ∃ cs, m.exponent a write h c = .ok cs ∧ Legible (b.denote c) .atom cs := by
  obtain ⟨cs, written, legible⟩ := reads
  have member : c ∈ n.element.children := by rw [shape]; simp [Element.children]
  obtain ⟨k, held⟩ := wf.stored_of_mem_children stored member
  have marked := legible_enclosed (m.isSingle c) (o := '[') (d := ']') legible (by rfl) (by rfl)
  rw [exponent, kind_of_get? held, ok_bind,
    m.slot_of_standsApart wf stored held member written (by simp [shape, standsApart]), ok_bind]
  refine ⟨_, rfl, ?_⟩
  rw [like.kind held] at marked
  cases leaf : k.element.kind.isLeaf with
  | true =>
    have tight : k.element.kind.precedence = .atom := by
      cases kind : k.element.kind <;> simp_all [Kind.isLeaf, Kind.precedence]
    rw [tight] at marked
    exact marked
  | false => exact marked.group (by rfl) (by rfl)

theorem factor_legible (m : Marks) (wf : a.WellFormed) (like : a.Resembles b)
    (stored : a.get? h = some n) (product : n.element.kind = .product)
    (member : c ∈ n.element.children) (reads : Reads write b c) :
    ∃ cs, m.slot a write h c = .ok cs ∧ Legible (b.denote c) .fraction cs := by
  exact m.slot_legible wf like stored member reads (standsApart_of_product product _ c _) .product
    product .fraction (by intro kind; cases kind <;> decide)

theorem inRun_of_not_opensRun (opens : m.opensRun c = false) (cs : List Char) :
    m.inRun c cs = cs ++ if m.closesRun c then [']'] else [] := by
  rw [inRun, opens]
  rfl

/-- A term of a sum that starts no run is written with its sign apart, unless it is selected. -/
theorem term_legible (m : Marks) (wf : a.WellFormed) (like : a.Resembles b)
    (stored : a.get? h = some n) (sum : n.element.kind = .sum) (member : c ∈ n.element.children)
    (reads : ∀ x, a.IsAbove h x → Reads write b x) (opens : m.opensRun c = false) :
    ∃ part, m.term a write h c = .ok (part.1, part.2 ++ if m.closesRun c then [']'] else []) ∧
      LegibleSigned (b.denote c) part := by
  obtain ⟨k, held⟩ := wf.stored_of_mem_children stored member
  have above := wf.isAbove_child stored member
  rw [term, negated?_of_get? held, ok_bind]
  cases inner : k.element.negated? with
  | none =>
    have inside : standsApart .display n.element c (b.denote c).kind = false := by
      rw [like.kind held, standsApart_of_sum sum, decide_eq_false (Element.negated?_eq_none.mp inner)]
    obtain ⟨cs, written, legible⟩ := m.slot_legible wf like stored member (reads c above) inside .sum sum .factor
      (by intro kind; cases kind <;> decide)
    refine ⟨(false, cs), ?_, .of_factor legible⟩
    dsimp only
    rw [written, ok_bind, inRun_of_not_opensRun opens]
    rfl
  | some x =>
    -- the sign stands inside the brackets if the term alone is selected, and else before the text
    have shape := Element.negated?_eq_some.mp inner
    have member' : x ∈ k.element.children := by rw [shape]; exact List.mem_singleton_self x
    have shown := like.fixed held (by rw [shape]; rfl)
    rw [shape] at shown
    dsimp only
    rw [opens, Bool.false_or]
    cases single : m.isSingle c with
    | true =>
      obtain ⟨cs, written, legible⟩ := reads c above
      have apart : standsApart .display n.element c k.element.kind = true := by
        rw [standsApart_of_sum sum, shape]
        rfl
      have group := legible.group (o := '[') (c := ']') (by rfl) (by rfl)
      refine ⟨(false, '[' :: (cs ++ [']'])), ?_, .of_factor (group.looser (by decide))⟩
      rw [if_pos rfl, m.slot_of_standsApart wf stored held member written apart, ok_bind,
        inRun_of_not_opensRun opens, single]
      rfl
    | false =>
      have below := above.trans (wf.isAbove_child held member')
      obtain ⟨cs, written, legible⟩ := m.slot_legible wf like held member' (reads x below)
        (by rw [shape]; rfl) .negation (by rw [shape]; rfl) .factor
        (by intro kind; cases kind <;> decide)
      refine ⟨(true, cs), ?_, ?_⟩
      · rw [if_neg (by simp), written, ok_bind, inRun_of_not_opensRun opens]
        rfl
      · rw [shown]
        exact .negation legible

theorem factors_legible (m : Marks) (wf : a.WellFormed) (like : a.Resembles b)
    (stored : a.get? h = some n) (product : n.element.kind = .product) (hs : List Handle)
    (inside : ∀ c ∈ hs, c ∈ n.element.children)
    (plain : ∀ c ∈ hs, m.opensRun c = false ∧ m.closesRun c = false)
    (reads : ∀ x, a.IsAbove h x → Reads write b x) :
    ∃ css, hs.mapM (fun c => do return m.inRun c (← m.slot a write h c) :
        Handle → Except Fault (List Char)) = .ok css ∧
      List.Forall₂ (Legible · .fraction) (hs.map b.denote) css := by
  have each : ∀ c ∈ hs, ∃ cs, (do return m.inRun c (← m.slot a write h c) :
      Except Fault (List Char)) = .ok cs ∧ Legible (b.denote c) .fraction cs := by
    intro c member
    obtain ⟨cs, written, legible⟩ := m.factor_legible wf like stored product (inside c member)
      (reads c (wf.isAbove_child stored (inside c member)))
    refine ⟨cs, ?_, legible⟩
    rw [written, ok_bind, inRun_of_not_opensRun (plain c member).1, (plain c member).2]
    exact congrArg Except.ok (List.append_nil cs)
  obtain ⟨css, written, legible⟩ := mapM_outcome each
  exact ⟨css, written, List.forall₂_map_left_iff.mpr legible⟩

theorem terms_legible (m : Marks) (wf : a.WellFormed) (like : a.Resembles b)
    (stored : a.get? h = some n) (sum : n.element.kind = .sum) (hs : List Handle)
    (inside : ∀ c ∈ hs, c ∈ n.element.children)
    (plain : ∀ c ∈ hs, m.opensRun c = false ∧ m.closesRun c = false)
    (reads : ∀ x, a.IsAbove h x → Reads write b x) :
    ∃ parts, hs.mapM (m.term a write h) = .ok parts ∧
      List.Forall₂ LegibleSigned (hs.map b.denote) parts := by
  have each : ∀ c ∈ hs, ∃ part, m.term a write h c = .ok part ∧ LegibleSigned (b.denote c) part := by
    intro c member
    obtain ⟨part, written, legible⟩ := m.term_legible wf like stored sum (inside c member) reads
      (plain c member).1
    refine ⟨part, ?_, legible⟩
    rw [written, (plain c member).2]
    exact congrArg (fun cs => Except.ok (part.1, cs)) (List.append_nil part.2)
  obtain ⟨parts, written, legible⟩ := mapM_outcome each
  exact ⟨parts, written, List.forall₂_map_left_iff.mpr legible⟩

/-- Where no run starts or ends, an element is written in its stratum if its parts are. -/
theorem reads_of_parts (m : Marks) (wf : a.WellFormed) (like : a.Resembles b)
    (stored : a.get? h = some n) (normal : (a.denote h).IsNormal)
    (same : b.denote h = n.element.toTerm b.denote)
    (plain : ∀ c ∈ n.element.children, m.opensRun c = false ∧ m.closesRun c = false) {d : Nat}
    (reads : ∀ x, a.IsAbove h x → Reads (m.writeWithin a d) b x) :
    Reads (m.writeWithin a (d + 1)) b h := by
  have part : ∀ c ∈ n.element.children, Reads (m.writeWithin a d) b c := fun c member =>
    reads c (wf.isAbove_child stored member)
  have top := normal.self
  rw [wf.denote_eq stored] at top
  have several := top.filled
  rw [Element.kind_toTerm, Element.children_toTerm, List.length_map] at several
  rw [Reads, writeWithin, element_of_get? stored, ok_bind, same]
  cases shape : n.element with
  | symbol name =>
    rw [shape] at top
    obtain ⟨l, rfl, letter⟩ := top.letter name rfl
    refine ⟨_, rfl, ?_⟩
    rw [String.toList_ofList]
    exact Legible.symbol letter
  | integer value => exact ⟨_, rfl, Legible.integer value⟩
  | negation inner =>
    have member : inner ∈ n.element.children := by rw [shape]; exact List.mem_singleton_self inner
    obtain ⟨cs, written, legible⟩ := m.slot_legible wf like stored member (part inner member)
      (by rw [shape]; rfl) .negation (by rw [shape]; rfl) .factor
      (by intro kind; cases kind <;> decide)
    dsimp only
    rw [written, ok_bind]
    exact ⟨_, rfl, legible.negation⟩
  | fraction numerator denominator =>
    have slot := fun c member => m.slot_legible wf like stored member (part c member)
      (by rw [shape]; rfl) .fraction (by rw [shape]; rfl) .exponent
      (by intro kind; cases kind <;> decide)
    rw [shape] at slot
    obtain ⟨above, written, legible⟩ := slot numerator (by simp [Element.children])
    obtain ⟨below, written', legible'⟩ := slot denominator (by simp [Element.children])
    dsimp only
    rw [written, ok_bind, written', ok_bind]
    exact ⟨_, rfl, legible.fraction legible'⟩
  | power base exponent =>
    have member : base ∈ n.element.children := by rw [shape]; simp [Element.children]
    have different := wf.exponent_ne_base stored shape
    obtain ⟨below, written, legible⟩ := m.slot_legible wf like stored member (part base member)
      (by simp [shape, standsApart, different]) .power (by rw [shape]; rfl) .atom
      (by intro kind; cases kind <;> decide)
    obtain ⟨raised, written', legible'⟩ := m.exponent_legible wf like stored shape
      (part exponent (by rw [shape]; simp [Element.children]))
    dsimp only
    rw [written, ok_bind, written', ok_bind]
    exact ⟨_, rfl, legible.power legible'⟩
  | product factors =>
    rw [shape] at several plain
    obtain ⟨css, written, legible⟩ := m.factors_legible wf like stored (by rw [shape]; rfl)
      factors (by rw [shape]; exact fun _ => id) plain reads
    dsimp only
    rw [written, ok_bind]
    exact ⟨_, rfl, Legible.product (by rw [List.length_map]; exact several rfl) legible⟩
  | sum terms =>
    rw [shape] at several plain
    obtain ⟨parts, written, legible⟩ := m.terms_legible wf like stored (by rw [shape]; rfl)
      terms (by rw [shape]; exact fun _ => id) plain reads
    dsimp only
    rw [written, ok_bind]
    exact ⟨_, rfl, Legible.sum (by rw [List.length_map]; exact several rfl) legible⟩
  | root inner => exact absurd (by rw [shape]; rfl) top.unwrapped

/-! ### Runs -/

section Runs

variable {first last : Handle} {mid : List Handle}

theorem opensRun_run (selected : m.selected = first :: (mid ++ [last])) :
    m.opensRun c = decide (first = c) := by
  simp [opensRun, selected]

theorem closesRun_run (selected : m.selected = first :: (mid ++ [last])) :
    m.closesRun c = decide (last = c) := by
  simp [closesRun, selected, List.getLast?_cons]

theorem isSingle_run (selected : m.selected = first :: (mid ++ [last])) : m.isSingle c = false := by
  simp [isSingle, selected]

/-- The first term of a run keeps its sign, and can be the first term of a sum. -/
theorem term_of_opensRun (m : Marks) (wf : a.WellFormed) (like : a.Resembles b)
    (stored : a.get? h = some n) (sum : n.element.kind = .sum) (member : c ∈ n.element.children)
    (reads : ∀ x, a.IsAbove h x → Reads write b x) (opens : m.opensRun c = true)
    (closes : m.closesRun c = false) (several : m.isSingle c = false) :
    ∃ cs, m.term a write h c = .ok (false, '[' :: cs) ∧ Begins (b.denote c) cs := by
  obtain ⟨k, held⟩ := wf.stored_of_mem_children stored member
  have above := wf.isAbove_child stored member
  have bracket : ∀ cs, m.inRun c cs = '[' :: cs := by
    intro cs
    rw [inRun, opens, closes]
    exact List.append_nil _
  rw [term, negated?_of_get? held, ok_bind]
  cases inner : k.element.negated? with
  | none =>
    have inside : standsApart .display n.element c (b.denote c).kind = false := by
      rw [like.kind held, standsApart_of_sum sum, decide_eq_false (Element.negated?_eq_none.mp inner)]
    obtain ⟨cs, written, legible⟩ := m.slot_legible wf like stored member (reads c above) inside
      .sum sum .factor (by intro kind; cases kind <;> decide)
    refine ⟨cs, ?_, Begins.of_signed (.of_factor legible)⟩
    dsimp only
    rw [written, ok_bind, bracket]
    rfl
  | some x =>
    have negation : k.element.kind = .negation := by rw [Element.negated?_eq_some.mp inner]; rfl
    obtain ⟨cs, written, legible⟩ := reads c above
    rw [like.kind held, negation] at legible
    have apart : standsApart .display n.element c k.element.kind = true := by
      rw [standsApart_of_sum sum, negation]
      rfl
    refine ⟨cs, ?_, Begins.of_expression legible (by rw [like.kind held, negation]; nofun)⟩
    dsimp only
    rw [opens, Bool.true_or, if_pos rfl, m.slot_of_standsApart wf stored held member written apart,
      several, ok_bind, enclosed, if_neg nofun, bracket]
    rfl

theorem joinSigned_group (parts later : List (Bool × List Char)) (cs : List Char)
    (rest : List (Bool × List Char)) (negated : Bool) (ds : List Char) :
    joinSigned (parts ++ (false, '[' :: cs) :: (rest ++ (negated, ds ++ [']']) :: later)) =
      joinSigned (parts ++ (false, '[' :: (cs ++ ((rest ++ [(negated, ds)]).flatMap
        fun (negated, text) => [' ', if negated then '-' else '+', ' '] ++ text) ++ [']'])) :: later) := by
  cases parts <;> simp [joinSigned]

theorem intercalate_cons (sep cs : List Char) (css : List (List Char)) :
    List.intercalate sep (cs :: css) = cs ++ css.flatMap (sep ++ ·) := by
  induction css generalizing cs with
  | nil => simp
  | cons ds css ih => rw [List.intercalate_cons_cons, ih]; simp

theorem intercalate_group (css later : List (List Char)) (cs : List Char) (rest : List (List Char))
    (ds : List Char) :
    List.intercalate ['*'] (css ++ ('[' :: cs) :: (rest ++ (ds ++ [']']) :: later)) =
      List.intercalate ['*'] (css ++
        ('[' :: (List.intercalate ['*'] (cs :: (rest ++ [ds])) ++ [']'])) :: later) := by
  cases css <;> simp [intercalate_cons]

/-- Only the ends of a run have brackets. -/
theorem plain_of_run (selected : m.selected = first :: (mid ++ [last]))
    (nodup : (before ++ first :: (mid ++ last :: after)).Nodup) :
    first ≠ last ∧ ∀ c, c ∈ before ∨ c ∈ mid ∨ c ∈ after →
      m.opensRun c = false ∧ m.closesRun c = false := by
  have apart : first ≠ last ∧ ∀ c, c ∈ before ∨ c ∈ mid ∨ c ∈ after → first ≠ c ∧ last ≠ c := by
    grind
  simpa [opensRun_run selected, closesRun_run selected] using apart

theorem mapM_run {α : Type} {f : Handle → Except Fault α} {x z : α} {xs ys zs : List α}
    (left : before.mapM f = .ok xs) (opening : f first = .ok x) (inner : mid.mapM f = .ok ys)
    (closing : f last = .ok z) (right : after.mapM f = .ok zs) :
    (before ++ first :: (mid ++ last :: after)).mapM f = .ok (xs ++ x :: (ys ++ z :: zs)) := by
  rw [List.mapM_append, List.mapM_cons, List.mapM_append, List.mapM_cons, left, opening, inner,
    closing, right]
  rfl

/-- A list has two parts or more if it has any besides the one that a run has become. -/
theorem several_of_other (other : before ++ after ≠ []) (u : Term) :
    2 ≤ (before.map b.denote ++ u :: after.map b.denote).length := by
  have more := List.length_pos_of_ne_nil other
  rw [List.length_append] at more
  rw [List.length_append, List.length_map, List.length_cons, List.length_map]
  omega

/-- The terms of a sum with a run are written as if the run were a sum in their place. -/
theorem sum_of_run (wf : a.WellFormed) (like : a.Resembles b) (stored : a.get? h = some n)
    (sum : n.element.kind = .sum) (selected : m.selected = first :: (mid ++ [last]))
    (children : n.element.children = before ++ first :: (mid ++ last :: after))
    (other : before ++ after ≠ []) (reads : ∀ x, a.IsAbove h x → Reads write b x) :
    ∃ parts, n.element.children.mapM (m.term a write h) = .ok parts ∧
      Legible (.sum (before.map b.denote ++
        .sum ((first :: (mid ++ [last])).map b.denote) :: after.map b.denote)) .term
        (joinSigned parts) := by
  have distinct := wf.distinct stored
  rw [children] at distinct
  obtain ⟨apart, plain⟩ := plain_of_run selected distinct
  have inside : ∀ c, c ∈ before ∨ c = first ∨ c ∈ mid ∨ c = last ∨ c ∈ after →
      c ∈ n.element.children := by
    rw [children]
    simp
  obtain ⟨parts, written₁, legible₁⟩ := m.terms_legible wf like stored sum before
    (fun c member => inside c (.inl member)) (fun c member => plain c (.inl member)) reads
  obtain ⟨cs, written₂, begins⟩ := m.term_of_opensRun wf like stored sum
    (inside first (.inr (.inl rfl))) reads (by simp [opensRun_run selected])
    (by simpa [closesRun_run selected] using Ne.symm apart) (isSingle_run selected)
  obtain ⟨rest, written₃, legible₃⟩ := m.terms_legible wf like stored sum mid
    (fun c member => inside c (.inr (.inr (.inl member))))
    (fun c member => plain c (.inr (.inl member))) reads
  obtain ⟨⟨negated, ds⟩, written₄, legible₄⟩ := m.term_legible wf like stored sum
    (inside last (.inr (.inr (.inr (.inl rfl))))) reads (by simpa [opensRun_run selected] using apart)
  obtain ⟨later, written₅, legible₅⟩ := m.terms_legible wf like stored sum after
    (fun c member => inside c (.inr (.inr (.inr (.inr member)))))
    (fun c member => plain c (.inr (.inr member))) reads
  rw [closesRun_run selected, decide_eq_true rfl, if_pos rfl] at written₄
  -- the run is read as a sum between brackets, which is a factor for the terms around it
  have more : (mid ++ [last]).map b.denote ≠ [] := by simp
  have run := begins.sum more (by
    rw [List.map_append]
    exact List.rel_append legible₃ (.cons legible₄ .nil))
  have group := run.group (o := '[') (c := ']') (by rfl) (by rfl)
  refine ⟨parts ++ (false, '[' :: cs) :: (rest ++ (negated, ds ++ [']']) :: later), ?_, ?_⟩
  · rw [children, mapM_run written₁ written₂ written₃ written₄ written₅]
  · rw [joinSigned_group]
    exact Legible.sum (several_of_other other _) (List.rel_append legible₁
      (.cons (.of_factor (group.looser (by decide))) legible₅))

/-- The factors of a product with a run are written as if the run were a product in their place. -/
theorem product_of_run (wf : a.WellFormed) (like : a.Resembles b) (stored : a.get? h = some n)
    (product : n.element.kind = .product) (selected : m.selected = first :: (mid ++ [last]))
    (children : n.element.children = before ++ first :: (mid ++ last :: after))
    (other : before ++ after ≠ []) (reads : ∀ x, a.IsAbove h x → Reads write b x) :
    ∃ css, n.element.children.mapM (fun c => do return m.inRun c (← m.slot a write h c) :
        Handle → Except Fault (List Char)) = .ok css ∧
      Legible (.product (before.map b.denote ++
        .product ((first :: (mid ++ [last])).map b.denote) :: after.map b.denote)) .factor
        (List.intercalate ['*'] css) := by
  have distinct := wf.distinct stored
  rw [children] at distinct
  obtain ⟨apart, plain⟩ := plain_of_run selected distinct
  have inside : ∀ c, c ∈ before ∨ c = first ∨ c ∈ mid ∨ c = last ∨ c ∈ after →
      c ∈ n.element.children := by
    rw [children]
    simp
  have reads' := fun c place => reads c (wf.isAbove_child stored (inside c place))
  obtain ⟨css, written₁, legible₁⟩ := m.factors_legible wf like stored product before
    (fun c member => inside c (.inl member)) (fun c member => plain c (.inl member)) reads
  obtain ⟨cs, written₂, legible₂⟩ := m.factor_legible wf like stored product
    (inside first (.inr (.inl rfl))) (reads' first (.inr (.inl rfl)))
  obtain ⟨rest, written₃, legible₃⟩ := m.factors_legible wf like stored product mid
    (fun c member => inside c (.inr (.inr (.inl member))))
    (fun c member => plain c (.inr (.inl member))) reads
  obtain ⟨ds, written₄, legible₄⟩ := m.factor_legible wf like stored product
    (inside last (.inr (.inr (.inr (.inl rfl))))) (reads' last (.inr (.inr (.inr (.inl rfl)))))
  obtain ⟨later, written₅, legible₅⟩ := m.factors_legible wf like stored product after
    (fun c member => inside c (.inr (.inr (.inr (.inr member)))))
    (fun c member => plain c (.inr (.inr member))) reads
  have opening : m.inRun first cs = '[' :: cs := by
    simp [inRun, opensRun_run selected, closesRun_run selected, Ne.symm apart]
  have closing : m.inRun last ds = ds ++ [']'] := by
    simp [inRun, opensRun_run selected, closesRun_run selected, apart]
  have several : 2 ≤ ((first :: (mid ++ [last])).map b.denote).length := by simp
  have run := Legible.product several (by
    rw [List.map_cons, List.map_append]
    exact .cons legible₂ (List.rel_append legible₃ (.cons legible₄ .nil)))
  have group := run.group (o := '[') (c := ']') (by rfl) (by rfl)
  refine ⟨css ++ ('[' :: cs) :: (rest ++ (ds ++ [']']) :: later), ?_, ?_⟩
  · rw [children]
    refine mapM_run written₁ ?_ written₃ ?_ written₅
    · rw [written₂, ok_bind, opening]
      rfl
    · rw [written₄, ok_bind, closing]
      rfl
  · rw [intercalate_group]
    exact Legible.product (several_of_other other _)
      (List.rel_append legible₁ (.cons (group.looser (by decide)) legible₅))

end Runs

end Marks

end Arena

end AlgebraEditor
