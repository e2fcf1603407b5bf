import AlgebraEditor.Proofs.Console.Shown
import AlgebraEditor.Proofs.Formula.RoundTrip

/-!
# The printers agree

The console writes an expression by itself, with marks and with braces around exponents. Without the
marks it shows the same as the text and the display of the expression: a marked term keeps its sign
inside the brackets, which is the only other difference.
-/

namespace AlgebraEditor.Arena

open Term

namespace Marks

variable {a : Arena} {c h x : Handle} {n k : Node} {m : Marks} {cs ds es us vs : List Char}
  {write : Handle → Except Fault (List Char)}

/-! ### Without marks -/

/-- Whether the character is no square bracket. -/
def isNoMark (c : Char) : Bool := c ≠ '[' ∧ c ≠ ']'

/-- The text without the brackets of marks. -/
def unmarked (cs : List Char) : List Char := cs.filter isNoMark

/-- The text with every plus in front of a minus left out. -/
def subtractions : List Char → List Char
  | ' ' :: '+' :: ' ' :: '-' :: rest => ' ' :: '-' :: ' ' :: subtractions rest
  | c :: rest => c :: subtractions rest
  | [] => []

theorem subtractions_cons {c : Char} (solid : c ≠ ' ') (cs : List Char) :
    subtractions (c :: cs) = c :: subtractions cs := by
  rw [subtractions]
  exact fun _ blank => absurd blank solid

/-- A sign in front of a term that begins without one. -/
theorem subtractions_sign {sign c : Char} (solid : sign ≠ ' ') (plus : c ≠ '+') (minus : c ≠ '-')
    (cs : List Char) : subtractions (' ' :: sign :: ' ' :: c :: cs) =
      ' ' :: sign :: ' ' :: subtractions (c :: cs) := by
  rw [subtractions, subtractions_cons solid, subtractions]
  · rintro rest - same
    exact plus (List.cons.inj same).1
  · rintro rest - same
    simp only [List.cons.injEq] at same
    exact minus same.2.2.1

theorem map_rounded_subtractions (cs : List Char) :
    (subtractions cs).map rounded = subtractions (cs.map rounded) := by
  have same : ∀ {c d : Char}, d ≠ '(' → d ≠ ')' → rounded c = d → c = d := by
    intro c d opening closing
    unfold rounded
    split
    · rintro rfl
      exact absurd rfl opening
    · split
      · rintro rfl
        exact absurd rfl closing
      · exact id
  fun_induction subtractions cs with
  | case1 rest ih =>
    rw [List.map_cons, List.map_cons, List.map_cons, ih]
    rfl
  | case2 c rest other ih =>
    rw [List.map_cons, List.map_cons, ih, subtractions]
    -- nothing but the character itself becomes a blank or a sign
    intro later blank follows
    obtain ⟨d, rest, rfl, plus, follows⟩ := List.map_eq_cons_iff.mp follows
    obtain ⟨e, rest, rfl, blank', follows⟩ := List.map_eq_cons_iff.mp follows
    obtain ⟨f, rest, rfl, minus, -⟩ := List.map_eq_cons_iff.mp follows
    have first := same (by decide) (by decide) blank
    have second := same (by decide) (by decide) plus
    have third := same (by decide) (by decide) blank'
    have fourth := same (by decide) (by decide) minus
    exact other rest first (by rw [second, third, fourth])
  | case3 => rfl

/-! ### Texts that show the same -/

/-- Behind something that is shown, the first text shows as the second one; without marks they are
the same. -/
structure Trails (m : Marks) (cs ds : List Char) : Prop where
  turns : ∀ rest, subtractions (unmarked cs ++ rest) = ds ++ subtractions rest
  plain : m.selected = [] → cs = ds

/-- The first text shows as the second one, wherever it stands. -/
structure Displays (m : Marks) (cs ds : List Char) : Prop extends Trails m cs ds where
  solid : ∃ c es, unmarked cs = c :: es ∧ c ≠ ' '

theorem unmarked_append (cs ds : List Char) : unmarked (cs ++ ds) = unmarked cs ++ unmarked ds :=
  List.filter_append cs ds

theorem unmarked_cons {c : Char} (other : isNoMark c = true) (cs : List Char) :
    unmarked (c :: cs) = c :: unmarked cs := List.filter_cons_of_pos other

namespace Trails

theorem nil (m : Marks) : m.Trails [] [] := ⟨fun _ => rfl, fun _ => rfl⟩

theorem append (first : m.Trails cs ds) (second : m.Trails us vs) :
    m.Trails (cs ++ us) (ds ++ vs) where
  turns rest := by
    rw [unmarked_append, List.append_assoc, first.turns, second.turns, List.append_assoc]
  plain none := by rw [first.plain none, second.plain none]

theorem flatMap {α β : Type} {R : α → β → Prop} {f : α → List Char} {g : β → List Char}
    {xs : List α} {ys : List β} (each : ∀ x y, R x y → m.Trails (f x) (g y)) (all : List.Forall₂ R xs ys) :
    m.Trails (xs.flatMap f) (ys.flatMap g) := by
  induction all with
  | nil => exact nil m
  | cons first _ ih =>
    rw [List.flatMap_cons, List.flatMap_cons]
    exact (each _ _ first).append ih

end Trails

theorem isSingle_selects (single : m.isSingle h = true) : m.selected ≠ [] := by
  unfold isSingle at single
  rw [of_decide_eq_true single]
  exact List.cons_ne_nil h []

theorem opensRun_selects (opens : m.opensRun h = true) : m.selected ≠ [] := by
  rintro none
  simp [opensRun, none] at opens

namespace Displays

theorem append (first : m.Displays cs ds) (second : m.Trails us vs) :
    m.Displays (cs ++ us) (ds ++ vs) where
  toTrails := first.toTrails.append second
  solid := by
    obtain ⟨c, es, same, solid⟩ := first.solid
    exact ⟨c, es ++ unmarked us, by rw [unmarked_append, same]; rfl, solid⟩

theorem cons {c : Char} (solid : c ≠ ' ') (other : isNoMark c = true) (trails : m.Trails cs ds) :
    m.Displays (c :: cs) (c :: ds) where
  turns rest := by
    rw [unmarked_cons other, List.cons_append, subtractions_cons solid, trails.turns]
    rfl
  plain none := by rw [trails.plain none]
  solid := ⟨c, unmarked cs, unmarked_cons other cs, solid⟩

theorem infixed {c : Char} (first : m.Displays cs ds) (solid : c ≠ ' ') (other : isNoMark c = true)
    (second : m.Displays us vs) : m.Displays (cs ++ c :: us) (ds ++ c :: vs) :=
  first.append (cons solid other second.toTrails).toTrails

/-- What is shown begins with the first character of what it shows as. -/
theorem exists_tail {c : Char} (displays : m.Displays cs (c :: ds)) :
    ∃ es, unmarked cs = c :: es ∧ ∀ rest, subtractions (es ++ rest) = ds ++ subtractions rest := by
  obtain ⟨d, es, same, solid⟩ := displays.solid
  have turns : ∀ rest, d :: subtractions (es ++ rest) = c :: (ds ++ subtractions rest) := by
    intro rest
    have turned := displays.turns rest
    rwa [same, List.cons_append, subtractions_cons solid] at turned
  obtain rfl := (List.cons.inj (turns [])).1
  exact ⟨es, same, fun rest => (List.cons.inj (turns rest)).2⟩

/-- The brackets around a single element do not show. -/
theorem single (displays : m.Displays cs ds) (h : Handle) :
    m.Displays (Marks.enclosed (m.isSingle h) '[' ']' cs) ds := by
  cases single : m.isSingle h with
  | false => exact displays
  | true =>
    have same : unmarked (Marks.enclosed true '[' ']' cs) = unmarked cs := by
      simp [Marks.enclosed, unmarked, isNoMark]
    exact ⟨⟨by rw [same]; exact displays.turns, fun none => absurd none (isSingle_selects single)⟩,
      by rw [same]; exact displays.solid⟩

/-- The brackets of a run do not show. -/
theorem inRun (displays : m.Displays cs ds) (h : Handle) : m.Displays (m.inRun h cs) ds := by
  by_cases none : m.selected = []
  · have same : m.inRun h cs = cs := by simp [Marks.inRun, opensRun, closesRun, none]
    rwa [same]
  · have same : unmarked (m.inRun h cs) = unmarked cs := by
      unfold Marks.inRun
      split <;> split <;> simp [unmarked, isNoMark]
    exact ⟨⟨by rw [same]; exact displays.turns, fun empty => absurd empty none⟩,
      by rw [same]; exact displays.solid⟩

/-- Brackets of another kind show, on both sides. -/
theorem group {o d : Char} (opens : o ≠ ' ' ∧ isNoMark o = true)
    (closes : d ≠ ' ' ∧ isNoMark d = true) (displays : m.Displays cs ds) :
    m.Displays (o :: cs ++ [d]) (o :: ds ++ [d]) :=
  (cons opens.1 opens.2 displays.toTrails).append
    (cons closes.1 closes.2 (Trails.nil m)).toTrails

theorem enclosed (displays : m.Displays cs ds) (container part : Kind) :
    m.Displays (Term.enclosed container part cs) (Term.enclosed container part ds) := by
  unfold Term.enclosed
  split
  · exact displays.group (by decide) (by decide)
  · exact displays

theorem braced (displays : m.Displays cs ds) (asked : Bool) :
    m.Displays (Marks.enclosed asked '\x7b' '\x7d' cs) (Marks.enclosed asked '\x7b' '\x7d' ds) := by
  cases asked with
  | false => exact displays
  | true => exact displays.group (by decide) (by decide)

end Displays

/-! ### Lists -/

theorem displays_intercalate {css dss : List (List Char)} (some : dss ≠ [])
    (all : List.Forall₂ m.Displays css dss) :
    m.Displays (List.intercalate ['*'] css) (List.intercalate ['*'] dss) := by
  cases all with
  | nil => exact absurd rfl some
  | cons first later =>
    rw [intercalate_cons, intercalate_cons]
    exact first.append (Trails.flatMap (fun _ _ displays =>
      (Displays.cons (by decide) (by decide) displays.toTrails).toTrails) later)

/-- A term of a sum shows as another one. The sign of a marked term may be inside its brackets. -/
inductive ShowsSigned (m : Marks) : Bool × List Char → Bool × List Char → Prop
  | same {negated : Bool} {cs ds : List Char} : m.Displays cs ds → Firm ds →
      ShowsSigned m (negated, cs) (negated, ds)
  | inside {cs ds : List Char} : m.selected ≠ [] → m.Displays cs ('-' :: ds) →
      ShowsSigned m (false, cs) (true, ds)

theorem ShowsSigned.first {part part' : Bool × List Char} (shows : m.ShowsSigned part part') :
    m.Displays ((if part.1 then ['-'] else []) ++ part.2)
      ((if part'.1 then ['-'] else []) ++ part'.2) := by
  cases shows with
  | @same negated _ _ displays _ =>
    cases negated with
    | false => exact displays
    | true => exact .cons (by decide) (by decide) displays.toTrails
  | inside _ displays => exact displays

theorem ShowsSigned.later {part part' : Bool × List Char} (shows : m.ShowsSigned part part') :
    m.Trails ([' ', if part.1 then '-' else '+', ' '] ++ part.2)
      ([' ', if part'.1 then '-' else '+', ' '] ++ part'.2) := by
  cases shows with
  | @same negated cs ds displays firm =>
    obtain ⟨c, ds, rfl, solid, plus, minus⟩ := firm
    obtain ⟨es, same, turns⟩ := displays.exists_tail
    have sign : (if negated then '-' else '+') ≠ ' ' ∧
        isNoMark (if negated then '-' else '+') = true := by cases negated <;> decide
    refine ⟨fun rest => ?_, fun none => by rw [displays.plain none]⟩
    rw [unmarked_append, same]
    have kept : unmarked [' ', if negated then '-' else '+', ' '] =
        [' ', if negated then '-' else '+', ' '] := by cases negated <;> rfl
    rw [kept]
    simp only [List.cons_append, List.nil_append]
    rw [subtractions_sign sign.1 plus minus, subtractions_cons solid, turns]
  | @inside cs ds selects displays =>
    obtain ⟨es, same, turns⟩ := displays.exists_tail
    refine ⟨fun rest => ?_, fun none => absurd none selects⟩
    rw [unmarked_append, same]
    have kept : unmarked [' ', '+', ' '] = [' ', '+', ' '] := rfl
    show subtractions (unmarked [' ', '+', ' '] ++ '-' :: es ++ rest) = _
    rw [kept]
    simp only [List.cons_append, List.nil_append]
    rw [subtractions, turns]
    rfl

theorem displays_joinSigned {parts parts' : List (Bool × List Char)} (some : parts' ≠ [])
    (all : List.Forall₂ m.ShowsSigned parts parts') :
    m.Displays (joinSigned parts) (joinSigned parts') := by
  cases all with
  | nil => exact absurd rfl some
  | cons first later =>
    rw [joinSigned, joinSigned]
    exact first.first.append (Trails.flatMap (fun _ _ shows => shows.later) later)

/-! ### Elements -/

/-- The element is written as something that shows as its term does without marks. -/
def Shows (m : Marks) (write : Handle → Except Fault (List Char)) (a : Arena) (h : Handle) : Prop :=
  ∃ cs, write h = .ok cs ∧ m.Displays cs (a.denote h).shown

theorem slot_shows (wf : a.WellFormed) (stored : a.get? h = some n)
    (member : c ∈ n.element.children) (shows : m.Shows write a c)
    (inside : standsApart .display n.element c (a.denote c).kind = false) :
    ∃ cs, m.slot a write h c = .ok cs ∧
      m.Displays cs (Term.enclosed n.element.kind (a.denote c).kind (a.denote c).shown) := by
  obtain ⟨cs, written, displays⟩ := shows
  obtain ⟨k, held⟩ := wf.stored_of_mem_children stored member
  rw [kind_denote wf held] at inside ⊢
  refine ⟨_, ?_, (displays.enclosed n.element.kind k.element.kind).single c⟩
  rw [slot, bracketed_eq_ok wf stored held member written inside]
  rfl

theorem exponent_shows (wf : a.WellFormed) {base : Handle} (stored : a.get? h = some n)
    (shape : n.element = .power base c) (shows : m.Shows write a c) :
    ∃ cs, m.exponent a write h c = .ok cs ∧ m.Displays cs
      (enclosed (!(a.denote c).kind.isLeaf) '\x7b' '\x7d' (a.denote c).shown) := by
  obtain ⟨cs, written, displays⟩ := shows
  have member : c ∈ n.element.children := by rw [shape]; simp [Element.children]
  obtain ⟨k, held⟩ := wf.stored_of_mem_children stored member
  rw [exponent, kind_of_get? held, ok_bind,
    m.slot_of_standsApart wf stored held member written (by simp [shape, standsApart]), ok_bind,
    kind_denote wf held]
  exact ⟨_, rfl, (displays.single c).braced _⟩

/-- A marked term that is subtracted is written with its sign, and any other one as it is shown. -/
theorem term_shows (wf : a.WellFormed) (stored : a.get? h = some n) (sum : n.element.kind = .sum)
    (member : c ∈ n.element.children) (plain : (a.denote c).IsPlain)
    (shows : ∀ x, a.IsAbove h x → m.Shows write a x) :
    ∃ part, m.term a write h c = .ok part ∧ m.ShowsSigned part (a.denote c).shownSigned := by
  obtain ⟨k, held⟩ := wf.stored_of_mem_children stored member
  have above := wf.isAbove_child stored member
  have firm := firm_signed plain.begins fun _ part => IsPlain.begins (plain.child part)
  rw [term, negated?_of_get? held, ok_bind]
  cases inner : k.element.negated? with
  | none =>
    have other := Element.negated?_eq_none.mp inner
    rw [← kind_denote wf held] at other
    have inside : standsApart .display n.element c (a.denote c).kind = false := by
      rw [standsApart_of_sum sum, decide_eq_false other]
    obtain ⟨cs, written, displays⟩ := slot_shows wf stored member (shows c above) inside
    rw [shownSigned_of_ne other] at firm ⊢
    rw [sum] at displays
    refine ⟨(false, m.inRun c cs), ?_, .same (displays.inRun c) firm⟩
    dsimp only
    rw [written]
    rfl
  | some x =>
    have shape := Element.negated?_eq_some.mp inner
    have member' : x ∈ k.element.children := by rw [shape]; exact List.mem_singleton_self x
    have denoted : a.denote c = .negation (a.denote x) := by rw [wf.denote_eq held, shape]; rfl
    dsimp only
    cases marked : (m.opensRun c || m.isSingle c) with
    | true =>
      obtain ⟨cs, written, displays⟩ := shows c above
      have apart : standsApart .display n.element c k.element.kind = true := by
        rw [standsApart_of_sum sum, shape]
        rfl
      have selects : m.selected ≠ [] :=
        (Bool.or_eq_true_iff.mp marked).elim opensRun_selects isSingle_selects
      rw [denoted] at displays ⊢
      refine ⟨_, ?_, .inside selects ((displays.single c).inRun c)⟩
      rw [if_pos rfl, m.slot_of_standsApart wf stored held member written apart]
      rfl
    | false =>
      have below := above.trans (wf.isAbove_child held member')
      obtain ⟨cs, written, displays⟩ := slot_shows wf held member' (shows x below)
        (by rw [shape]; rfl)
      rw [denoted] at firm ⊢
      rw [shape] at displays
      refine ⟨(true, m.inRun c cs), ?_, .same (displays.inRun c) firm⟩
      rw [if_neg Bool.false_ne_true, written]
      rfl

/-- The factors of a product are written as they are shown, whichever of them are in the run. -/
theorem factors_shows (wf : a.WellFormed) (stored : a.get? h = some n)
    (product : n.element.kind = .product) (hs : List Handle)
    (inside : ∀ c ∈ hs, c ∈ n.element.children)
    (shows : ∀ x, a.IsAbove h x → m.Shows write a x) :
    ∃ css, hs.mapM (fun c => do return m.inRun c (← m.slot a write h c) :
        Handle → Except Fault (List Char)) = .ok css ∧
      List.Forall₂ m.Displays css
        (hs.map fun c => Term.enclosed .product (a.denote c).kind (a.denote c).shown) := by
  have each : ∀ c ∈ hs, ∃ cs, (do return m.inRun c (← m.slot a write h c) :
      Except Fault (List Char)) = .ok cs ∧ m.Displays cs
        (Term.enclosed .product (a.denote c).kind (a.denote c).shown) := by
    intro c member
    obtain ⟨cs, written, displays⟩ := slot_shows wf stored (inside c member)
      (shows c (wf.isAbove_child stored (inside c member))) (standsApart_of_product product _ c _)
    rw [product] at displays
    exact ⟨_, by rw [written]; rfl, displays.inRun c⟩
  obtain ⟨css, written, displays⟩ := mapM_outcome each
  exact ⟨css, written, List.forall₂_map_right_iff.mpr displays.flip⟩

theorem terms_shows (wf : a.WellFormed) (stored : a.get? h = some n)
    (sum : n.element.kind = .sum) (hs : List Handle)
    (inside : ∀ c ∈ hs, c ∈ n.element.children) (plain : (a.denote h).IsPlain)
    (shows : ∀ x, a.IsAbove h x → m.Shows write a x) :
    ∃ parts, hs.mapM (m.term a write h) = .ok parts ∧
      List.Forall₂ m.ShowsSigned parts (hs.map fun c => (a.denote c).shownSigned) := by
  have each : ∀ c ∈ hs, ∃ part, m.term a write h c = .ok part ∧
      m.ShowsSigned part (a.denote c).shownSigned := by
    intro c member
    have below := wf.isAbove_child stored (inside c member)
    exact term_shows wf stored sum (inside c member) (wf.all_below plain below) shows
  obtain ⟨parts, written, displays⟩ := mapM_outcome each
  exact ⟨parts, written, List.forall₂_map_right_iff.mpr displays.flip⟩

/-- A text without blanks and brackets shows as itself. -/
theorem displays_self (some : cs ≠ []) (other : ∀ c ∈ cs, c ≠ ' ' ∧ isNoMark c = true) :
    m.Displays cs cs := by
  induction cs with
  | nil => exact absurd rfl some
  | cons c cs ih =>
    obtain ⟨head, tail⟩ := List.forall_mem_cons.mp other
    refine .cons head.1 head.2 ?_
    by_cases none : cs = []
    · rw [none]
      exact .nil m
    · exact (ih none tail).toTrails

theorem displays_letter {l : Char} (letter : Formula.IsLetter l) : m.Displays [l] [l] :=
  displays_self (List.cons_ne_nil l []) (List.forall_mem_singleton.mpr ⟨ne_of_isLetter letter rfl,
    decide_eq_true ⟨ne_of_isLetter letter rfl, ne_of_isLetter letter rfl⟩⟩)

theorem displays_digits (value : Nat) :
    m.Displays (Nat.toDigits 10 value) (Nat.toDigits 10 value) :=
  displays_self Nat.toDigits_ne_nil fun _ member => ⟨ne_of_mem_toDigits member rfl,
    decide_eq_true ⟨ne_of_mem_toDigits member rfl, ne_of_mem_toDigits member rfl⟩⟩

/-- An element is written as what its term shows if everything below it is. -/
theorem shows_of_parts (m : Marks) (wf : a.WellFormed) (stored : a.get? h = some n)
    (plain : (a.denote h).IsPlain) {d : Nat}
    (shows : ∀ x, a.IsAbove h x → m.Shows (m.writeWithin a d) a x) :
    m.Shows (m.writeWithin a (d + 1)) a h := by
  have top := plain.self
  rw [wf.denote_eq stored] at top
  have filled := top.filled
  rw [Element.kind_toTerm, Element.children_toTerm, ne_eq, List.map_eq_nil_iff] at filled
  have slot : ∀ c ∈ n.element.children, standsApart .display n.element c (a.denote c).kind = false →
      ∃ cs, m.slot a (m.writeWithin a d) h c = .ok cs ∧
        m.Displays cs (Term.enclosed n.element.kind (a.denote c).kind (a.denote c).shown) :=
    fun c member => slot_shows wf stored member (shows c (wf.isAbove_child stored member))
  rw [Shows, writeWithin, element_of_get? stored, ok_bind, wf.denote_eq stored]
  cases shape : n.element with
  | symbol name =>
    rw [shape] at top
    obtain ⟨l, rfl, letter⟩ := top.letter name rfl
    refine ⟨_, rfl, ?_⟩
    rw [Element.toTerm, shown, String.toList_ofList]
    exact displays_letter letter
  | integer value => exact ⟨_, rfl, displays_digits value.toNat⟩
  | negation inner =>
    simp only [shape, Element.children, List.forall_mem_singleton] at slot
    obtain ⟨cs, written, displays⟩ := slot rfl
    dsimp only
    rw [written, ok_bind]
    exact ⟨_, rfl, .cons (by decide) (by decide) displays.toTrails⟩
  | root inner =>
    simp only [shape, Element.children, List.forall_mem_singleton] at slot
    exact slot rfl
  | fraction numerator denominator =>
    simp only [shape, Element.children, List.forall_mem_cons] at slot
    obtain ⟨above, written, displays⟩ := slot.1 rfl
    obtain ⟨below, written', displays'⟩ := slot.2.1 rfl
    dsimp only
    rw [written, ok_bind, written', ok_bind]
    exact ⟨_, rfl, displays.infixed (by decide) (by decide) displays'⟩
  | power base exponent =>
    have different := wf.exponent_ne_base stored shape
    have member : exponent ∈ n.element.children := by rw [shape]; simp [Element.children]
    obtain ⟨raised, written', displays'⟩ := exponent_shows wf stored shape
      (shows exponent (wf.isAbove_child stored member))
    simp only [shape, Element.children, List.forall_mem_cons] at slot
    obtain ⟨below, written, displays⟩ := slot.1 (by simp [standsApart, different])
    dsimp only
    rw [written, ok_bind, written', ok_bind]
    exact ⟨_, rfl, displays.infixed (by decide) (by decide) displays'⟩
  | product factors =>
    rw [shape] at filled
    obtain ⟨css, written, displays⟩ := factors_shows wf stored (by rw [shape]; rfl) factors
      (by rw [shape]; exact fun _ => id) shows
    dsimp only
    rw [written, ok_bind, Element.toTerm, shown, shownFactors_eq, List.map_map]
    exact ⟨_, rfl, displays_intercalate (mt List.map_eq_nil_iff.mp (filled rfl)) displays⟩
  | sum terms =>
    rw [shape] at filled
    obtain ⟨parts, written, displays⟩ := terms_shows wf stored (by rw [shape]; rfl) terms
      (by rw [shape]; exact fun _ => id) plain shows
    dsimp only
    rw [written, ok_bind, Element.toTerm, shown, shownTerms_eq, List.map_map]
    exact ⟨_, rfl, displays_joinSigned (mt List.map_eq_nil_iff.mp (filled rfl)) displays⟩

/-- Whatever is selected, an element is written as what its term shows. -/
theorem writeWithin_shows (m : Marks) (wf : a.WellFormed) (stored : a.get? h = some n)
    (plain : (a.denote h).IsPlain) {d : Nat} (enough : (a.below h).card < d) :
    m.Shows (m.writeWithin a d) a h := by
  refine wf.depth_induction (motive := fun d h => (a.denote h).IsPlain →
    m.Shows (m.writeWithin a d) a h) (fun d h n stored ih plain => ?_) stored enough plain
  exact m.shows_of_parts wf stored plain fun x above => ih x above (wf.all_below plain above)

theorem writeMarked_shows (wf : a.WellFormed) (plain : (a.denote a.root).IsPlain)
    (selected : List Handle) : ∃ cs, a.writeMarked selected = .ok cs ∧
      Displays ⟨selected⟩ cs (a.denote a.root).shown := by
  obtain ⟨inner, stored⟩ := wf.wrapper
  obtain ⟨cs, written, displays⟩ := Marks.writeWithin_shows ⟨selected⟩ wf stored plain
    (a.card_below_lt_reach a.root)
  refine ⟨_, ?_, displays.single a.root⟩
  rw [writeMarked, written]
  rfl

end Marks

/-! ### Agreement -/

open Marks

variable {a : Arena}

theorem WellFormed.plain_root (wf : a.WellFormed) (normal : a.IsNormalAt a.root) :
    (a.denote a.root).IsPlain := by
  obtain ⟨t, read, normal⟩ := normal
  obtain ⟨inner, stored⟩ := wf.wrapper
  cases (wf.term_eq_ok stored).symm.trans read
  rw [wf.denote_eq stored] at normal ⊢
  exact normal.plain.root

/-- The console shows the expression as it is written, but for the brackets of what is selected, the
braces around exponents and the signs of selected terms. -/
theorem printers_agree (wf : a.WellFormed) (normal : a.IsNormalAt a.root) :
    ∃ text display plain, a.write .text a.root = .ok text ∧ a.write .display a.root = .ok display ∧
      a.writeMarked [] = .ok plain ∧ plain.map rounded = text ∧ plain.filter isNoBrace = display ∧
      ∀ selected, ∃ marked, a.writeMarked selected = .ok marked ∧
        subtractions ((unmarked marked).map rounded) = text := by
  have plain := wf.plain_root normal
  obtain ⟨inner, stored⟩ := wf.wrapper
  obtain ⟨cs, written, displays⟩ := writeMarked_shows wf plain []
  refine ⟨_, _, cs, wf.write_eq_ok stored .text, wf.write_eq_ok stored .display, written, ?_, ?_,
    fun selected => ?_⟩
  · rw [displays.plain rfl, map_rounded_shown plain]
  · rw [displays.plain rfl, filter_shown plain]
  · obtain ⟨cs, written, displays⟩ := writeMarked_shows wf plain selected
    have turned := displays.turns []
    rw [List.append_nil, subtractions, List.append_nil] at turned
    exact ⟨cs, written, by rw [← map_rounded_subtractions, turned, map_rounded_shown plain]⟩

/-- A subtracted term with a sum as an exponent is selected, and keeps its sign. -/
theorem printers_agree_on_sum : ∃ a : Arena, a.WellFormed ∧ a.IsNormalAt a.root ∧
    a.write .text a.root = .ok "a - b^(c + 1)".toList ∧
    a.write .display a.root = .ok "a - b^c + 1".toList ∧
    a.writeMarked [] = .ok "a - b^\x7bc + 1\x7d".toList ∧
    a.writeMarked [⟨4⟩] = .ok "a + [-b^\x7bc + 1\x7d]".toList ∧
    subtractions ((unmarked "a + [-b^\x7bc + 1\x7d]".toList).map rounded) =
      "a - b^(c + 1)".toList := by
  have parsed : Formula.parse "a-b^(c+1)".toList = .ok (.sum [.symbol "a",
    .negation (.power (.symbol "b") (.sum [.symbol "c", .integer 1]))]) := rfl
  have normal := Formula.normal_of_parse parsed
  have wf := Edit.wellFormed_expression normal.to_unwrapped
  obtain ⟨a, same⟩ : ∃ a, a = (zero.plant (.sum [.symbol "a", .negation (.power (.symbol "b")
    (.sum [.symbol "c", .integer 1]))])).rewire ⟨0⟩ (.root ⟨2⟩) := ⟨_, rfl⟩
  have written : a.write .text a.root = .ok "a - b^(c + 1)".toList := by rw [same]; rfl
  have displayed : a.write .display a.root = .ok "a - b^c + 1".toList := by rw [same]; rfl
  have shown : a.writeMarked [] = .ok "a - b^\x7bc + 1\x7d".toList := by rw [same]; rfl
  have marked : a.writeMarked [⟨4⟩] = .ok "a + [-b^\x7bc + 1\x7d]".toList := by rw [same]; rfl
  have wf : a.WellFormed := by rw [same]; exact wf
  have normal : a.IsNormalAt a.root := by rw [same]; exact ⟨_, rfl, normal⟩
  obtain ⟨_, _, _, written', _, _, _, _, each⟩ := printers_agree wf normal
  obtain ⟨_, marked', turned⟩ := each [⟨4⟩]
  cases written.symm.trans written'
  cases marked.symm.trans marked'
  exact ⟨a, wf, normal, written, displayed, shown, marked, turned⟩

end AlgebraEditor.Arena
