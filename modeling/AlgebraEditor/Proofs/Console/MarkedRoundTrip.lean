import AlgebraEditor.Proofs.Console.Marked
import AlgebraEditor.Proofs.Formula.RoundTrip

/-!
# The round trip through marked text

The text of an expression with marks reads back. Brackets around one element are lost on the way;
brackets around a run of a list make it a list of its own, as in an arena in which it is grouped.
-/

namespace AlgebraEditor

open Arena Formula

namespace Arena

variable {a b : Arena} {c h p g x first last : Handle} {mid before after : List Handle} {n : Node}
  {m : Marks} {t : Term} {d : Nat} {s : Selection}

namespace Marks

/-- A list with a run is written as the list in which the run is grouped. -/
theorem reads_of_run (wf : a.WellFormed) (groups : a.Groups b p g before (first :: (mid ++ [last])) after)
    (selected : m.selected = first :: (mid ++ [last])) (other : before ++ after ≠ [])
    (reads : ∀ x, a.IsAbove p x → Reads (m.writeWithin a d) b x) :
    Reads (m.writeWithin a (d + 1)) b p := by
  obtain ⟨n, stored, isList, children, ⟨_, held, outer⟩, ⟨_, held', inner⟩⟩ := groups.lists
  have like := groups.resembles
  have split : before ++ first :: (mid ++ [last]) ++ after =
      before ++ first :: (mid ++ last :: after) := by simp
  rw [split] at children
  have shown := groups.wf.denote_eq held
  have shown' := groups.wf.denote_eq held'
  rw [outer] at shown
  rw [inner] at shown'
  rw [Reads, writeWithin, element_of_get? stored, ok_bind]
  cases shape : n.element with
  | product factors =>
    obtain ⟨css, written, legible⟩ := m.product_of_run wf like stored (by rw [shape]; rfl) selected
      children other reads
    simp only [shape, Element.modifyList, Element.toTerm, Element.children] at shown shown' written
    rw [shown, List.map_append, List.map_cons, shown']
    dsimp only
    rw [written, ok_bind]
    exact ⟨_, rfl, legible⟩
  | sum terms =>
    obtain ⟨parts, written, legible⟩ := m.sum_of_run wf like stored (by rw [shape]; rfl) selected
      children other reads
    simp only [shape, Element.modifyList, Element.toTerm, Element.children] at shown shown' written
    rw [shown, List.map_append, List.map_cons, shown']
    dsimp only
    rw [written, ok_bind]
    exact ⟨_, rfl, legible⟩
  | _ => rw [shape] at isList; cases isList

/-- A normal element is written in its stratum if all below it is. -/
def Lifts (m : Marks) (a b : Arena) : Prop :=
  ∀ {h n d}, a.get? h = some n → (a.denote h).IsNormal →
    (∀ x, a.IsAbove h x → Reads (m.writeWithin a d) b x) → Reads (m.writeWithin a (d + 1)) b h

theorem Lifts.reads (lifts : m.Lifts a b) (wf : a.WellFormed) (stored : a.get? h = some n)
    (normal : (a.denote h).IsNormal)
    (enough : (a.below h).card < d) : Reads (m.writeWithin a d) b h := by
  refine wf.depth_induction (motive := fun d h => (a.denote h).IsNormal →
    Reads (m.writeWithin a d) b h) (fun d h n stored ih normal => ?_) stored enough normal
  exact lifts stored normal fun x above => ih x above (wf.all_below normal above)

/-- The text of the whole expression reads back as what `b` shows as its content. -/
theorem Lifts.parse (lifts : m.Lifts a b) (wf : a.WellFormed) (like : a.Resembles b)
    (content : a.content = .ok c) (normal : (a.denote c).IsNormal) :
    ∃ cs, a.writeMarked m.selected = .ok cs ∧ Formula.parse cs = .ok (b.denote c) := by
  obtain ⟨w, stored, wrapper⟩ := content_eq_ok.mp content
  have member : c ∈ w.element.children := by rw [wrapper]; exact List.mem_singleton_self c
  obtain ⟨n, held⟩ := wf.stored_of_mem_children stored member
  have enough : (a.below c).card < a.places.size := by
    have less := wf.card_below_lt (wf.isAbove_child stored member)
    have bound := a.card_below_lt_reach a.root
    rw [reach] at bound
    omega
  obtain ⟨cs, written, legible⟩ := m.slot_legible wf like stored member
    (lifts.reads wf held normal enough) (by rw [wrapper]; rfl) .root (by rw [wrapper]; rfl)
    .any (fun kind _ => by cases kind <;> decide)
  refine ⟨_, ?_, (legible_enclosed (m.isSingle a.root) (o := '[') (d := ']') legible
    (by rfl) (by rfl)).parse⟩
  rw [writeMarked, reach, writeWithin, element_of_get? stored, wrapper]
  simp only [ok_bind, written]
  rfl

theorem plain_of_single (selected : m.selected = [h]) (c : Handle) :
    m.opensRun c = false ∧ m.closesRun c = false := by
  simp [opensRun, closesRun, selected]

theorem lifts_of_single (wf : a.WellFormed) (selected : m.selected = [h]) : m.Lifts a a :=
  fun stored normal => m.reads_of_parts wf wf.resembles stored normal (wf.denote_eq stored)
    fun x _ => plain_of_single selected x

theorem lifts_of_run (wf : a.WellFormed)
    (groups : a.Groups b p g before (first :: (mid ++ [last])) after)
    (selected : m.selected = first :: (mid ++ [last])) (other : before ++ after ≠ []) :
    m.Lifts a b := by
  intro h n d stored normal reads
  by_cases same : h = p
  · subst same
    exact reads_of_run wf groups selected other reads
  · refine m.reads_of_parts wf groups.resembles stored normal (groups.denote_of_ne stored same)
      (fun x member => ?_) reads
    -- the ends of the run are children of another element
    obtain ⟨k, held, _, children, _⟩ := groups.lists
    have outside : ∀ y ∈ first :: (mid ++ [last]), y ≠ x := by
      rintro y inside rfl
      have owned := wf.records held y (by
        rw [children]
        exact List.mem_append_left _ (List.mem_append_right _ inside))
      exact same (Option.some.inj ((wf.records stored y member).symm.trans owned))
    rw [opensRun_run selected, closesRun_run selected]
    exact ⟨decide_eq_false (outside first List.mem_cons_self), decide_eq_false (outside last (by simp))⟩

end Marks

/-! ### Reading back -/

/-- The text is read as an element that equals the given one. -/
def ReadsBack (text : List Char) (a : Arena) (e : Handle) : Prop :=
  ∀ b : Arena, b.WellFormed → ∃ x b', (Edit.plantText text).run b = .ok (.ok x) b' ∧
    b'.equalAcross a x e = .ok true

theorem WellFormed.readsBack (wf : a.WellFormed) {cs : List Char} (stored : a.get? h = some n)
    (read : parse cs = .ok (a.denote h)) : ReadsBack cs a h := by
  intro b wf'
  obtain ⟨x, b', run, adds⟩ := Edit.run_plantText_of_ok wf' read
  obtain ⟨_, found, -⟩ := adds.top_stored (List.mem_singleton_self x)
  obtain ⟨_, compared, equal⟩ := adds.wf.equalAcross_eq_ok wf found stored
  exact ⟨x, b', run, by rw [compared, equal.mpr adds.denote_top]⟩

theorem isList_of_length {e : Element} (many : 2 < e.children.length) : e.kind.isList = true := by
  cases e with
  | product | sum => rfl
  | _ => simp [Element.children] at many

/-- A selected run is a part of a list. -/
theorem exists_groups_of_valid (wf : a.WellFormed) (valid : s.Valid a) (several : s.rest ≠ []) :
    ∃ b p g before after, a.Groups b p g before s.toList after := by
  cases valid with
  | single => exact absurd rfl several
  | @run p first second n before rest after reached stored children other =>
    have more := List.length_pos_of_ne_nil other
    rw [List.length_append] at more
    have many : 2 < n.element.children.length := by
      rw [children]
      simp only [List.length_append, List.length_cons]
      omega
    obtain ⟨b, g, groups⟩ := wf.exists_groups stored (isList_of_length many) children
    exact ⟨b, p, g, before, after, groups⟩

/-- A list of which a run is selected has other children. -/
theorem Groups.other_of_valid (groups : a.Groups b p g before s.toList after) (wf : a.WellFormed)
    (valid : s.Valid a) (several : s.rest ≠ []) : before ++ after ≠ [] := by
  cases valid with
  | single => exact absurd rfl several
  | @run q first second n before' rest after' reached stored children other =>
    rintro none
    obtain ⟨m, held, _, children', _⟩ := groups.lists
    have owned := wf.records stored first (by simp [children])
    have owned' := wf.records held first (by simp [children', Selection.toList])
    obtain rfl : q = p := Option.some.inj (owned.symm.trans owned')
    cases stored.symm.trans held
    obtain ⟨rfl, rfl⟩ := List.append_eq_nil_iff.mp none
    have lengths := congrArg List.length (children.symm.trans children')
    have more := List.length_pos_of_ne_nil other
    simp only [Selection.toList, List.length_append, List.length_cons, List.length_nil] at lengths more
    omega

/-- Marked text is read back: as the content if one element is marked, and if a run of a list is
marked as the content with the run in a list of its own. -/
theorem marked_text_reads_back (wf : a.WellFormed) (normal : a.IsNormalAt a.root)
    (valid : s.Valid a) : ∃ text, a.writeMarked s.toList = .ok text ∧
      (s.rest = [] → ∃ c, a.content = .ok c ∧ ReadsBack text a c) ∧
      (s.rest ≠ [] → (∃ b p g before after, a.Groups b p g before s.toList after) ∧
        ∀ b p g before after, a.Groups b p g before s.toList after →
          ∃ c, b.content = .ok c ∧ ReadsBack text b c) := by
  obtain ⟨c, n, content, stored, normal, _⟩ := wf.write_expressionAt normal
  rw [expressionAt, if_pos rfl] at content
  by_cases several : s.rest = []
  · have selected : s.toList = [s.first] := congrArg (s.first :: ·) several
    have lifts : Marks.Lifts ⟨s.toList⟩ a a := Marks.lifts_of_single wf selected
    obtain ⟨text, written, read⟩ := lifts.parse wf wf.resembles content normal
    exact ⟨text, written, fun _ => ⟨c, content, wf.readsBack stored read⟩, absurd several⟩
  · have ends : s.toList = s.first :: (s.rest.dropLast ++ [s.rest.getLast several]) := by
      rw [List.dropLast_append_getLast, Selection.toList]
    obtain ⟨b, p, g, before, after, groups⟩ := exists_groups_of_valid wf valid several
    have parsed : ∀ {b p g before after}, a.Groups b p g before s.toList after → ∃ text,
        a.writeMarked s.toList = .ok text ∧ Formula.parse text = .ok (b.denote c) := by
      intro b p g before after groups
      have other := groups.other_of_valid wf valid several
      rw [ends] at groups
      have lifts : Marks.Lifts ⟨s.toList⟩ a b := Marks.lifts_of_run wf groups ends other
      exact lifts.parse wf groups.resembles content normal
    obtain ⟨text, written, _⟩ := parsed groups
    refine ⟨text, written, fun single => absurd single several, fun _ => ⟨⟨b, p, g, before, after, groups⟩,
      fun b' p' g' before' after' groups' => ?_⟩⟩
    obtain ⟨_, written', read⟩ := parsed groups'
    cases written.symm.trans written'
    have content' := groups'.content content
    obtain ⟨n, stored⟩ := groups'.wf.stored_content content'
    exact ⟨c, content', groups'.wf.readsBack stored read⟩

/-- Two of three terms are marked, the second of which is subtracted. -/
theorem marked_text_reads_back_of_sum : ∃ a : Arena, a.WellFormed ∧ a.IsNormalAt a.root ∧
    Selection.Valid a ⟨⟨3⟩, [⟨4⟩]⟩ ∧ a.writeMarked [⟨3⟩, ⟨4⟩] = .ok "[a - b] + c".toList ∧
    (∃ b p g before after, a.Groups b p g before [⟨3⟩, ⟨4⟩] after) ∧
    ∀ b p g before after, a.Groups b p g before [⟨3⟩, ⟨4⟩] after →
      ∃ c, b.content = .ok c ∧ ReadsBack "[a - b] + c".toList b c := by
  have parsed : parse "a-b+c".toList =
      .ok (.sum [.symbol "a", .negation (.symbol "b"), .symbol "c"]) := rfl
  have normal := normal_of_parse parsed
  have wf := Edit.wellFormed_expression normal.to_unwrapped
  obtain ⟨a, same⟩ : ∃ a, a = rewire (zero.plant (.sum [.symbol "a", .negation (.symbol "b"),
    .symbol "c"])) ⟨0⟩ (.root ⟨2⟩) := ⟨_, rfl⟩
  have root : a.get? a.root = some ⟨none, .root ⟨2⟩⟩ := by rw [same]; rfl
  have sum : a.get? ⟨2⟩ = some ⟨some ⟨0⟩, .sum ([] ++ [⟨3⟩, ⟨4⟩] ++ [⟨6⟩])⟩ := by rw [same]; rfl
  have marked : a.writeMarked [⟨3⟩, ⟨4⟩] = .ok "[a - b] + c".toList := by rw [same]; rfl
  have wf : a.WellFormed := by rw [same]; exact wf
  have normal : a.IsNormalAt a.root := by rw [same]; exact ⟨_, rfl, normal⟩
  have valid := Selection.Valid.run (.child .root root (List.mem_singleton_self _)) sum rfl nofun
  obtain ⟨_, written, _, run⟩ := marked_text_reads_back wf normal valid
  cases marked.symm.trans written
  exact ⟨a, wf, normal, valid, marked, run nofun⟩

end Arena

end AlgebraEditor
