import AlgebraEditor.Proofs.Arena.Siblings
import AlgebraEditor.Proofs.Selection.Order

/-!
# Replacing by slots

An element is found below another one by taking slots. If something else comes to stand in its
place and nothing changes around it, then what is above denotes the same as before, with another
term found by these slots.
-/

namespace AlgebraEditor

namespace Term

/-- The term with other parts. -/
def withChildren : Term → List Term → Term
  | negation _, [inner] => negation inner
  | fraction _ _, [numerator, denominator] => fraction numerator denominator
  | power _ _, [base, exponent] => power base exponent
  | product _, factors => product factors
  | sum _, terms => sum terms
  | root _, [inner] => root inner
  | t, _ => t

/-- The term with `new` where these slots lead. -/
def replaceAt : Term → List Nat → Term → Term
  | _, [], new => new
  | t, i :: slots, new => t.withChildren (t.children.modify i fun u => u.replaceAt slots new)

theorem eq_withChildren {t u : Term} (kind : u.kind = t.kind) (inner : u.children ≠ []) :
    u = t.withChildren u.children := by
  cases u <;> cases t <;> simp_all [Term.kind, children, withChildren]

end Term

namespace Arena

variable {a b : Arena} {c e g h p q r x : Handle} {n : Node} {i : Nat} {path : List Handle}
  {slots : List Nat} {t : Term}

/-- What is found by slots from a container has been replaced there. -/
theorem Spliced.denote_slot (spliced : a.Spliced p h [r] b) (wf : a.WellFormed)
    (stored : a.get? p = some n) (found : n.element.children.idxOf? h = some i)
    (denotes : b.denote r = (a.denote h).replaceAt slots t) :
    b.denote p = (a.denote p).replaceAt (i :: slots) t := by
  obtain ⟨kind, parts⟩ := spliced.denote_container wf stored (between_of_idxOf? found)
  rw [← kind_denote wf stored] at kind
  have inside := lt_of_idxOf? found
  have replaced : (b.denote p).children =
      (a.denote p).children.modify i fun u => u.replaceAt slots t := by
    rw [parts, wf.denote_eq stored, Element.children_toTerm,
      List.modify_eq_take_cons_drop (by simpa using inside), ← List.map_take, ← List.map_drop,
      List.getElem_map, getElem_of_idxOf? found, List.map_singleton, denotes, List.append_assoc,
      List.singleton_append]
  rw [Term.replaceAt, ← replaced]
  refine Term.eq_withChildren kind ?_
  simp [parts]

/-- A change at a slot is one in whatever is above. -/
theorem Takes.spliced (way : a.Takes g path slots x) (wf : a.WellFormed)
    (spliced : a.Spliced p x [r] b) (owned : a.owner? g = some q) :
    ∃ s, a.Spliced q g [s] b ∧ b.denote s = (a.denote g).replaceAt slots (b.denote r) ∧
      s = if slots = [] then r else g := by
  induction way generalizing q with
  | here x =>
    cases owned.symm.trans spliced.owned
    exact ⟨r, spliced, rfl, rfl⟩
  | @down g c x n i path slots stored found way ih =>
    have inner := wf.records stored c (mem_of_idxOf? found)
    obtain ⟨s, spliced, denotes, -⟩ := ih spliced inner
    exact ⟨g, spliced.enclosing wf owned, spliced.denote_slot wf stored found denotes, rfl⟩

theorem Takes.owned (way : a.Takes g path slots x) (wf : a.WellFormed)
    (owned : a.owner? g = some q) : ∃ p, a.owner? x = some p := by
  induction way generalizing q with
  | here => exact ⟨q, owned⟩
  | down stored found _ ih => exact ih (wf.records stored _ (mem_of_idxOf? found))

/-- A term stays what it is if what is found by slots is replaced by itself. -/
theorem Takes.replaceAt_self (way : a.Takes g path slots x) (wf : a.WellFormed)
    (owned : a.owner? g = some q) : (a.denote g).replaceAt slots (a.denote x) = a.denote g := by
  obtain ⟨p, owned'⟩ := way.owned wf owned
  obtain ⟨s, -, denotes, same⟩ := way.spliced wf (.refl wf owned') owned
  rw [← denotes, same]
  cases way with
  | here => rfl
  | down => rfl

/-! ### Slots below the wrapper -/

/-- The only slot of the wrapper holds the content. -/
theorem At.takes_content (place : a.At (0 :: slots) e) (content : a.content = .ok c) :
    ∃ path, a.Takes c path slots e := by
  obtain ⟨path, -, way⟩ := place
  cases way with
  | down stored found way =>
    obtain ⟨n, held, wrapper⟩ := content_eq_ok.mp content
    cases stored.symm.trans held
    have member := mem_of_idxOf? found
    rw [wrapper] at member
    cases List.mem_singleton.mp member
    exact ⟨_, way⟩

theorem Reachable.at_content (reached : a.Reachable e) (wf : a.WellFormed) (other : e ≠ a.root) :
    ∃ slots, a.At (0 :: slots) e := by
  obtain ⟨is, place⟩ := reached.at wf
  obtain ⟨path, read, way⟩ := place
  cases way with
  | here => exact absurd rfl other
  | @down _ _ _ n i path slots stored found way =>
    obtain ⟨c, held⟩ := wf.wrapper
    cases stored.symm.trans held
    obtain rfl : i = 0 := Nat.lt_one_iff.mp (lt_of_idxOf? found)
    exact ⟨slots, _, read, .down stored found way⟩

end Arena

end AlgebraEditor
