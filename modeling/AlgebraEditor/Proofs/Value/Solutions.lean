import AlgebraEditor.Proofs.Arena.Assembling
import AlgebraEditor.Proofs.Value.Interpretation

/-!
# Solutions under edits

An edit disturbs the equation of the container that it changes and of no other element. So a
solution is carried along, and where the container's equation holds again at the end, the value of
the whole expression is what it was.
-/

namespace AlgebraEditor

variable {R : Type*} [CommRing R] {I : Interpretation R}

namespace Arena

variable {a b : Arena} {c h x old new : Handle} {e : Element} {n : Node} {t : Term}
  {ts : List Term} {v : Handle → R} {broken others : Set Handle}

namespace Solves

/-- Rewiring leaves every equation but that of the container. -/
theorem rewire (solves : a.Solves I v broken) (apart : ∀ h, h ∉ others → h ≠ c → h ∉ broken)
    (self : c ∉ others → v c = e.value I v) : (a.rewire c e).Solves I v others := by
  intro h n stored outside
  obtain ⟨m, held, rfl⟩ := get?_rewire_eq_some.mp stored
  by_cases same : h = c
  · subst same
    rw [element_rewired_self]
    exact self outside
  · rw [element_rewired_of_ne same]
    exact solves h m held (apart h outside same)

/-- What is planted extends a solution by its value. -/
theorem plant (solves : a.Solves I v broken) (wf : a.WellFormed) (unwrapped : t.Unwrapped) :
    ∃ w, (a.plant t).Solves I w broken ∧ (∀ h n, a.get? h = some n → w h = v h) ∧
      w a.next = t.eval I := by
  classical
  have wf' := wf.plant unwrapped
  let w : Handle → R := fun h => if ∃ n, a.get? h = some n then v h else (a.plant t).value I h
  have old : ∀ h n, a.get? h = some n → w h = v h := fun h n stored => if_pos ⟨n, stored⟩
  have new : ∀ h, a.get? h = none → w h = (a.plant t).value I h := fun h absent =>
    if_neg (by rw [absent]; nofun)
  refine ⟨w, fun h n stored outside => ?_, old, ?_⟩
  · rcases get?_plant.mp stored with before | laid
    · rw [old h n before, solves h n before outside]
      refine Element.value_congr I fun c member => ?_
      obtain ⟨m, held⟩ := wf.stored_of_mem_children before member
      exact (old c m held).symm
    · have fresh : ∀ {k m}, Term.Laid a.places.size none t k m → a.get? k = none := by
        intro k m inside
        cases stored' : a.get? k with
        | none => rfl
        | some m' => exact (stored_laid_disjoint stored' inside).elim
      rw [new h (fresh laid), wf'.value_eq I stored]
      refine Element.value_congr I fun c member => ?_
      obtain ⟨_, m, inside, _⟩ := laid.child member
      exact (new c (fresh inside)).symm
  · rw [new a.next a.get?_next, value, denote_plant wf unwrapped]

/-- What is added extends a solution by the values of the terms. -/
theorem adds (solves : a.Solves I v broken) (wf : a.WellFormed) {xs : List Handle}
    (adds : a.Adds ts xs b) : ∃ w, b.Solves I w broken ∧ (∀ h n, a.get? h = some n → w h = v h) ∧
      xs.map w = ts.map (Term.eval I) := by
  let w : Handle → R := fun h => if h.index < a.places.size then v h else b.value I h
  have old : ∀ h n, a.get? h = some n → w h = v h := fun h n stored =>
    if_pos (index_lt_of_get? stored)
  have new : ∀ h, a.places.size ≤ h.index → w h = b.value I h := fun h outside =>
    if_neg (Nat.not_lt.mpr outside)
  refine ⟨w, fun h n stored outside => ?_, old, ?_⟩
  · by_cases before : h.index < a.places.size
    · rw [adds.old h before] at stored
      rw [old h n stored, solves h n stored outside]
      refine Element.value_congr I fun c member => ?_
      obtain ⟨m, held⟩ := wf.stored_of_mem_children stored member
      exact (old c m held).symm
    · have after := Nat.le_of_not_lt before
      rw [new h after, adds.wf.value_eq I stored]
      refine Element.value_congr I fun c member => ?_
      exact (new c (adds.child_new wf after stored member)).symm
  · rw [← adds.denotes, List.map_map]
    exact List.map_congr_left fun x top => new x ((adds.tops x).mp top).1

/-- A new container extends a solution by the value that its children make. -/
theorem create (solves : a.Solves I v broken) (wf : a.WellFormed)
    (stored : ∀ x ∈ e.children, ∃ n, a.get? x = some n) :
    ∃ w, ((a.plant (.integer 0)).rewire a.next e).Solves I w broken ∧
      (∀ h n, a.get? h = some n → w h = v h) ∧ w a.next = e.value I v := by
  classical
  have old : ∀ h n, a.get? h = some n → Function.update v a.next (e.value I v) h = v h := by
    intro h n stored
    exact Function.update_of_ne (ne_next_of_stored stored) _ _
  refine ⟨Function.update v a.next (e.value I v), fun h n found outside => ?_, old,
    Function.update_self _ _ _⟩
  obtain ⟨m, held, rfl⟩ := get?_rewire_eq_some.mp found
  by_cases same : h = a.next
  · subst same
    rw [element_rewired_self, Function.update_self]
    refine Element.value_congr I fun c member => ?_
    obtain ⟨k, held'⟩ := stored c member
    exact (old c k held').symm
  · rw [element_rewired_of_ne same]
    rw [plant_integer, get?_push_of_ne a _ same] at held
    rw [old h m held, solves h m held outside]
    refine Element.value_congr I fun c member => ?_
    obtain ⟨k, held'⟩ := wf.stored_of_mem_children held member
    exact (old c k held').symm

/-- Putting a sign in front of a child makes up for a sign that its value lost. -/
theorem signed (others : Set Handle) (solves : a.Solves I v broken) (wf : a.WellFormed) (stored : a.get? c = some n)
    (member : h ∈ n.element.children) (apart : ∀ x, x ∉ others → x ≠ c → x ∉ broken)
    (worth : c ∉ others → v c = n.element.value I (Function.update v h (-v h))) :
    ∃ w, (a.signed c n.element h).Solves I w others ∧ ∀ x m, a.get? x = some m → w x = v x := by
  obtain ⟨k, held⟩ := wf.stored_of_mem_children stored member
  have zero := Term.unwrapped_integer 0
  have rewirable := Edit.rewirable_planted wf zero stored member
  have stored' := get?_plant_of_stored stored (.integer 0)
  have held' := get?_plant_of_stored held (.integer 0)
  obtain ⟨v₁, planted, kept, _⟩ := solves.plant wf zero
  have slotted : ((a.plant (.integer 0)).rewire c (n.element.replaceChild h a.next)).Solves I v₁
      (insert c others) := by
    refine planted.rewire (fun x outside other => ?_) fun outside => absurd (Set.mem_insert c _) outside
    exact apart x (fun inside => outside (Set.mem_insert_of_mem c inside)) other
  obtain ⟨w, created, kept', new⟩ := slotted.create (e := .negation h)
    (wf.plant zero |>.rewire stored' rewirable) (fun x inside => by
      rw [List.mem_singleton.mp inside]
      exact ⟨_, get?_rewire_of_stored held'⟩)
  rw [next_rewire] at created new
  have agrees : ∀ x m, a.get? x = some m → w x = v x := by
    intro x m found
    rw [kept' x _ (get?_rewire_of_stored (get?_plant_of_stored found _)), kept x m found]
  refine ⟨w, created.rewire (fun x outside other inside => ?_) fun outside => ?_, agrees⟩
  · exact (Set.mem_insert_iff.mp inside).elim other outside
  · rw [agrees c n stored, worth outside]
    refine (Element.value_replaceChild I (wf.distinct stored) (fun x inside other => ?_) ?_).symm
    · obtain ⟨m, found⟩ := wf.stored_of_mem_children stored inside
      rw [agrees x m found, Function.update_of_ne other]
    · rw [new, Function.update_self, Element.value, kept h k held]

/-- Giving an element another value disturbs its owner's equation and its own. -/
theorem assign (others : Set Handle) (solves : a.Solves I v broken) (wf : a.WellFormed) (stored : a.get? h = some n)
    {r : R} (apart : ∀ x, x ∉ others → x ≠ h → x ∉ broken)
    (owner : ∀ p, a.owner? h = some p → p ∈ others) (self : h ∉ others → r = n.element.value I v) :
    ∃ w, a.Solves I w others ∧ (∀ x, x ≠ h → w x = v x) ∧ w h = r := by
  classical
  have elsewhere : ∀ x, x ≠ h → Function.update v h r x = v x := fun x other =>
    Function.update_of_ne other _ _
  refine ⟨Function.update v h r, fun x m held outside => ?_, elsewhere, Function.update_self _ _ _⟩
  have children : m.element.value I (Function.update v h r) = m.element.value I v := by
    refine Element.value_congr I fun c member => elsewhere c ?_
    rintro rfl
    exact outside (owner x (wf.records held c member))
  rw [children]
  by_cases same : x = h
  · subst same
    cases stored.symm.trans held
    rw [Function.update_self, self outside]
  · rw [elsewhere x same, solves x m held (apart x outside same)]

/-- A sign in front of an element gives it back the value that it had. -/
theorem restored (solves : a.Solves I v {h}) (wf : a.WellFormed) {m : Node}
    (stored : a.get? h = some m) (lost : m.element.value I v = -v h) (held : a.get? c = some n)
    (member : h ∈ n.element.children) : ∃ w, (a.signed c n.element h).Solves I w ∅ ∧
      ∀ x k, a.get? x = some k → x ≠ h → w x = v x := by
  have owned := wf.records held h member
  have different : c ≠ h := Ne.symm (wf.irrefl owned)
  obtain ⟨w, assigned, kept, changed⟩ := solves.assign {c} wf stored
    (fun _ _ other => other) (fun q found => Option.some.inj (found.symm.trans owned))
    fun _ => lost.symm
  obtain ⟨u, signed, agrees⟩ := assigned.signed ∅ wf held member
    (fun _ _ other => other) fun _ => by
      have back : Function.update w h (-w h) = v := by
        funext x
        by_cases same : x = h
        · subst same
          rw [Function.update_self, changed, neg_neg]
        · rw [Function.update_of_ne same, kept x same]
      rw [back, kept c different, solves c n held different]
  exact ⟨u, signed, fun x k found other => by rw [agrees x k found, kept x other]⟩

end Solves

/-- An arena after edits that left the value of the whole expression as it was. -/
structure SameValue (I : Interpretation R) (a b : Arena) : Prop extends a.Evolves b where
  value : b.value I b.root = a.value I a.root

namespace SameValue

theorem refl (wf : a.WellFormed) : SameValue I a a := ⟨.refl wf, rfl⟩

theorem trans {c : Arena} (first : SameValue I a b) (second : SameValue I b c) :
    SameValue I a c :=
  ⟨first.toEvolves.trans second.toEvolves, second.value.trans first.value⟩

/-- It is enough to solve the equations of the attached elements. -/
theorem of_solves {w : Handle → R} (evolves : a.Evolves b) (solves : b.Solves I w broken)
    (detached : ∀ x ∈ broken, x ≠ b.root ∧ b.owner? x = none)
    (value : w b.root = a.value I a.root) : SameValue I a b where
  toEvolves := evolves
  value := by
    obtain ⟨inner, stored⟩ := evolves.wf.wrapper
    rw [← value]
    refine (solves.eq_value I evolves.wf stored fun x inside => ?_).symm
    refine ⟨(detached x inside).1, fun above => ?_⟩
    obtain ⟨p, owned, _⟩ := isAbove_iff.mp above
    rw [(detached x inside).2] at owned
    cases owned

/-- Adding to a container keeps the value, if the container is worth what it was. -/
theorem adds_rewire (wf : a.WellFormed) {xs : List Handle} (adds : a.Adds ts xs b)
    (stored : a.get? c = some n) (fits : b.Rewirable c e)
    (worth : ∀ w : Handle → R, (∀ h n, a.get? h = some n → w h = a.value I h) →
      xs.map w = ts.map (Term.eval I) → e.value I w = n.element.value I w) :
    SameValue I a (b.rewire c e) := by
  obtain ⟨w, added, old, new⟩ := (wf.solves I).adds wf adds
  have held := adds.stored stored
  obtain ⟨inner, top⟩ := wf.wrapper
  have solves : (b.rewire c e).Solves I w ∅ :=
    added.rewire (fun _ _ _ => id) fun _ => by
      rw [added c n held (Set.notMem_empty c), worth w old new]
  refine .of_solves (adds.evolves.rewire held fits) solves nofun ?_
  rw [root_rewire, adds.root, old _ _ top]

end SameValue

end Arena

namespace Edit

open Arena

variable {a b : Arena} {c h x old new list r : Handle} {e : Element} {n m : Node} {u : Unit}
  {v : Handle → R} {broken : Set Handle} {xs : List Handle}

/-- A child is replaced by one of the same value. -/
theorem replace_solves (wf : a.WellFormed) (solves : a.Solves I v broken) (same : v new = v old)
    (run : (replace c old new).run a = .ok u b) : b.Solves I v broken := by
  obtain ⟨n, stored, member, ⟨_, rfl⟩ | ⟨_, fits, rfl⟩⟩ := (run_replace_eq_ok wf).mp run
  · exact solves
  · refine solves.rewire (fun _ outside _ => outside) fun outside => ?_
    rw [solves c n stored outside]
    exact (Element.value_replaceChild I (wf.distinct stored) (fun _ _ _ => rfl) same).symm

/-- What is added may replace an element of its value. -/
theorem replace_adds_sameValue (wf : a.WellFormed) (stored : a.get? h = some n) {t : Term} {d : Arena}
    (adds : a.Adds [t] [x] d) (worth : t.eval I = a.value I h)
    (run : (replace c h x).run d = .ok u b) : SameValue I a b := by
  obtain ⟨w, added, kept, new⟩ := (wf.solves I).adds wf adds
  have same : w x = w h := by rw [List.singleton_inj.mp new, worth, kept h n stored]
  have evolves := adds.evolves.trans (replace_evolves adds.wf run)
  obtain ⟨inner, top⟩ := wf.wrapper
  refine .of_solves evolves (replace_solves adds.wf added same run) nofun ?_
  rw [evolves.root, kept _ _ top]

/-- What is left of a list solves the equation of the list's owner if the list is worth it. -/
theorem normalized_solves (wf : a.WellFormed) {owner : Handle} {rest : List Handle}
    (stored : a.get? list = some n) (isList : n.element.kind.isList = true)
    (held : a.get? owner = some m) (member : list ∈ m.element.children)
    (solves : a.Solves I v {list}) (part : rest.Sublist n.element.children)
    (worth : v list = (n.element.modifyList fun _ => rest).value I v)
    (normalized : Normalized a list n.element owner m.element rest r b) :
    ∃ w others, b.Solves I w others ∧ (∀ h n, a.get? h = some n → w h = v h) ∧
      ∀ x ∈ others, x ≠ b.root ∧ b.owner? x = none := by
  have owned := wf.records held list member
  have different : owner ≠ list := Ne.symm (wf.irrefl owned)
  have notRoot : list ≠ a.root := wf.ne_root_of_owner? owned
  have emptied : (a.rewire list (n.element.modifyList fun _ => [])).Solves I v {list} :=
    solves.rewire (fun _ outside _ => outside) fun outside => absurd rfl outside
  -- the list gives its value to what replaces it, so that the owner's equation still holds
  have around : v owner = m.element.value I v := solves owner m held different
  have wf' := wf.rewire stored (rewirable_sublist wf stored isList (List.nil_sublist _))
  have held' := get?_rewire_of_stored (c := list) (e := n.element.modifyList fun _ => []) held
  have element := element_rewired_of_ne different (n.element.modifyList fun _ => []) m
  cases rest with
  | nil =>
    obtain ⟨value, identity, _, rfl⟩ := normalized
    have unwrapped := Term.unwrapped_integer value
    obtain ⟨w, planted, kept, new⟩ := emptied.plant wf' unwrapped
    rw [next_rewire] at new
    have agrees : ∀ h n, a.get? h = some n → w h = v h := fun h n stored =>
      kept h _ (get?_rewire_of_stored stored)
    rw [Element.value_empty I v identity] at worth
    have fits := attachable_plant wf' (t := .integer value) held'
    rw [next_rewire] at fits
    have inner := get?_plant_of_stored held' (.integer value)
    refine ⟨w, {list}, planted.rewire (fun _ outside _ => outside) fun outside => ?_, agrees, ?_⟩
    · rw [agrees owner m held, around]
      refine (Element.value_replaceChild I (wf.distinct held) (fun c member _ => ?_) ?_).symm
      · obtain ⟨k, stored'⟩ := wf.stored_of_mem_children held member
        exact agrees c k stored'
      · rw [new, Term.eval, worth]
    · rintro x rfl
      refine ⟨notRoot, ?_⟩
      have gone := owner?_replaced (wf'.plant unwrapped) inner (by rwa [element]) fits
      rwa [element] at gone
  | cons only rest => cases rest with
    | nil =>
      obtain ⟨_, rfl⟩ := normalized
      rw [Element.value_single I v isList] at worth
      have fits := attachable_emptied wf stored isList (part.subset List.mem_cons_self) held member
      refine ⟨v, {list}, emptied.rewire (fun _ outside _ => outside) fun outside => ?_,
        fun _ _ _ => rfl, ?_⟩
      · rw [around]
        exact (Element.value_replaceChild I (wf.distinct held) (fun _ _ _ => rfl) worth.symm).symm
      · rintro x rfl
        refine ⟨notRoot, ?_⟩
        have gone := owner?_replaced wf' held' (by rwa [element]) fits
        rwa [element] at gone
    | cons second rest =>
      obtain ⟨_, rfl⟩ := normalized
      exact ⟨v, ∅, solves.rewire (fun h _ other inside => other inside) fun _ => worth,
        fun _ _ _ => rfl, fun x inside => absurd inside (Set.notMem_empty x)⟩

/-- Removing children of a list keeps the value of the whole expression, if the list is worth what
is left in it. -/
theorem removeChildren_sameValue {a₀ : Arena} (evolves : a₀.Evolves a)
    (whole : v a.root = a₀.value I a₀.root) (stored : a.get? list = some n)
    (solves : a.Solves I v {list})
    (worth : v list = (n.element.modifyList fun hs => hs.filter (!xs.contains ·)).value I v)
    (run : (removeChildren list xs).run a = .ok r b) : SameValue I a₀ b := by
  have wf := evolves.wf
  obtain ⟨k, owner, m, stored', isList, owned, held, _, _, normalized⟩ :=
    (run_removeChildren_eq_ok wf).mp run
  cases stored.symm.trans stored'
  have member := (wf.mem_children_iff held).mpr owned
  rw [Element.modifyList_eq] at worth
  obtain ⟨w, others, solved, kept, detached⟩ := normalized_solves wf stored isList held member solves
    List.filter_sublist worth normalized
  have after := removeChildren_evolves wf run
  obtain ⟨inner, top⟩ := wf.wrapper
  refine .of_solves (evolves.trans after) solved detached ?_
  rw [after.root, kept _ _ top, whole]

/-- Terms of a sum may be exchanged for one term that is worth all of them. -/
theorem gather_sameValue (wf : a.WellFormed) {first s : Handle} {rest : List Handle} {t : Term}
    {b' d : Arena} (stored : a.get? c = some n) (sum : n.element.kind = .sum)
    (old : ∀ x ∈ rest, ∃ m, a.get? x = some m) (adds : a.Adds [t] [x] d)
    (worth : t.eval I = ((first :: rest).map (a.value I)).sum)
    (replaced : (replace c first x).run d = .ok u b)
    (removed : (removeChildren c rest).run b = .ok s b') : SameValue I a b' := by
  obtain ⟨terms, shape⟩ := Element.kind_eq_sum.mp sum
  have nodup : terms.Nodup := by
    have distinct := wf.distinct stored
    rwa [shape] at distinct
  obtain ⟨w, added, kept, new⟩ := (wf.solves I).adds wf adds
  have evolves := adds.evolves.trans (replace_evolves adds.wf replaced)
  have wf' := evolves.wf
  obtain ⟨_, held, listed, outcome⟩ := (run_replace_eq_ok adds.wf).mp replaced
  cases held.symm.trans (adds.stored stored)
  rw [shape] at listed outcome
  have listed : first ∈ terms := listed
  have fresh : ∀ y, (∃ m, a.get? y = some m) → y ≠ x := by
    rintro y ⟨_, held⟩ rfl
    cases held.symm.trans (adds.fresh (List.mem_singleton_self y))
  have member : ∀ x ∈ terms, ∃ m, a.get? x = some m := fun x inside =>
    wf.stored_of_mem_children stored (by rw [shape]; exact inside)
  obtain ⟨same, _⟩ | ⟨_, fits, rfl⟩ := outcome
  · exact absurd same (fresh first (member first listed))
  have stored' := get?_rewire_of_stored (c := c) (e := .sum (terms.replace first x)) held
  have solves : (d.rewire c (.sum (terms.replace first x))).Solves I w {c} :=
    added.rewire (fun _ _ _ => id) fun outside => absurd rfl outside
  obtain ⟨_, _, _, held', _, _, _, distinct, within, _⟩ := (run_removeChildren_eq_ok wf').mp removed
  cases held'.symm.trans stored'
  rw [element_rewired_self, Element.children] at within
  -- what is removed was a term before, since the new term is not among it
  have others : ∀ y ∈ rest, y ∈ terms.erase first := by
    intro y inside
    obtain same | ⟨before, other⟩ := (mem_replace_iff nodup listed).mp (within y inside)
    · exact absurd same (fresh y (old y inside))
    · exact nodup.mem_erase_iff.mpr ⟨other, before⟩
  have absent : x ∉ rest := fun inside => fresh x (old x inside) rfl
  obtain ⟨left, before, after⟩ := perm_replace_filter nodup listed distinct others absent
  have agree : ((first :: rest).map w).sum = ((first :: rest).map (a.value I)).sum := by
    refine congrArg List.sum (List.map_congr_left fun y inside => ?_)
    rcases List.mem_cons.mp inside with rfl | later
    · obtain ⟨m, held⟩ := member y listed
      exact kept y m held
    · obtain ⟨m, held⟩ := old y later
      exact kept y m held
  obtain ⟨inner, top⟩ := wf.wrapper
  refine removeChildren_sameValue evolves ?_ stored' solves ?_ removed
  · rw [evolves.root, kept _ _ top]
  · have outer := added c n held (Set.notMem_empty c)
    rw [shape, Element.value, (before.map w).sum_eq, List.map_cons, List.map_append] at outer
    rw [element_rewired_self, Element.modifyList, Element.value, (after.map w).sum_eq, outer,
      List.map_cons, List.sum_cons, List.sum_cons, List.sum_append, List.singleton_inj.mp new, worth,
      ← agree, List.map_cons, List.sum_cons, add_assoc]

end Edit

end AlgebraEditor
