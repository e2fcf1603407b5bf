import AlgebraEditor.Action
import AlgebraEditor.Law.Distributive
import AlgebraEditor.Law.Inverse
import AlgebraEditor.Law.Rearrangement

/-!
# Catalogs

A catalog is a list of actions with distinct keys, in which actions are found by key.
-/

namespace AlgebraEditor

/-- Actions with distinct keys. -/
structure Catalog where
  actions : List Action
  keys_nodup : (actions.map Action.key).Nodup

/-- Two actions that are bound to the same key. -/
structure KeyClash where
  earlier : Action
  later : Action

/-- What is said about a clash. -/
def KeyClash.message (c : KeyClash) : String :=
  "`" ++ c.earlier.name ++ "` and `" ++ c.later.name ++ "` are both bound to `" ++ c.later.key ++ "`"

namespace Catalog

/-- The first action that is bound to the key of an earlier one, together with the first such
earlier one. -/
def clash? (earlier : List Action) : List Action → Option KeyClash
  | [] => none
  | action :: rest =>
    match earlier.find? (·.key = action.key) with
    | some other => some ⟨other, action⟩
    | none => clash? (earlier ++ [action]) rest

theorem nodup_of_clash?_eq_none {earlier actions : List Action}
    (nodup : (earlier.map Action.key).Nodup) (h : clash? earlier actions = none) :
    ((earlier ++ actions).map Action.key).Nodup := by
  induction actions generalizing earlier with
  | nil => simpa using nodup
  | cons action rest ih =>
    unfold clash? at h
    split at h
    · cases h
    · next fresh =>
      have extended : ((earlier ++ [action]).map Action.key).Nodup := by
        rw [List.map_append, List.nodup_append]
        refine ⟨nodup, by simp, ?_⟩
        intro key old other new same
        obtain ⟨a, member, rfl⟩ := List.mem_map.mp old
        have := List.find?_eq_none.mp fresh a member
        simp_all
      simpa using ih extended h

/-- A catalog of the given actions, unless two are bound to the same key. -/
def ofActions (actions : List Action) : Except KeyClash Catalog :=
  match h : clash? [] actions with
  | some clash => .error clash
  | none => .ok ⟨actions, by simpa using nodup_of_clash?_eq_none (by simp) h⟩

/-- The action bound to a key. -/
def find? (c : Catalog) (key : String) : Option Action := c.actions.find? (·.key = key)

/-- The built-in actions. -/
def builtIn : Catalog where
  actions := [
    ⟨"Expand", "E", .each Law.expand⟩,
    ⟨"Unnest", "U", .each Law.unnest⟩,
    ⟨"Bring minus to front", "B", .each Law.minusToFront⟩,
    ⟨"Undo bringing minus to front", "Shift+B", .each Law.minusInside⟩,
    ⟨"Swap", "S", .exactly 2 Law.swap⟩,
    ⟨"Cancel", "C", .exactly 2 Law.cancel⟩,
    ⟨"Factor", "F", .groups Law.factor⟩,
    ⟨"Factor all terms", "Shift+F", .each Law.factorAllTerms⟩]
  keys_nodup := by
    rw [List.map_cons]
    simp only [List.map_cons, List.map_nil]
    decide

theorem find?_of_mem {c : Catalog} {action : Action} (h : action ∈ c.actions) :
    c.find? action.key = some action := by
  have unique := c.keys_nodup
  unfold find?
  generalize c.actions = actions at h unique
  induction actions with
  | nil => cases h
  | cons first rest ih =>
    rw [List.map_cons, List.nodup_cons] at unique
    rw [List.find?_cons]
    by_cases same : first.key = action.key
    · have : action = first := by
        cases List.mem_cons.mp h with
        | inl same => exact same
        | inr later => exact absurd (List.mem_map.mpr ⟨action, later, same.symm⟩) unique.1
      simp [same, this]
    · have later : action ∈ rest := by
        cases List.mem_cons.mp h with
        | inl same' => exact absurd (congrArg Action.key same').symm same
        | inr later => exact later
      simpa [same] using ih later unique.2

end Catalog

end AlgebraEditor
