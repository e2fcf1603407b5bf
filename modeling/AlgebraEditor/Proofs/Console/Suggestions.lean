import AlgebraEditor.Console.Command
import AlgebraEditor.Text.EditDistance
import Mathlib.Order.Bounds.Basic
import Mathlib.Order.MinMax

/-!
# Suggestions

For a line that asks for nothing known, a known command is suggested if one is within two edits of
the line's first word. It is the first of the closest (`unknown_suggests_closest`). How edits are
counted is left open; `editDistance` counts them as it should (`editDistance_isLeast`).
-/

namespace AlgebraEditor

namespace Text

/-! ### Counting edits -/

/-- One text is turned into another by a number of edits, from the front to the end. -/
inductive Edits : List Char → List Char → Nat → Prop where
  | nil : Edits [] [] 0
  | keep {a b : List Char} {n : Nat} (c : Char) : Edits a b n → Edits (c :: a) (c :: b) n
  | replace {a b : List Char} {n : Nat} (c d : Char) : Edits a b n → Edits (c :: a) (d :: b) (n + 1)
  | delete {a b : List Char} {n : Nat} (c : Char) : Edits a b n → Edits (c :: a) b (n + 1)
  | insert {a b : List Char} {n : Nat} (d : Char) : Edits a b n → Edits a (d :: b) (n + 1)

/-- Distances are the least numbers of edits. -/
def CountsEdits (distance : List Char → List Char → Nat) : Prop :=
  ∀ a b, IsLeast {n | Edits a b n} (distance a b)

variable {a b : List Char} {n : Nat} {c d : Char}

theorem tail_distanceRow (d : Char) (a b : List Char) :
    (distanceRow (d :: b) a).tail = distanceRow b a := by
  induction a with
  | nil => rfl
  | cons c a ih => rw [distanceRow, extendRow, List.tail_cons, ih, distanceRow]

theorem editDistance_nil_left (b : List Char) : editDistance [] b = b.length := by
  cases b <;> rfl

theorem editDistance_cons_nil (c : Char) (a : List Char) :
    editDistance (c :: a) [] = editDistance a [] + 1 := rfl

theorem editDistance_cons_cons (c d : Char) (a b : List Char) :
    editDistance (c :: a) (d :: b) =
      min (min (editDistance a (d :: b) + 1) (editDistance (c :: a) b + 1))
        (editDistance a b + if c = d then 0 else 1) := by
  rw [editDistance, distanceRow, extendRow, List.headD_cons, tail_distanceRow]
  rfl

theorem edits_editDistance (a b : List Char) : Edits a b (editDistance a b) := by
  induction a generalizing b with
  | nil =>
    rw [editDistance_nil_left]
    induction b with
    | nil => exact .nil
    | cons d b ih => exact .insert d ih
  | cons c a ih =>
    induction b with
    | nil =>
      rw [editDistance_cons_nil]
      exact .delete c (ih [])
    | cons d b shorter =>
      have deleted := Edits.delete c (ih (d :: b))
      have inserted := Edits.insert d shorter
      have matched : Edits (c :: a) (d :: b) (editDistance a b + if c = d then 0 else 1) := by
        split
        · subst_vars
          exact .keep _ (ih b)
        · exact .replace c d (ih b)
      rw [editDistance_cons_cons]
      exact min_rec' _ (min_rec' _ deleted inserted) matched

theorem editDistance_le (edits : Edits a b n) : editDistance a b ≤ n := by
  induction edits with
  | nil => exact Nat.le_refl 0
  | keep c _ ih =>
    rw [editDistance_cons_cons, if_pos rfl]
    omega
  | replace c d _ ih =>
    rw [editDistance_cons_cons]
    split <;> omega
  | @delete a b n c _ ih =>
    cases b with
    | nil => rw [editDistance_cons_nil]; omega
    | cons d b => rw [editDistance_cons_cons]; omega
  | @insert a b n d _ ih =>
    cases a with
    | nil => rw [editDistance_nil_left] at ih ⊢; exact Nat.succ_le_succ ih
    | cons c a => rw [editDistance_cons_cons]; omega

/-- The distance is the least number of edits. -/
theorem editDistance_isLeast : CountsEdits editDistance :=
  fun a b => ⟨edits_editDistance a b, fun _ edits => editDistance_le edits⟩

end Text

namespace Console

open Text (Edits CountsEdits)

/-! ### The first of the closest -/

/-- No earlier entry scores as low, and no later one lower. -/
def FirstMin (score : String → Nat) (knowns : List String) (known : String) : Prop :=
  ∃ before after, knowns = before ++ known :: after ∧ (∀ k ∈ before, score known < score k) ∧
    ∀ k ∈ after, score known ≤ score k

variable {score : String → Nat} {distance : List Char → List Char → Nat} {word line : List Char}
  {knowns rest : List String} {edits : Nat} {k known : String}

namespace FirstMin

theorem bound (first : FirstMin score knowns known) (member : k ∈ knowns) : score known ≤ score k := by
  obtain ⟨before, after, rfl, above, below⟩ := first
  rcases List.mem_append.mp member with earlier | member
  · exact (above k earlier).le
  · rcases List.mem_cons.mp member with rfl | later
    · exact Nat.le_refl _
    · exact below k later

theorem head (least : ∀ other ∈ rest, score k ≤ score other) : FirstMin score (k :: rest) k :=
  ⟨[], rest, rfl, by simp, least⟩

theorem cons_lt (first : FirstMin score rest known) (less : score known < score k) :
    FirstMin score (k :: rest) known := by
  obtain ⟨before, after, rfl, above, below⟩ := first
  exact ⟨k :: before, after, rfl, List.forall_mem_cons.mpr ⟨less, above⟩, below⟩

end FirstMin

theorem two_lt_of_closest?_eq_none (absent : closest? distance word knowns = none) :
    ∀ k ∈ knowns, 2 < distance k.toList word := by
  induction knowns with
  | nil => simp
  | cons k rest ih =>
    rw [closest?] at absent
    cases found : closest? distance word rest with
    | some found' =>
      simp only [found] at absent
      split at absent <;> cases absent
    | none =>
      simp only [found] at absent
      split at absent
      · cases absent
      · rename_i far
        simpa using ⟨Nat.lt_of_not_le far, ih found⟩

theorem firstMin_of_closest? (found : closest? distance word knowns = some (edits, known)) :
    edits ≤ 2 ∧ distance known.toList word = edits ∧
      FirstMin (distance ·.toList word) knowns known := by
  induction knowns generalizing edits known with
  | nil => cases found
  | cons k rest ih =>
    rw [closest?] at found
    cases later : closest? distance word rest with
    | none =>
      have far := two_lt_of_closest?_eq_none later
      simp only [later] at found
      split at found
      · rename_i near
        cases found
        exact ⟨near, rfl, .head fun other member => near.trans (far other member).le⟩
      · cases found
    | some pair =>
      obtain ⟨other, next⟩ := pair
      obtain ⟨near, rfl, first⟩ := ih later
      simp only [later] at found
      split at found
      · rename_i closer
        cases found
        exact ⟨closer.trans near, rfl, .head fun _ member => closer.trans (first.bound member)⟩
      · rename_i farther
        cases found
        exact ⟨near, rfl, first.cons_lt (Nat.lt_of_not_le farther)⟩

/-- A command is found if it is the first of the closest and within two edits. -/
theorem closest?_eq_some_iff : closest? distance word knowns = some (edits, known) ↔
    edits ≤ 2 ∧ distance known.toList word = edits ∧
      FirstMin (distance ·.toList word) knowns known := by
  refine ⟨firstMin_of_closest?, ?_⟩
  rintro ⟨near, rfl, before, after, rfl, above, below⟩
  induction before with
  | nil =>
    rw [List.nil_append, closest?]
    cases later : closest? distance word after with
    | none => exact if_pos near
    | some pair =>
      obtain ⟨-, same, _, _, rfl, -, -⟩ := firstMin_of_closest? later
      exact if_pos (same ▸ below pair.2 (by simp))
  | cons k before ih =>
    rw [List.cons_append, closest?, ih fun other member => above other (by simp [member])]
    exact if_neg (Nat.not_le.mpr (above k (by simp)))

/-- The suggestion for a line is the first of the known commands that take the fewest edits to
become the line's first word, if two edits are enough. -/
theorem unknown_suggests_closest (counts : CountsEdits distance)
    (asked : (Text.firstWord? line).getD line = word) :
    (unknown distance line).suggestion = some known ↔
      FirstMin (distance ·.toList word) knownCommands known ∧ ∃ n ≤ 2, Edits known.toList word n := by
  subst asked
  obtain ⟨made, least⟩ := counts known.toList ((Text.firstWord? line).getD line)
  constructor
  · intro suggested
    obtain ⟨⟨n, _⟩, found, rfl⟩ := Option.map_eq_some_iff.mp suggested
    obtain ⟨near, rfl, first⟩ := firstMin_of_closest? found
    exact ⟨first, _, near, made⟩
  · rintro ⟨first, n, near, turned⟩
    have within := (least turned).trans near
    exact Option.map_eq_some_iff.mpr ⟨_, closest?_eq_some_iff.mpr ⟨within, rfl, first⟩, rfl⟩

end Console

end AlgebraEditor
