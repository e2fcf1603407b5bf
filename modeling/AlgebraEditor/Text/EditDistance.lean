/-!
# Edit distance

`editDistance a b` is the least number of inserted, deleted and replaced characters that turn `a`
into `b`. It is computed row by row: the row of a text `a` holds the distances from `a` to every
ending of `b`.
-/

namespace AlgebraEditor.Text

/-- The row after a character `c` is put in front of the first text. -/
def extendRow (c : Char) : List Char → List Nat → List Nat
  | [], row => [row.headD 0 + 1]
  | b :: bs, row =>
    let later := extendRow c bs row.tail
    min (min (row.headD 0 + 1) (later.headD 0 + 1)) (row.tail.headD 0 + if c = b then 0 else 1) ::
      later

/-- The lengths of all endings of a text, the longest first. -/
def lengthRow : List Char → List Nat
  | [] => [0]
  | _ :: bs => (bs.length + 1) :: lengthRow bs

/-- The distances from a text to every ending of another, the longest ending first. -/
def distanceRow (b : List Char) : List Char → List Nat
  | [] => lengthRow b
  | c :: cs => extendRow c b (distanceRow b cs)

/-- The least number of single-character edits between two texts. -/
def editDistance (a b : List Char) : Nat := (distanceRow b a).headD 0

end AlgebraEditor.Text
