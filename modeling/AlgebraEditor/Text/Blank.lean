/-!
# Blank characters

`isBlank` is the Unicode property White_Space. Trimming, splitting and taking words all cut at
exactly these characters.
-/

namespace AlgebraEditor.Text

/-- The characters with the Unicode property White_Space. -/
def isBlank (c : Char) : Bool :=
  let n := c.toNat
  (0x09 ≤ n && n ≤ 0x0D) || n == 0x20 || n == 0x85 || n == 0xA0 || n == 0x1680 ||
    (0x2000 ≤ n && n ≤ 0x200A) || n == 0x2028 || n == 0x2029 || n == 0x202F || n == 0x205F ||
    n == 0x3000

/-- Drops the blanks at the start. -/
def trimStart (cs : List Char) : List Char := cs.dropWhile isBlank

/-- Drops the blanks at the end. -/
def trimEnd (cs : List Char) : List Char := (cs.reverse.dropWhile isBlank).reverse

/-- Drops the blanks at both ends. -/
def trim (cs : List Char) : List Char := trimEnd (trimStart cs)

/-- The text before the first blank and the text after it, if there is a blank. -/
def splitAtBlank : List Char → Option (List Char × List Char)
  | [] => none
  | c :: cs =>
    if isBlank c then some ([], cs)
    else (splitAtBlank cs).map fun (before, after) => (c :: before, after)

/-- The first maximal run of characters that are not blank. -/
def firstWord? (cs : List Char) : Option (List Char) :=
  match (trimStart cs).takeWhile (!isBlank ·) with
  | [] => none
  | word => some word

end AlgebraEditor.Text
