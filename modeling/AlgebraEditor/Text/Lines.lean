/-!
# Lines

Encoded text is read line by line. A line ends at a line feed, and a carriage return just before the
line feed belongs to the line's end. The last line need not be ended.
-/

namespace AlgebraEditor.Text

/-- Cuts bytes after every line feed. The line feeds are dropped. -/
def byteLines : List UInt8 → List (List UInt8)
  | [] => []
  | b :: bs =>
    if b = 10 then [] :: byteLines bs
    else match byteLines bs with
      | [] => [[b]]
      | line :: rest => (b :: line) :: rest

/-- The text that the bytes encode, if they are valid UTF-8. -/
def decode? (bytes : List UInt8) : Option (List Char) :=
  (String.fromUTF8? ⟨bytes.toArray⟩).map String.toList

/-- The lines of encoded text, each of which may fail to be valid UTF-8. -/
def decodedLines (bytes : List UInt8) : List (Option (List Char)) :=
  (byteLines bytes).map fun line => (decode? line).map fun text =>
    if text.getLast? = some '\r' then text.dropLast else text

end AlgebraEditor.Text
