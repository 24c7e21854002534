/-!
# Lines of a text

A text is cut after each line break, and every line keeps its break.  No empty line follows a final break, so the
lines always join back to the text.
-/

namespace ManifestLens.Text

/-- A character that ends a line.  A carriage return followed by a line feed is one break. -/
def isLineEnd (c : Char) : Bool :=
  let n := c.toNat
  (0x0A ≤ n && n ≤ 0x0D) || (0x1C ≤ n && n ≤ 0x1E) || n == 0x85 || n == 0x2028 || n == 0x2029

/-- The lines of a text, each with its break, after the `pending` start of the current line in reverse. -/
def linesFrom (pending : List Char) : List Char → List (List Char)
  | [] => if pending.isEmpty then [] else [pending.reverse]
  | '\r' :: '\n' :: rest => ('\n' :: '\r' :: pending).reverse :: linesFrom [] rest
  | c :: rest => if isLineEnd c then (c :: pending).reverse :: linesFrom [] rest else linesFrom (c :: pending) rest

/-- The lines of a text, each with its line break. -/
def keptLines (text : List Char) : List (List Char) :=
  linesFrom [] text

/-- The line without the break it ends with. -/
def dropBreak (line : List Char) : List Char :=
  (line.reverse.dropWhile isLineEnd).reverse

/-- The lines of a text with (`keepBreaks`) or without their line breaks. -/
def lines (text : String) (keepBreaks : Bool) : List String :=
  (keptLines text.toList).map fun line => String.ofList (if keepBreaks then line else dropBreak line)

end ManifestLens.Text
