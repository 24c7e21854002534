/-!
# Blank characters

The whitespace of every script, and the cuts that remove it from the ends of a text.
-/

namespace ManifestLens.Text

/-- A whitespace character: tabs and line breaks, the information separators, and the spaces of every script. -/
def isBlank (c : Char) : Bool :=
  let n := c.toNat
  (0x09 ≤ n && n ≤ 0x0D) || (0x1C ≤ n && n ≤ 0x20) || n == 0x85 || n == 0xA0 || n == 0x1680 ||
    (0x2000 ≤ n && n ≤ 0x200A) || n == 0x2028 || n == 0x2029 || n == 0x202F || n == 0x205F || n == 0x3000

/-- The text without the whitespace it starts with. -/
def dropBlank (text : List Char) : List Char :=
  text.dropWhile isBlank

/-- The text without the whitespace at either end. -/
def trimBlank (text : List Char) : List Char :=
  (dropBlank (dropBlank text).reverse).reverse

/-- The text is empty or all whitespace. -/
def allBlank (text : List Char) : Bool :=
  text.all isBlank

end ManifestLens.Text
