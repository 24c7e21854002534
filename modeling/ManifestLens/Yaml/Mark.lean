/-!
# Marks and cursors

A mark is a place in a YAML text: its index, and its line and column from zero.  A cursor is a mark with the text that
is still to read.  Reading past the end gives the null character, which no text holds.
-/

namespace ManifestLens.Yaml

/-- A place in a text. -/
structure Mark where
  index : Nat
  line : Nat
  column : Nat
  deriving DecidableEq, Inhabited

/-- A place in a text, with the text from there on. -/
structure Cursor where
  mark : Mark
  rest : List Char
  deriving DecidableEq, Inhabited

/-! ### Classes of characters -/

/-- A character that ends a line. -/
def isBreak (c : Char) : Bool :=
  c == '\r' || c == '\n' || c == '\x85' || c == '\u2028' || c == '\u2029'

/-- The end of a line or of the text. -/
def isLineStop (c : Char) : Bool :=
  c == '\x00' || isBreak c

/-- A blank, or the end of a line or of the text. -/
def isSpaceStop (c : Char) : Bool :=
  c == ' ' || isLineStop c

/-- A blank or tab, or the end of a line or of the text. -/
def isGap (c : Char) : Bool :=
  c == '\t' || isSpaceStop c

/-- A blank or a tab. -/
def isIndent (c : Char) : Bool :=
  c == ' ' || c == '\t'

/-- A character of a name: ASCII letters and digits, the hyphen and the underscore. -/
def isName (c : Char) : Bool :=
  c.isAlphanum || c == '-' || c == '_'

/-- A hexadecimal digit. -/
def isHex (c : Char) : Bool :=
  c.isDigit || ('a' ≤ c && c ≤ 'f') || ('A' ≤ c && c ≤ 'F')

/-! ### Moving -/

/-- The mark after a character, given the character that follows it.  A byte order mark takes no column. -/
def Mark.after (m : Mark) (c next : Char) : Mark :=
  if c == '\n' || c == '\x85' || c == '\u2028' || c == '\u2029' || (c == '\r' && next != '\n') then
    ⟨m.index + 1, m.line + 1, 0⟩
  else if c == '\ufeff' then ⟨m.index + 1, m.line, m.column⟩
  else ⟨m.index + 1, m.line, m.column + 1⟩

namespace Cursor

/-- The start of a text. -/
def start (text : List Char) : Cursor := ⟨⟨0, 0, 0⟩, text⟩

def column (c : Cursor) : Nat := c.mark.column

/-- The character `k` places ahead. -/
def peek (c : Cursor) (k : Nat) : Char :=
  (c.rest[k]?).getD '\x00'

/-- The next character. -/
def head (c : Cursor) : Char :=
  c.rest.head?.getD '\x00'

/-- One character further on. -/
def next (c : Cursor) : Cursor :=
  match c.rest with
  | [] => c
  | a :: rest => ⟨c.mark.after a (rest.head?.getD '\x00'), rest⟩

/-- Several characters further on. -/
def advance (c : Cursor) : Nat → Cursor
  | 0 => c
  | n + 1 => c.next.advance n

/-- The longest run of characters of a class, and the cursor after it. -/
def span (c : Cursor) (p : Char → Bool) : List Char × Cursor :=
  let run := c.rest.takeWhile p
  (run, c.advance run.length)

/-- Past the characters of a class. -/
def skip (c : Cursor) (p : Char → Bool) : Cursor :=
  (c.span p).2

/-- The text ahead starts with the given characters. -/
def startsWith (c : Cursor) (text : List Char) : Bool :=
  text.isPrefixOf c.rest

/-- The line break ahead, as it counts in a scalar: nothing if there is none, and a line feed for all but the Unicode
separators. -/
def lineBreak (c : Cursor) : List Char × Cursor :=
  let h := c.head
  if h == '\r' || h == '\n' || h == '\x85' then
    (['\n'], if c.startsWith ['\r', '\n'] then c.advance 2 else c.next)
  else if h == '\u2028' || h == '\u2029' then ([h], c.next)
  else ([], c)

/-- A mark between documents stands ahead. -/
def atSeparator (c : Cursor) : Bool :=
  (c.startsWith ['-', '-', '-'] || c.startsWith ['.', '.', '.']) && isGap (c.peek 3)

end Cursor

end ManifestLens.Yaml
