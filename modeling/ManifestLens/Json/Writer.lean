import ManifestLens.Decimal.Layout
import ManifestLens.Text.Quoted
import ManifestLens.Value.Text

/-!
# Writing JSON

Output is ASCII: every other character is written by its UTF-16 units.  Members keep the order of the mapping.
-/

namespace ManifestLens.Json

/-- A UTF-16 unit as an escape. -/
def unitEscape (unit : Nat) : List Char :=
  ['\\', 'u'] ++ Text.hexDigits 4 unit

/-- A character inside a string. -/
def stringChar (c : Char) : List Char :=
  if c == '"' then ['\\', '"']
  else if c == '\\' then ['\\', '\\']
  else if c == '\n' then ['\\', 'n']
  else if c == '\r' then ['\\', 'r']
  else if c == '\t' then ['\\', 't']
  else if c == '\x0c' then ['\\', 'f']
  else if c == '\x08' then ['\\', 'b']
  else if 0x20 ≤ c.toNat && c.toNat < 0x7F then [c]
  else if c.toNat < 0x10000 then unitEscape c.toNat
  else
    let n := c.toNat - 0x10000
    unitEscape (0xD800 + n / 0x400) ++ unitEscape (0xDC00 + n % 0x400)

/-- A string between double quotes. -/
def string (s : String) : String :=
  String.ofList ('"' :: s.toList.flatMap stringChar ++ ['"'])

/-- What stands between the parts of a collection at a given depth. -/
structure Style where
  /-- After an opening bracket, at a depth. -/
  first : Nat → String
  /-- After a comma. -/
  between : Nat → String
  /-- Before a closing bracket. -/
  close : Nat → String
  colon : String

/-- All on one line. -/
def Style.compact : Style :=
  ⟨fun _ => "", fun _ => " ", fun _ => "", ": "⟩

/-- Each part on a line of its own, two blanks further in than its collection. -/
def Style.indented : Style :=
  let newline (depth : Nat) : String := "\n" ++ String.ofList (List.replicate (2 * depth) ' ')
  ⟨fun depth => newline (depth + 1), fun depth => newline (depth + 1), newline, ": "⟩

/-- The parts of a collection between brackets. -/
def Style.enclose (style : Style) (depth : Nat) (left right : String) (parts : List String) : String :=
  if parts.isEmpty then left ++ right
  else left ++ style.first depth ++ ("," ++ style.between depth).intercalate parts ++ style.close depth ++ right

/-- The name of a member. -/
def memberName : Value → String
  | .str s => s
  | .null => "null"
  | .bool b => if b then "true" else "false"
  | .float x => Decimal.Layout.json.write x
  | v => v.text

mutual

/-- A value at a given depth.  What JSON cannot hold is written as its text. -/
def write (style : Style) (depth : Nat) : Value → String
  | .null => "null"
  | .bool b => if b then "true" else "false"
  | .int n => toString n
  | .float x => Decimal.Layout.json.write x
  | .str s => string s
  | .bytes data => string (Value.bytes data).text
  | .date d => string d.text
  | .moment m => string m.text
  | .pair a b => style.enclose depth "[" "]" [write style (depth + 1) a, write style (depth + 1) b]
  | .list items => style.enclose depth "[" "]" (writeItems style (depth + 1) items)
  | .set members => style.enclose depth "[" "]" (writeItems style (depth + 1) members)
  | .map entries => style.enclose depth "\x7b" "\x7d" (writeMembers style (depth + 1) entries)

def writeItems (style : Style) (depth : Nat) : List Value → List String
  | [] => []
  | x :: xs => write style depth x :: writeItems style depth xs

def writeMembers (style : Style) (depth : Nat) : List (Value × Value) → List String
  | [] => []
  | (k, v) :: rest => (string (memberName k) ++ style.colon ++ write style depth v) :: writeMembers style depth rest

end

/-- A value on one line. -/
def compact (v : Value) : String :=
  write .compact 0 v

/-- A value over several lines. -/
def indented (v : Value) : String :=
  write .indented 0 v

end ManifestLens.Json
