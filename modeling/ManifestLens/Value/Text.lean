import ManifestLens.Decimal.Layout
import ManifestLens.Text.Quoted
import ManifestLens.Value.Basic

/-!
# Values in messages

The text by which a message shows a value: a text stands for itself, and inside a collection it is quoted.
-/

namespace ManifestLens.Value

mutual

/-- A value as it stands inside a collection. -/
def inner : Value → String
  | .null => "None"
  | .bool b => if b then "True" else "False"
  | .int n => toString n
  | .float x => Decimal.Layout.plain.write x
  | .str s => Text.quoted s
  | .bytes data => Text.quotedBytes data
  | .date d => d.inner
  | .moment m => m.inner
  | .pair a b => "(" ++ a.inner ++ ", " ++ b.inner ++ ")"
  | .list items => "[" ++ ", ".intercalate (innerList items) ++ "]"
  | .set members => if members.isEmpty then "set()" else "\x7b" ++ ", ".intercalate (innerList members) ++ "\x7d"
  | .map entries => "\x7b" ++ ", ".intercalate (innerEntries entries) ++ "\x7d"

def innerList : List Value → List String
  | [] => []
  | x :: xs => x.inner :: innerList xs

def innerEntries : List (Value × Value) → List String
  | [] => []
  | (k, v) :: rest => (k.inner ++ ": " ++ v.inner) :: innerEntries rest

end

/-- The text of a value. -/
def text : Value → String
  | .str s => s
  | .date d => d.text
  | .moment m => m.text
  | v => v.inner

/-- The type of a value inside a message. -/
def typeText (v : Value) : String :=
  "<class '" ++ v.typeName ++ "'>"

end ManifestLens.Value
