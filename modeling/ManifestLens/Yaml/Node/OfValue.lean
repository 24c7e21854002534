import ManifestLens.Decimal.Layout
import ManifestLens.Value.Order
import ManifestLens.Yaml.Node

/-!
# Nodes of values

The node by which a value is written.  Keys that can be compared with each other come in order.
-/

namespace ManifestLens.Yaml

/-! ### Order of keys -/

/-- All keys can be compared with the first one. -/
def comparable : List (Value × Value) → Bool
  | [] => true
  | [_] => true
  | (k, _) :: rest => rest.all fun e => (k.order? e.1).isSome

/-- The entries by the order of their keys, or as they are if these cannot be compared. -/
def orderedEntries (entries : List (Value × Value)) : List (Value × Value) :=
  if comparable entries then entries.mergeSort fun a b => ((a.1.order? b.1).map (·.isLE)).getD true else entries

/-! ### Bytes -/

/-- A character for six bits. -/
def sixBitsChar (n : Nat) : Char :=
  if n < 26 then Char.ofNat (65 + n)
  else if n < 52 then Char.ofNat (71 + n)
  else if n < 62 then Char.ofNat (n - 4)
  else if n == 62 then '+'
  else '/'

/-- Bytes by characters for six bits each, filled up with end marks to fours. -/
def bytesText : List Nat → List Char
  | a :: b :: c :: rest =>
    [a / 4, a % 4 * 16 + b / 16, b % 16 * 4 + c / 64, c % 64].map sixBitsChar ++ bytesText rest
  | [a, b] => [a / 4, a % 4 * 16 + b / 16, b % 16 * 4].map sixBitsChar ++ ['=']
  | [a] => [a / 4, a % 4 * 16].map sixBitsChar ++ ['=', '=']
  | [] => []

/-- Lines of 76 characters, each with its line break. -/
def cutLines : (fuel : Nat) → List Char → List Char
  | 0, _ => []
  | _, [] => []
  | fuel + 1, text => text.take 76 ++ ['\n'] ++ cutLines fuel (text.drop 76)

def binaryText (data : List UInt8) : String :=
  let text := bytesText (data.map (·.toNat))
  String.ofList (cutLines text.length text)

/-! ### Nodes -/

/-- A scalar that is to be written. -/
def writtenScalar (tag text : String) : Node :=
  .scalar (Tag.standard tag) text default default

mutual

/-- The node of a value. -/
def Node.ofValue : Value → Node
  | .null => writtenScalar "null" "null"
  | .bool b => writtenScalar "bool" (if b then "true" else "false")
  | .int n => writtenScalar "int" (toString n)
  | .float x => writtenScalar "float" (Decimal.Layout.yaml.write x)
  | .str s => writtenScalar "str" s
  | .bytes data => writtenScalar "binary" (binaryText data)
  | .date d => writtenScalar "timestamp" d.text
  | .moment m => writtenScalar "timestamp" m.text
  | .pair a b => .sequence Tag.seq [Node.ofValue a, Node.ofValue b] default default
  | .list items => .sequence Tag.seq (nodesOf items) default default
  | .set members => .mapping (Tag.standard "set") (memberNodes members) default default
  | .map entries => .mapping Tag.map (entryNodes entries) default default

def nodesOf : List Value → List Node
  | [] => []
  | v :: rest => Node.ofValue v :: nodesOf rest

def memberNodes : List Value → List (Node × Node)
  | [] => []
  | v :: rest => (Node.ofValue v, writtenScalar "null" "null") :: memberNodes rest

def entryNodes : List (Value × Value) → List (Node × Node)
  | [] => []
  | (k, v) :: rest => (Node.ofValue k, Node.ofValue v) :: entryNodes rest

end

mutual

/-- A value whose entries come in the order of their keys, at every level. -/
def ordered : Value → Value
  | .list items => .list (orderedList items)
  | .pair a b => .pair (ordered a) (ordered b)
  | .set members => .set ((orderedEntries (members.map fun m => (m, .null))).map (·.1))
  | .map entries => .map (orderedEntries (orderedMembers entries))
  | v => v

def orderedList : List Value → List Value
  | [] => []
  | v :: rest => ordered v :: orderedList rest

def orderedMembers : List (Value × Value) → List (Value × Value)
  | [] => []
  | (k, v) :: rest => (k, ordered v) :: orderedMembers rest

end

end ManifestLens.Yaml
