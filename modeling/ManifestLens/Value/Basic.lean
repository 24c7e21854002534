import ManifestLens.Decimal.Shortest
import ManifestLens.Value.Calendar

/-!
# Values

The data that manifests, prepared resources and answers of a cluster hold.  A mapping keeps its entries in the order
in which their keys first came, and its keys may be any values but collections.
-/

namespace ManifestLens

/-- A value of a manifest. -/
inductive Value where
  | null
  | bool (b : Bool)
  | int (n : Int)
  | float (x : Float)
  | str (s : String)
  | bytes (data : List UInt8)
  | date (d : Date)
  | moment (m : Moment)
  | pair (first second : Value)
  | list (items : List Value)
  | set (members : List Value)
  | map (entries : List (Value × Value))
  deriving Inhabited

namespace Value

/-- The number that a value stands for in comparisons, where it is exact: booleans count as zero and one. -/
def exactInt? : Value → Option Int
  | .bool b => some (if b then 1 else 0)
  | .int n => some n
  | .float x =>
    match Decimal.Double.ofBits x.toBits with
    | .zero _ => some 0
    | .finite negative b =>
      let (num, den) := Decimal.power 2 b.exponent
      if (b.significand * num) % den == 0 then
        let n : Int := (b.significand * num / den : Nat)
        some (if negative then -n else n)
      else none
    | _ => none
  | _ => none

mutual

/-- Equality of values: numbers are compared by what they stand for, whatever their type, and mappings whatever the
order of their entries. -/
def equals : Value → Value → Bool
  | .null, .null => true
  | .str s, .str t => s == t
  | .bytes s, .bytes t => s == t
  | .date d, .date e => d == e
  | .moment m, .moment n => m == n
  | .float x, .float y => x == y
  | .pair a b, .pair c d => equals a c && equals b d
  | .list xs, .list ys => equalLists xs ys
  | .set xs, .set ys => xs.length == ys.length && includes xs ys
  | .map xs, .map ys => xs.length == ys.length && includesEntries xs ys
  | x, y =>
    match x.exactInt?, y.exactInt? with
    | some m, some n => m == n
    | _, _ => false

def equalLists : List Value → List Value → Bool
  | [], [] => true
  | x :: xs, y :: ys => equals x y && equalLists xs ys
  | _, _ => false

def includes : List Value → List Value → Bool
  | [], _ => true
  | x :: xs, ys => ys.any (fun y => equals x y) && includes xs ys

def includesEntries : List (Value × Value) → List (Value × Value) → Bool
  | [], _ => true
  | (k, v) :: rest, ys => ys.any (fun e => equals k e.1 && equals v e.2) && includesEntries rest ys

end

/-- Everything but nothing, zero, and what is empty. -/
def truthy : Value → Bool
  | .null => false
  | .bool b => b
  | .int n => n != 0
  | .float x => !(x == 0.0)
  | .str s => !s.isEmpty
  | .bytes data => !data.isEmpty
  | .date _ => true
  | .moment _ => true
  | .pair _ _ => true
  | .list items => !items.isEmpty
  | .set members => !members.isEmpty
  | .map entries => !entries.isEmpty

/-- A value that may be a key of a mapping: collections may not. -/
def isKey : Value → Bool
  | .list _ => false
  | .set _ => false
  | .map _ => false
  | .pair a b => a.isKey && b.isKey
  | _ => true

/-- The type of a value, as messages name it. -/
def typeName : Value → String
  | .null => "NoneType"
  | .bool _ => "bool"
  | .int _ => "int"
  | .float _ => "float"
  | .str _ => "str"
  | .bytes _ => "bytes"
  | .date _ => "datetime.date"
  | .moment _ => "datetime.datetime"
  | .pair _ _ => "tuple"
  | .list _ => "list"
  | .set _ => "set"
  | .map _ => "dict"

end Value

/-! ### Entries of a mapping -/

/-- The entries of a mapping, in order. -/
abbrev Entries := List (Value × Value)

namespace Entries

/-- The value of the entry with the given key. -/
def find? (entries : Entries) (key : Value) : Option Value :=
  (List.find? (fun e : Value × Value => e.1.equals key) entries).map (·.2)

/-- The value of the entry with the given name. -/
def get? (entries : Entries) (name : String) : Option Value :=
  entries.find? (.str name)

/-- Some entry has the given key. -/
def has (entries : Entries) (key : Value) : Bool :=
  entries.any fun e => e.1.equals key

/-- Sets the value of a key: in place if the mapping has the key, at the end otherwise. -/
def insert : Entries → Value → Value → Entries
  | [], key, value => [(key, value)]
  | (k, v) :: rest, key, value => if k.equals key then (k, value) :: rest else (k, v) :: insert rest key value

/-- Removes the entry with the given key. -/
def erase (entries : Entries) (key : Value) : Entries :=
  entries.filter fun e => !e.1.equals key

/-- Reads entries one after the other, a later one replacing the value of an earlier one with its key. -/
def ofList (entries : List (Value × Value)) : Entries :=
  entries.foldl (fun acc e => acc.insert e.1 e.2) []

end Entries

end ManifestLens
