import ManifestLens.Fault
import ManifestLens.Value.Basic

/-!
# Fields of values

Reading fields of values that should be mappings, and items of values that should be lists.
-/

namespace ManifestLens.Value

/-- The value of a name in a mapping; other values have no names. -/
def lookup? (v : Value) (name : String) : Except Fault (Option Value) :=
  match v with
  | .map entries => .ok (Entries.get? entries name)
  | _ => .error .noField

/-- The value of a name in a mapping, or null. -/
def lookup (v : Value) (name : String) : Except Fault Value :=
  (v.lookup? name).map (·.getD .null)

/-- The mapping under a name; where there is none it is empty. -/
def lookupEntries (v : Value) (name : String) : Except Fault Entries := do
  match ← v.lookup? name with
  | none => return []
  | some (.map entries) => return entries
  | some _ => .error .noField

/-- The values that a value holds, one after the other. -/
def members? : Value → Option (List Value)
  | .list items => some items
  | .set items => some items
  | .map entries => some (entries.map (·.1))
  | .pair a b => some [a, b]
  | .str s => some (s.toList.map fun c => .str (String.ofList [c]))
  | .bytes data => some (data.map fun b => .int b.toNat)
  | _ => none

/-! ### Lenient reading -/

/-- The value of a name, where there is one and it is not null. -/
def field? (v : Value) (name : String) : Option Value :=
  match v.lookup? name with
  | .ok (some .null) => none
  | .ok found => found
  | .error _ => none

/-- The value of a name, or null. -/
def field (v : Value) (name : String) : Value :=
  (v.field? name).getD .null

/-- A mapping has the name. -/
def hasField (v : Value) (name : String) : Bool :=
  match v.lookup? name with
  | .ok (some _) => true
  | _ => false

/-- The items of a list; other values have none. -/
def items : Value → List Value
  | .list xs => xs
  | _ => []

/-- The entries of a mapping; other values have none. -/
def entries : Value → Entries
  | .map es => es
  | _ => []

/-- The text that a value is. -/
def str? : Value → Option String
  | .str s => some s
  | _ => none

end ManifestLens.Value
