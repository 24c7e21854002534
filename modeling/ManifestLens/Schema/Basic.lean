import ManifestLens.Fault
import ManifestLens.Outline.Kind
import ManifestLens.Yaml.Node

/-!
# Schemas

A schema says how the parts of a manifest are highlighted and by which keys they are found.  It is a store of entries
that refer to each other by slot, so that several places may share an entry.  An entry whose kind is not known gets one
from the first node that is read with it, and keeps it from then on.
-/

namespace ManifestLens

/-- The place of an entry in its schema. -/
abbrev Slot := Nat

/-- How a key is made of what a node holds. -/
inductive KeyRule where
  /-- Always the same key. -/
  | constant (key : String)
  /-- What the node holds, between two texts. -/
  | around (before after : String)
  /-- A text in front of the node's own text. -/
  | led (start : String)
  /-- The node's text between two texts, unless it is an expression. -/
  | unlessExpression (before after : String)
  /-- The labels of a step. -/
  | step
  deriving DecidableEq, Inhabited

/-- What an entry says about the parts of a node: nothing, one entry for each name, or one entry for all. -/
inductive Shape where
  | anything
  | fields (members : List (String × Slot))
  | each (slot : Slot)
  deriving DecidableEq, Inhabited

/-- What a schema says about a node. -/
structure Entry where
  kind : TokenKind := .unset
  modifiers : Option (List Modifier) := none
  localKey : Option KeyRule := none
  indexKey : Option KeyRule := none
  /-- The value of the field `name` is found by the kind and name that the node refers to. -/
  refers : Bool := false
  shape : Shape := .anything
  /-- Names that the shape does not list are faults. -/
  strict : Bool := false
  deriving DecidableEq, Inhabited

/-- A store of entries. -/
abbrev Schema := Array Entry

namespace Schema

/-- The entry in a slot. -/
def entry (schema : Schema) (slot : Slot) : Entry :=
  (schema[slot]?).getD {}

/-- Gives a slot to a new entry. -/
def allocate (schema : Schema) (entry : Entry) : Slot × Schema :=
  (schema.size, schema.push entry)

/-- Gives a kind to an entry, in place of the one that it has. -/
def assign (schema : Schema) (slot : Slot) (kind : TokenKind) : Schema :=
  schema.modify slot fun e => { e with kind := kind }

/-- Gives a kind to an entry that has none. -/
def settle (schema : Schema) (slot : Slot) (kind : TokenKind) : Schema :=
  schema.modify slot fun e => if e.kind == .unset then { e with kind := kind } else e

end Schema

/-- The name that stands for all names. -/
def anyName : String := "*"

/-- The names that an entry lists for the fields of a mapping. -/
def Shape.members : Shape → List (String × Slot)
  | .anything => []
  | .fields members => members
  | .each slot => [(anyName, slot)]

/-! ### Plans -/

/-- An entry with all that it refers to; entries that several places share are referred to by slot. -/
inductive Plan where
  | leaf (entry : Entry)
  | fields (entry : Entry) (members : List (String × Plan))
  | each (entry : Entry) (inner : Plan)
  | shared (slot : Slot)
  deriving Inhabited

namespace Plan

mutual

/-- Puts the entries of a plan into a schema. -/
def build : Plan → StateM Schema Slot
  | .leaf entry => modifyGet fun schema => schema.allocate { entry with shape := .anything }
  | .fields entry members => do
    let slots ← buildMembers members
    modifyGet fun schema => schema.allocate { entry with shape := .fields slots }
  | .each entry inner => do
    let slot ← inner.build
    modifyGet fun schema => schema.allocate { entry with shape := .each slot }
  | .shared slot => pure slot

def buildMembers : List (String × Plan) → StateM Schema (List (String × Slot))
  | [] => pure []
  | (name, plan) :: rest => do
    let slot ← plan.build
    let others ← buildMembers rest
    return (name, slot) :: others

end

end Plan

end ManifestLens
