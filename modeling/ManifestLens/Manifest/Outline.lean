import ManifestLens.Manifest.Scalar

/-!
# Outlines of nodes

The outline of a node follows the schema.  The key of a pair is a token with the outlines of the value below it, and
the items of a list stand side by side.  Reading a scalar settles the kind of its entry, so the schema is handed on
from node to node, also where the reading ends with a fault.
-/

namespace ManifestLens

open Yaml (Mark Node)

/-- A computation that reads and settles a schema. -/
abbrev Reading := ExceptT Fault (StateM Schema)

namespace Reading

/-- A computation that leaves the schema alone. -/
def ofExcept {α : Type} (result : Except Fault α) : Reading α :=
  ExceptT.mk (pure result)

def entry (slot : Slot) : Reading Entry := do
  return (← get).entry slot

def allocate (entry : Entry) : Reading Slot :=
  modifyGet fun schema => schema.allocate entry

def assign (slot : Slot) (kind : TokenKind) : Reading Unit :=
  modify fun schema => schema.assign slot kind

def settle (slot : Slot) (kind : TokenKind) : Reading Unit :=
  modify fun schema => schema.settle slot kind

end Reading

/-- The kind of a scalar about which the schema says nothing. -/
def scalarKind (tag : String) : TokenKind :=
  let name := String.ofList ((tag.toList.reverse.takeWhile (· != ':')).reverse)
  if name == "int" || name == "float" || name == "bool" then .number else .string

/-- The remark on a key that was there before. -/
def duplicateKey : Remark := ⟨"Duplicate key", .error⟩

/-- The remark on a key that the schema does not list. -/
def unknownKey : Remark := ⟨"Unknown key", .error⟩

/-- What a mapping is read with: the names that are listed, whether others are faults, and the key of what it refers
to. -/
structure Listing where
  members : List (String × Slot)
  strict : Bool
  reference : Option String

namespace Listing

/-- The remark on a key, given the keys before it. -/
def remark (listing : Listing) (seen : List String) (key : String) : Option Remark :=
  if seen.contains key then some duplicateKey
  else if listing.strict && (listing.members.lookup key).isNone then some unknownKey
  else none

/-- The slot of a key, by its name or by the name that stands for all. -/
def slot? (listing : Listing) (key : String) : Option Slot :=
  match listing.members.lookup key with
  | some slot => some slot
  | none => listing.members.lookup anyName

end Listing

/-- How a mapping is read by an entry. -/
def Entry.listing (entry : Entry) (pairs : List (Node × Node)) : Except Fault Listing := do
  let reference ← if entry.refers then referenceKey (.pairs pairs) else pure none
  return ⟨entry.shape.members, entry.strict, reference⟩

/-- The entry for the value of a key, unless the key's entry refers to one. -/
def Entry.forValue (entry : Entry) : Entry :=
  { shape := entry.shape, strict := entry.strict }

/-- An outline with other children. -/
def Outline.withChildren (children : List Outline) : Outline → Outline
  | .anchor key absolute relative _ => .anchor key absolute relative (some children)
  | .block localKey indexKey range _ => .block localKey indexKey range (some children)
  | .token t _ => .token t (some children)

namespace Page

/-- The slot with which the value of a key is read. -/
def valueSlot (keySlot : Slot) (listing : Listing) (key : String) : Reading Slot := do
  let keyEntry ← Reading.entry keySlot
  let slot ← match keyEntry.shape with
    | .each slot => pure slot
    | _ => Reading.allocate keyEntry.forValue
  match listing.reference with
  | none => return slot
  | some reference =>
    let entry ← Reading.entry slot
    if key == "name" && entry.indexKey.isNone then
      Reading.allocate { entry with indexKey := some (.constant reference) }
    else return slot

/-- The slot with which the items of a list are read. -/
def itemSlot (entry : Entry) : Reading Slot :=
  match entry.shape with
  | .each slot => pure slot
  | shape => Reading.allocate { shape := shape }

/-- The outline of a scalar; its kind becomes that of its entry, unless it is an expression. -/
def scalarBy (page : Page) (slot : Slot) (tag text : String) (start stop : Mark) (last : Position)
    (remark : Option Remark) : Reading Outlined := do
  let entry ← Reading.entry slot
  let kind := if entry.kind == .unset then scalarKind tag else entry.kind
  if kind == .string && text.toList.head? == some '=' then
    Reading.ofExcept (page.expression text start stop last entry.modifiers remark)
  else do
    Reading.assign slot kind
    Reading.ofExcept (page.scalar { entry with kind := kind } text start stop last remark)

/-- The outline of a key. -/
def keyBy (page : Page) (slot : Slot) (tag text : String) (start stop : Mark) (last : Position)
    (remark : Option Remark) : Reading Outlined := do
  Reading.settle slot .keyword
  page.scalarBy slot tag text start stop last remark

/-- Puts outlines into a block, if the entry has keys for what the node holds. -/
def enclose (page : Page) (entry : Entry) (node : Node) (found : Outlined) : Except Fault Outlined :=
  if entry.localKey.isNone && entry.indexKey.isNone then .ok found
  else do
    let localKey ← ruledKey entry.localKey node.content
    let indexKey ← ruledKey entry.indexKey node.content
    return ([.block localKey indexKey (page.range node.start node.stop) (some found.1)], found.2)

/-- Puts the outlines of a value below the outline of its key. -/
def below (key : List Outline) (children : List Outline) : List Outline :=
  (key.getLast?.map (·.withChildren children)).toList

mutual

/-- The outlines of a node. -/
def node (page : Page) (slot : Slot) (last : Position) : Node → Reading Outlined
  | .scalar tag text start stop => page.scalarBy slot tag text start stop last none
  | .sequence tag items start stop => do
    let entry ← Reading.entry slot
    let itemSlot ← itemSlot entry
    let found ← page.items itemSlot last items
    Reading.ofExcept (page.enclose entry (.sequence tag items start stop) found)
  | .mapping tag pairs start stop => do
    let entry ← Reading.entry slot
    let listing ← Reading.ofExcept (entry.listing pairs)
    let found ← page.pairs listing [] last pairs
    Reading.ofExcept (page.enclose entry (.mapping tag pairs start stop) found)

/-- The outlines of the items of a list. -/
def items (page : Page) (slot : Slot) (last : Position) : List Node → Reading Outlined
  | [] => pure ([], last)
  | item :: rest => do
    let (first, last) ← page.node slot last item
    let (others, last) ← page.items slot last rest
    return (first ++ others, last)

/-- The outlines of the pairs of a mapping, given the keys before them.  Only a scalar can be a key. -/
def pairs (page : Page) (listing : Listing) (seen : List String) (last : Position) :
    List (Node × Node) → Reading Outlined
  | [] => pure ([], last)
  | (.scalar tag key start stop, value) :: rest => do
    let keySlot ← match listing.slot? key with
      | some slot => pure slot
      | none => Reading.allocate {}
    let (keyOutline, last) ← page.keyBy keySlot tag key start stop last (listing.remark seen key)
    let valueSlot ← valueSlot keySlot listing key
    let (children, last) ← page.node valueSlot last value
    let (others, last) ← page.pairs listing (key :: seen) last rest
    return (below keyOutline children ++ others, last)
  | _ :: _ => throw .wrongType

end

/-- The outlines of the root of a document, without a block around them. -/
def root (page : Page) (slot : Slot) (last : Position) : Node → Reading Outlined
  | .scalar tag text start stop => page.scalarBy slot tag text start stop last none
  | .sequence _ items _ _ => do
    let itemSlot ← itemSlot (← Reading.entry slot)
    page.items itemSlot last items
  | .mapping _ pairs _ _ => do
    let entry ← Reading.entry slot
    let listing ← Reading.ofExcept (entry.listing pairs)
    page.pairs listing [] last pairs

end Page

/-! ### Nodes and what is known of them -/

/-- What is known of a node that is read: nothing, the entries of its names, or its own entry. -/
inductive Guide where
  | nothing
  | names (members : List (String × Slot))
  | entry (slot : Slot)

namespace Page

/-- The outlines of a root; without an entry of its own it is read with a new one. -/
def rootBy (page : Page) (guide : Guide) (last : Position) (n : Node) : Reading Outlined :=
  match guide with
  | .nothing => do page.root (← Reading.allocate {}) last n
  | .names members => do page.root (← Reading.allocate { shape := .fields members }) last n
  | .entry slot => page.root slot last n

/-- The outlines of a node; without an entry of its own there is no block around it, and names say nothing of a
scalar. -/
def nodeBy (page : Page) (guide : Guide) (last : Position) (n : Node) : Reading Outlined :=
  match guide, n with
  | .entry slot, n => page.node slot last n
  | .names _, .scalar tag text start stop => page.rootBy .nothing last (.scalar tag text start stop)
  | guide, n => page.rootBy guide last n

end Page

end ManifestLens
