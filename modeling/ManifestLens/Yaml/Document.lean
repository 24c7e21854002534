import ManifestLens.Yaml.Event
import ManifestLens.Yaml.Node

/-!
# Documents of a YAML text

Events are joined to the nodes of documents.  An alias stands for the node with its anchor in the same document; where
that node is not complete yet, the document holds itself.  The documents of a broken text are those before the fault.
-/

namespace ManifestLens.Yaml

/-- A document; it may hold itself by way of an alias. -/
structure Document where
  root : Node
  circular : Bool
  deriving DecidableEq, Inhabited

/-- How the documents of a text end: with the text, by a fault after a complete document, or by a fault inside of
one. -/
inductive Ending where
  | complete
  | between (error : Error)
  | within (error : Error)
  deriving DecidableEq, Inhabited

/-- The documents of a text. -/
structure DocumentStream where
  documents : List Document
  ending : Ending
  deriving DecidableEq

/-- A collection that is not complete yet, with its latest members first. -/
inductive Frame where
  | sequence (properties : Properties) (start : Mark) (items : List Node)
  | mapping (properties : Properties) (start : Mark) (pairs : List (Node × Node)) (key : Option Node)

/-- A node with an anchor; the node is not there before it is complete. -/
structure Anchored where
  name : String
  start : Mark
  node : Option Node

/-- A document that is being joined. -/
structure Joiner where
  frames : List Frame
  anchored : List Anchored
  root : Option Node
  circular : Bool

namespace Joiner

def empty : Joiner := ⟨[], [], none, false⟩

/-- The tag of a node, given the one that an untagged node has. -/
def tagOr (properties : Properties) (default : String) : String :=
  match properties.tag with
  | none => default
  | some tag => if tag == "!" then default else tag

/-- Puts a complete node where it belongs. -/
def place (j : Joiner) (node : Node) : Joiner :=
  match j.frames with
  | [] => { j with root := some node }
  | .sequence p start items :: outer => { j with frames := .sequence p start (node :: items) :: outer }
  | .mapping p start pairs none :: outer => { j with frames := .mapping p start pairs (some node) :: outer }
  | .mapping p start pairs (some key) :: outer =>
    { j with frames := .mapping p start ((key, node) :: pairs) none :: outer }

/-- Notes the anchor of a node that starts. -/
def note (j : Joiner) (properties : Properties) (start : Mark) (node : Option Node) : Except Error Joiner :=
  match properties.anchor with
  | none => .ok j
  | some name =>
    match j.anchored.find? fun a => a.name == name with
    | some first => .error (.fault .nodes (some (.firstAnchor name)) (some first.start) .secondAnchor start)
    | none => .ok { j with anchored := ⟨name, start, node⟩ :: j.anchored }

/-- Gives the node of an anchor that was noted before. -/
def complete (j : Joiner) (properties : Properties) (node : Node) : Joiner :=
  match properties.anchor with
  | none => j
  | some name =>
    { j with anchored := j.anchored.map fun a => if a.name == name then { a with node := some node } else a }

/-- Ends the innermost collection. -/
def close (j : Joiner) (stop : Mark) : Joiner :=
  match j.frames with
  | [] => j
  | .sequence p start items :: outer =>
    let node := Node.sequence (tagOr p Tag.seq) items.reverse start stop
    ({ j with frames := outer }.complete p node).place node
  | .mapping p start pairs _ :: outer =>
    let node := Node.mapping (tagOr p Tag.map) pairs.reverse start stop
    ({ j with frames := outer }.complete p node).place node

/-- The node that an alias stands for; nothing stands in for one that is not complete. -/
def resolve (j : Joiner) (name : String) (start : Mark) : Except Error Joiner :=
  match j.anchored.find? fun a => a.name == name with
  | none => .error (.fault .nodes none none (.undefinedAlias name) start)
  | some ⟨_, _, some node⟩ => .ok (j.place node)
  | some ⟨_, _, none⟩ =>
    .ok { j.place (.scalar (Tag.standard "null") "" start start) with circular := true }

/-- Takes an event inside a document. -/
def take (j : Joiner) : Event → Except Error Joiner
  | .aliasOf name start => j.resolve name start
  | .scalar p untagged text start stop => do
    let tag := tagOr p (if untagged then plainTag text else Tag.str)
    let node := Node.scalar tag text start stop
    return (← j.note p start (some node)).place node
  | .sequenceStart p start => do
    let j ← j.note p start none
    return { j with frames := .sequence p start [] :: j.frames }
  | .mappingStart p start => do
    let j ← j.note p start none
    return { j with frames := .mapping p start [] none :: j.frames }
  | .sequenceEnd stop => .ok (j.close stop)
  | .mappingEnd stop => .ok (j.close stop)
  | _ => .ok j

end Joiner

namespace DocumentStream

def cons (document : Document) (rest : DocumentStream) : DocumentStream :=
  ⟨document :: rest.documents, rest.ending⟩

/-- The end of events outside of documents. -/
def endOutside : Option Error → DocumentStream
  | none => ⟨[], .complete⟩
  | some e => ⟨[], .between e⟩

/-- Joins events to documents; `current` is the document that is being joined. -/
def join (failure : Option Error) (current : Option Joiner) : List Event → DocumentStream
  | [] =>
    match current, failure with
    | some _, some e => ⟨[], .within e⟩
    | _, _ => endOutside failure
  | event :: rest =>
    match current, event with
    | none, .documentStart => join failure (some .empty) rest
    | none, _ => join failure none rest
    | some j, .documentEnd => cons ⟨j.root.getD default, j.circular⟩ (join failure none rest)
    | some j, _ =>
      match j.take event with
      | .ok next => join failure (some next) rest
      | .error e => ⟨[], .within e⟩

/-- The documents of a text.  A character that no text may hold is a fault before all documents. -/
def ofText (text : List Char) : DocumentStream :=
  match firstForbidden 0 text with
  | some (code, index) => ⟨[], .between (.character code index)⟩
  | none =>
    let events := EventStream.ofTokens (.ofText text)
    join events.failure none events.events

end DocumentStream

end ManifestLens.Yaml
