import ManifestLens.Digest.Md5
import ManifestLens.Manifest.Outline
import ManifestLens.Schema.Resources
import ManifestLens.Text.Lines
import ManifestLens.Value.Text
import ManifestLens.Yaml.Document
import ManifestLens.Yaml.Node.Value

/-!
# Manifests

A file holds manifests one after the other.  Each has a version, which is a digest of its lines, its data, and its
outline.  Documents without data are counted and otherwise passed over.
-/

namespace ManifestLens

/-- A text file with its lines. -/
structure SourceFile where
  text : String
  lines : List String

def SourceFile.ofText (text : String) (keepBreaks : Bool) : SourceFile :=
  ⟨text, Text.lines text keepBreaks⟩

/-- A document of a file that holds data. -/
structure Manifest where
  version : String
  entries : Entries
  anchor : Anchor
  deriving Inhabited

/-- How the manifests of a file end: with the file, by a fault after a complete document, or by a fault inside of
one. -/
inductive ManifestEnding where
  | complete
  | between (fault : Fault)
  | within (fault : Fault)
  deriving DecidableEq, Inhabited

/-- The manifests of a file; nothing stands for a document without data. -/
structure Manifests where
  documents : List (Option Manifest)
  ending : ManifestEnding

/-- Where the reading of a file stands: how many documents were read, and where the last token is. -/
structure FileReading where
  count : Nat
  last : Position

/-- The digest of the lines of a node. -/
def versionOf (lines : List String) (node : Yaml.Node) : String :=
  let block := (lines.drop node.start.line).take (node.stop.line - node.start.line)
  Digest.md5Hex ("\n".intercalate block)

/-- The key of a manifest's anchor: its kind and name, or its number where it has none. -/
def anchorKey (kind : Option Value) (name : Option Value) (count : Nat) : String :=
  match kind with
  | none => s!"Unknown:{count}"
  | some kind =>
    if !kind.truthy then s!"Unknown:{count}"
    else
      match name with
      | some name => if name.truthy then s!"{kind.text}:{name.text}" else s!"{kind.text}:{count}"
      | none => s!"{kind.text}:{count}"

/-- The slot of a kind in the schema; other kinds share one. -/
def kindSlot (kinds : List (String × Slot)) (kind : Option Value) : Except Fault Slot :=
  let other := (kinds.lookup anyName).getD 0
  match kind with
  | none => .ok other
  | some (.str s) => .ok ((kinds.lookup s).getD other)
  | some kind => if kind.isKey then .ok other else .error .wrongType

/-- The name in the metadata of a manifest. -/
def metadataName (entries : Entries) : Except Fault (Option Value) :=
  match entries.get? "metadata" with
  | none => .ok none
  | some (.map metadata) => .ok (Entries.get? metadata "name")
  | some _ => .error .noField

/-- Reads a document that holds data. -/
def readEntries (file : SourceFile) (kinds : List (String × Slot)) (state : FileReading)
    (document : Yaml.Document) (root : Yaml.Node) (entries : Entries) : Reading (Manifest × Position) := do
  let kind := entries.get? "kind"
  let slot ← Reading.ofExcept (kindSlot kinds kind)
  let name ← Reading.ofExcept (metadataName entries)
  let start := root.start.position
  if document.circular then throw .endless
  let page : Page := ⟨file.lines.map String.toList, start⟩
  let (outlines, last) ← page.root slot state.last root
  let anchor : Anchor :=
    { key := some (anchorKey kind name state.count)
      absolute := start
      relative := ⟨start.line - state.last.line, start.character⟩
      children := some outlines }
  return (⟨versionOf file.lines root, entries, anchor⟩, last)

/-- Reads a document. -/
def readDocument (file : SourceFile) (kinds : List (String × Slot)) (state : FileReading)
    (document : Yaml.Document) : Reading (Option Manifest × FileReading) := do
  let (root, value) ← Reading.ofExcept (Yaml.valueOf file.text.toList document.root)
  if !value.truthy then return (none, { state with count := state.count + 1 })
  else
    match value with
    | .map entries =>
      let (manifest, last) ← readEntries file kinds state document root entries
      return (some manifest, ⟨state.count + 1, last⟩)
    | _ => throw .noField

/-- Reads documents one after the other, up to the first fault. -/
def readDocuments (file : SourceFile) (kinds : List (String × Slot)) (state : FileReading) (ending : ManifestEnding) :
    List Yaml.Document → StateM Schema Manifests
  | [] => pure ⟨[], ending⟩
  | document :: rest => do
    match ← (readDocument file kinds state document).run with
    | .error fault => return ⟨[], .within fault⟩
    | .ok (manifest, next) =>
      let others ← readDocuments file kinds next ending rest
      return ⟨manifest :: others.documents, others.ending⟩

/-- The ending of a file's manifests, by that of its documents. -/
def ManifestEnding.ofYaml (text : List Char) : Yaml.Ending → ManifestEnding
  | .complete => .complete
  | .between e => .between (.yaml e text)
  | .within e => .within (.yaml e text)

/-- Reads the manifests of a file. -/
def Manifests.read (file : SourceFile) (kinds : List (String × Slot)) : StateM Schema Manifests :=
  let text := file.text.toList
  let stream := Yaml.DocumentStream.ofText text
  readDocuments file kinds ⟨0, .origin⟩ (.ofYaml text stream.ending) stream.documents

end ManifestLens
