import ManifestLens.Manifest.Basic
import ManifestLens.Report.Block

/-!
# Reports on files

The report on a file joins the reports on its manifests.  Where the text breaks off inside of a document, the fault is
a diagnostic of the report, and the manifests before it are reported as they are.
-/

namespace ManifestLens

/-- What is kept from file to file: the schema, with the kinds that were settled, and the prepared resources. -/
structure Store where
  kinds : List (String × Slot)
  schema : Schema
  cache : Cache

def Store.initial : Store :=
  let resources := ResourceSchema.initial
  ⟨resources.kinds, resources.schema, []⟩

/-- The report on a file. -/
structure FileReport where
  tokens : List Int := []
  index : List IndexEntry := []
  logs : List Log := []
  diagnostics : List Diagnostic := []
  deriving DecidableEq, Inhabited

namespace FileReport

/-- A report followed by another one. -/
def append (a b : FileReport) : FileReport :=
  ⟨a.tokens ++ b.tokens, a.index ++ b.index, a.logs ++ b.logs, a.diagnostics ++ b.diagnostics⟩

/-- The numbers of tokens, one after the other. -/
def numbers (tokens : List Token) : Except Fault (List Int) :=
  match tokens.mapM Token.numbers? with
  | some rows => .ok rows.flatten
  | none => .error .noEntry

/-- The report on one manifest as the report on a file. -/
def ofBlock (block : BlockReport) : Except Fault FileReport := do
  let tokens ← numbers (block.tokens.getD [])
  return ⟨tokens, block.index.getD [], block.logs.getD [], block.diagnostics.getD []⟩

/-- The line on which a mark is, as far as the file goes. -/
def lineRange (lines : List String) (mark : Yaml.Mark) : Range :=
  let last := (lines[min mark.line (lines.length - 1)]?).getD ""
  ⟨⟨mark.line, 0⟩, ⟨mark.line, last.length⟩⟩

/-- A mark in a message; there may be none. -/
def markText : Option Yaml.Mark → String
  | none => "None"
  | some mark => mark.position.text

/-- The report on a text that is broken at a mark, inside of something that may start at another. -/
def broken (lines : List String) (message : String) (mark : Yaml.Mark) (since : Option Yaml.Mark) : FileReport where
  logs := [⟨.error, s!"Failed to parse YAML around {markText (some mark)} / {markText since}"⟩]
  diagnostics := (mark :: since.toList).map fun m => ⟨.error, lineRange lines m, message⟩

/-- The fault of a text that is reported and not handed on: one in its tokens or their grouping. -/
def syntaxFault? : Fault → Option (String × Yaml.Mark × Option Yaml.Mark)
  | .yaml (.fault stage task since problem mark) source =>
    if stage == .tokens || stage == .events then
      some ((Yaml.Error.fault stage task since problem mark).message source, mark, since)
    else none
  | _ => none

/-- The report on the end of a file. -/
def ofEnding (lines : List String) : ManifestEnding → Except Fault FileReport
  | .complete => .ok {}
  | .between fault => .error fault
  | .within fault =>
    match syntaxFault? fault with
    | some (message, mark, since) => .ok (broken lines message mark since)
    | none => .error fault

/-- The report on a manifest of a file, and the cache with the resource that it defines. -/
def ofManifest (services : Services) (uri : String) (lines : List String) (manifest : Manifest) (cache : Cache) :
    Except Fault (FileReport × Cache) := do
  let (block, cache) ← Block.report ⟨uri, manifest.version, lines, manifest.entries, manifest.anchor⟩ services cache
  return (← ofBlock block, cache)

/-- The report on documents and the end of their file.  What the documents settle and define is kept, also where the
report ends with a fault. -/
def ofDocuments (services : Services) (uri : String) (file : SourceFile) (ending : ManifestEnding)
    (reading : FileReading) (store : Store) : List Yaml.Document → Except Fault FileReport × Store
  | [] => (ofEnding file.lines ending, store)
  | document :: rest =>
    match (readDocument file store.kinds reading document).run.run store.schema with
    | (.error fault, schema) => (ofEnding file.lines (.within fault), { store with schema := schema })
    | (.ok (none, next), schema) => ofDocuments services uri file ending next { store with schema := schema } rest
    | (.ok (some manifest, next), schema) =>
      match ofManifest services uri file.lines manifest store.cache with
      | .error fault => (.error fault, { store with schema := schema })
      | .ok (first, cache) =>
        let (others, store) := ofDocuments services uri file ending next ⟨store.kinds, schema, cache⟩ rest
        (others.map first.append, store)

/-- The report on a file. -/
def ofFile (services : Services) (uri : String) (file : SourceFile) (store : Store) :
    Except Fault FileReport × Store :=
  let text := file.text.toList
  let stream := Yaml.DocumentStream.ofText text
  ofDocuments services uri file (.ofYaml text stream.ending) ⟨0, .origin⟩ store stream.documents

end FileReport

end ManifestLens
