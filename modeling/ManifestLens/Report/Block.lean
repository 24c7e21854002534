import ManifestLens.Outline.Flatten
import ManifestLens.Outline.Search
import ManifestLens.Resource.Cache

/-!
# Reports on manifests

The report on a manifest has its tokens and index entries, and diagnostics for what its outline remarks, for kinds that
are not known, and for resources that cannot be prepared.
-/

namespace ManifestLens

/-- The versions of the interface that resources are written in. -/
def resourceVersions : List String :=
  ["koreo.dev/v1beta1", "apiextensions.k8s.io/v1"]

/-- The kinds of resources that can be prepared. -/
def resourceKinds : List String :=
  ["FunctionTest", "ResourceFunction", "ResourceTemplate", "ValueFunction", "Workflow"]

/-- The kind of resources that define other kinds; it passes as known but cannot be prepared. -/
def definitionKind : String := "CustomResourceDefinition"

/-- The report on a manifest; what could not be looked at is absent. -/
structure BlockReport where
  tokens : Option (List Token) := none
  index : Option (List IndexEntry) := none
  logs : Option (List Log) := none
  diagnostics : Option (List Diagnostic) := none
  deriving Inhabited

/-- A manifest in its file. -/
structure Block where
  uri : String
  version : String
  lines : List String
  entries : Entries
  anchor : Anchor

namespace Block

/-- The value of a name, or null. -/
def value (b : Block) (name : String) : Value :=
  (b.entries.get? name).getD .null

/-- A value is one of several texts. -/
def isAmong (v : Value) (texts : List String) : Except Fault Bool :=
  match v with
  | .str s => .ok (texts.contains s)
  | _ => if v.isKey then .ok false else .error .wrongType

/-- The first line of the manifest. -/
def firstLine (b : Block) : Except Fault Range :=
  match b.lines[b.anchor.absolute.line.toNat]? with
  | some line => .ok ⟨b.anchor.absolute, ⟨b.anchor.absolute.line, line.length⟩⟩
  | none => .error .outOfRange

/-- A fault about the part with the given local key, or about the whole manifest if there is not exactly one. -/
def remarkAt (b : Block) (key : String) (gravity : Gravity) (message : String) :
    Except Fault (List Diagnostic) :=
  match Outline.find b.anchor.absolute key b.anchor.parts with
  | .part o => .ok [⟨gravity, o.absoluteRange b.anchor.absolute, message⟩]
  | .missing => b.firstLine.map fun range => [⟨gravity, range, message⟩]
  | .faulty found => b.firstLine.map fun range => found ++ [⟨gravity, range, message⟩]

/-- The tokens of the manifest. -/
def tokens (b : Block) : List Token :=
  b.anchor.outline.flatten

/-- The index entries of the manifest. -/
def index (b : Block) : List IndexEntry :=
  (b.anchor.outline.keyRanges none).map fun (name, range) => ⟨b.uri, name, range, some b.version⟩

/-- The diagnostics for what the outline remarks. -/
def remarks (b : Block) : List Diagnostic :=
  (Outline.remarked b.tokens).map fun t =>
    ⟨.error, Outline.absoluteRange b.anchor.absolute (.token t none), (t.remark.map (·.message)).getD ""⟩

/-- The report on a manifest that is passed over, with the reason. -/
def passedOver (b : Block) (reason : List Diagnostic) : BlockReport :=
  { tokens := some b.tokens, index := some b.index, diagnostics := some (b.remarks ++ reason) }

/-- The metadata of the manifest, where missing ones count as empty. -/
def metadata (b : Block) : Except Fault Entries :=
  match b.entries.get? "metadata" with
  | none => .ok []
  | some (.map entries) => .ok entries
  | some _ => .error .noField

/-- The report on a manifest of a kind that can be prepared. -/
def prepared (b : Block) (services : Services) (kind : String) (cache : Cache) :
    Except Fault (BlockReport × Cache) := do
  let metadata ← b.metadata
  let name := Entries.get? metadata "name"
  let spec := (b.entries.get? "spec").getD (.map [])
  let report (trouble : List Diagnostic) : BlockReport :=
    { b.passedOver trouble with logs := some [] }
  match services.prepareInto cache kind name spec (.ofFile b.uri b.anchor) with
  | .ok cache => return (report [], cache)
  | .error reason =>
    let shown := (name.getD (.str "missing-name")).text
    let apiVersion := (b.value "apiVersion").text
    let trouble ← b.remarkAt s!"{kind}:{shown}:def" .error
      s!"FAILED TO Extract ('{kind}.{apiVersion}') from {shown} ({reason})."
    return (report trouble, cache)

/-- The report on a manifest, and the cache with the resource that it defines. -/
def report (b : Block) (services : Services) (cache : Cache) : Except Fault (BlockReport × Cache) := do
  let apiVersion := b.value "apiVersion"
  let kind := b.value "kind"
  if !(← isAmong apiVersion resourceVersions) then
    let reason ← b.remarkAt "api_version" .information s!"'{kind.text}.{apiVersion.text}' is not a Koreo Resource."
    return (b.passedOver reason, cache)
  else if !(← isAmong kind (resourceKinds ++ [definitionKind])) then
    let reason ← b.remarkAt "kind" .information s!"'{kind.text}' is not a supported Koreo Resource."
    return (b.passedOver reason, cache)
  else if !(← isAmong kind resourceKinds) then .error .noEntry
  else b.prepared services kind.text cache

end Block

/-- The report on a value that is no manifest. -/
def BlockReport.skipped (message : String) : BlockReport :=
  { logs := some [⟨.info, message⟩] }

/-- The report on any value; the anchor of its outline may be missing. -/
def BlockReport.ofValue (services : Services) (uri version : String) (lines : List String) (value : Value)
    (anchor : Option Anchor) (cache : Cache) : Except Fault (BlockReport × Cache) :=
  match value, anchor with
  | .map entries, some anchor => Block.report ⟨uri, version, lines, entries, anchor⟩ services cache
  | .map _, none => .ok (.skipped "Failed to load semantic anchor", cache)
  | _, _ => .ok (.skipped "Skipping empty block", cache)

end ManifestLens
