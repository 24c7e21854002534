import ManifestLens.Inputs.Compare
import ManifestLens.Key.Pattern
import ManifestLens.Report.Block
import ManifestLens.Report.Diagnostic
import ManifestLens.Resource.Cache

/-!
# Resources in the index

The entries of the index tell which resources files define and mention.  A resource that is defined more than once is
reported at each of its definitions.
-/

namespace ManifestLens.Index

/-- The resource of a known kind that a pattern finds in the name of an entry. -/
def resource? (pattern : KeyPattern) (e : IndexEntry) : Option ResourceName :=
  (pattern.match? e.name).bind fun m =>
    let kind := m.kind.getD ""
    if resourceKinds.contains kind then some ⟨kind, m.name⟩ else none

/-- A resource that an entry defines, with the version of its block. -/
structure Definition where
  resource : ResourceName
  version : Option String
  range : Range
  deriving DecidableEq, Inhabited

/-- Adds a definition in place of an earlier one of the same resource. -/
def addDefinition : List Definition → Definition → List Definition
  | [], d => [d]
  | e :: rest, d => if e.resource = d.resource then d :: rest else e :: addDefinition rest d

/-- The resources that entries define, the last definition of each one. -/
def definitions (index : List IndexEntry) : List Definition :=
  (index.filterMap fun e => (resource? .definition e).map (⟨·, e.version, e.range⟩)).foldl addDefinition []

/-- The resources that entries define or refer to, each once. -/
def mentions (index : List IndexEntry) : List ResourceName :=
  (index.filterMap (resource? .mention)).eraseDups

/-- The names that a pattern finds, with the ranges of their entries. -/
def named (pattern : KeyPattern) (index : List IndexEntry) : List (String × Range) :=
  index.filterMap fun e => (pattern.name? e.name).map (·, e.range)

/-- The workflows that entries define. -/
def workflows (index : List IndexEntry) : List (String × Range) :=
  named (.plainDefinitionOf "Workflow") index

/-- The entries of a file. -/
def ofFile (index : List IndexEntry) (uri : String) : List IndexEntry :=
  index.filter (·.uri == uri)

/-- The entries of all files but one. -/
def without (index : List IndexEntry) (uri : String) : List IndexEntry :=
  index.filter (·.uri != uri)

/-- The entry defines a resource of any kind. -/
def isDefinition (e : IndexEntry) : Bool :=
  (KeyPattern.definition.match? e.name).isSome

/-- The names under which resources are defined, each once. -/
def definitionNames (index : List IndexEntry) : List String :=
  Inputs.distinct ((index.filter isDefinition).map (·.name))

/-- The diagnostics for the definitions in a file of resources that are defined more than once. -/
def duplicates (index : List IndexEntry) (uri : String) : List Diagnostic :=
  (definitionNames index).flatMap fun name =>
    let places := index.filter (·.name == name)
    if places.length ≤ 1 then []
    else (ofFile places uri).map fun e => ⟨.error, e.range, s!"Mulitiple instances of {name}."⟩

/-- The diagnostics for the definitions of resources that cannot be used; workflows are checked elsewhere. -/
def unusable (cache : Cache) (definitions : List Definition) : List Diagnostic :=
  definitions.filterMap fun d =>
    if d.resource.kind == "Workflow" then none
    else
      (cache.resource d.resource.kind d.resource.name).trouble?.map fun o => ⟨.error, d.range, o.message⟩

end ManifestLens.Index
