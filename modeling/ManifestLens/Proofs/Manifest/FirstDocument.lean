import ManifestLens.Proofs.Manifest.Derivation
import ManifestLens.Schema.Resources

/-!
# The first document of a file

A file is most simply read at its first document, either with nothing known (`firstReading`) or with the kinds of
resources that are known from the start (`knownReading`).
-/

namespace ManifestLens

/-- The first document of a file. -/
def firstDocument (source : String) : Yaml.Document :=
  (Yaml.DocumentStream.ofText source.toList).documents.headD ⟨default, false⟩

theorem firstDocument_mem {source : String}
    (h : (Yaml.DocumentStream.ofText source.toList).documents.isEmpty = false) :
    firstDocument source ∈ (Yaml.DocumentStream.ofText source.toList).documents := by
  rw [firstDocument]
  cases isDocuments : (Yaml.DocumentStream.ofText source.toList).documents with
  | nil =>
    rw [isDocuments] at h
    cases h
  | cons document rest => exact List.mem_cons_self

/-- Its scalars. -/
def firstScalars (source : String) : Option (List ScalarNode) :=
  (Yaml.valueOf source.toList (firstDocument source).root).toOption.map fun found => found.1.scalars

/-- The reading of the first document of a file, of which nothing is known. -/
def firstReading (source : String) : Except Fault (Option Manifest × FileReading) × Schema :=
  (readDocument (.ofText source true) [] ⟨0, .origin⟩ (firstDocument source)).runFrom #[{}]

/-- The reading of the first document of a file, with the kinds of resources that are known from the start. -/
def knownReading (source : String) : Except Fault (Option Manifest × FileReading) × Schema :=
  (readDocument (.ofText source true) ResourceSchema.initial.kinds ⟨0, .origin⟩ (firstDocument source)).runFrom
    ResourceSchema.initial.schema

end ManifestLens
