import ManifestLens.Editor.Edit
import ManifestLens.Report.File
import ManifestLens.Test.Run

/-!
# Sessions

A session holds the documents that an editor shows, what is known of them, and which files have an analyzer.  What
happens in a session is told to the editor and to the cluster's bookkeeping as effects.
-/

namespace ManifestLens

/-- A document as an editor holds it. -/
structure Document where
  file : SourceFile
  version : Option Int

/-- The document of a file that the editor has not told of. -/
def Document.empty : Document :=
  ⟨.ofText "" true, none⟩

/-- What an analyzer is told. -/
inductive Event where
  | changed
  | kill
  deriving DecidableEq, Inhabited

/-- Values by file. -/
abbrev ByFile (α : Type) := List (String × α)

namespace ByFile

variable {α : Type}

/-- Removes the value of a file. -/
def remove (table : ByFile α) (uri : String) : ByFile α :=
  table.filter (·.1 != uri)

/-- Sets the value of a file. -/
def set (table : ByFile α) (uri : String) (value : α) : ByFile α :=
  (uri, value) :: table.remove uri

/-- The value of a file. -/
def get? (table : ByFile α) (uri : String) : Option α :=
  table.lookup uri

@[simp] theorem get?_nil (uri : String) : get? ([] : ByFile α) uri = none :=
  rfl

theorem get?_remove_of_ne (table : ByFile α) {uri other : String} (h : other ≠ uri) :
    (table.remove uri).get? other = table.get? other := by
  induction table with
  | nil => rfl
  | cons e table ih =>
    obtain ⟨u, value⟩ := e
    simp only [remove, get?, List.filter_cons, List.lookup_cons] at ih ⊢
    by_cases own : u = uri
    · have apart : (other == u) = false := by simp [own, h]
      simp only [own, bne_self_eq_false, Bool.false_eq_true, if_false, ih]
      rw [← own, apart]
    · simp only [bne_iff_ne, ne_eq, own, not_false_eq_true, if_true, List.lookup_cons, ih]

@[simp] theorem get?_set_self (table : ByFile α) (uri : String) (value : α) :
    (table.set uri value).get? uri = some value := by
  simp [set, get?]

theorem get?_set_of_ne (table : ByFile α) {uri other : String} (value : α) (h : other ≠ uri) :
    (table.set uri value).get? other = table.get? other := by
  have apart : (other == uri) = false := by simp [h]
  rw [← table.get?_remove_of_ne h, set, get?, List.lookup_cons, apart]
  rfl

end ByFile

/-- The report on a file, with the version of the document that it is on. -/
structure VersionedReport where
  version : Option Int
  report : FileReport
  deriving DecidableEq, Inhabited

/-- The state of a session. -/
structure Session where
  store : Store
  documents : ByFile Document
  /-- The latest report on each file that could be read. -/
  reports : ByFile VersionedReport
  /-- The entries of all files that were analyzed. -/
  index : List IndexEntry
  tokens : ByFile (List Int)
  results : ByFile TestResults
  /-- The files for which events are taken. -/
  registered : List String
  /-- The files that have an analyzer. -/
  analyzers : List String
  /-- The files whose analyzer waits for events. -/
  idle : List String
  /-- Events that wait for the analyzers of their files. -/
  pending : List (String × Event)

namespace Session

/-- The state in which nothing has happened yet. -/
def start : Session :=
  ⟨.initial, [], [], [], [], [], [], [], [], []⟩

/-- The document of a file. -/
def document (s : Session) (uri : String) : Document :=
  (s.documents.get? uri).getD .empty

/-- The results of the tests that were run for a file. -/
def resultsOf (s : Session) (uri : String) : TestResults :=
  (s.results.get? uri).getD []

/-- The editor shows a document. -/
def withDocument (s : Session) (uri : String) (d : Document) : Session :=
  { s with documents := s.documents.set uri d }

/-- Forgets a resource. -/
def forget (s : Session) (r : ResourceName) : Session :=
  { s with store := { s.store with cache := s.store.cache.erase r.kind r.name } }

/-- Forgetting resources changes the cache and nothing else. -/
theorem foldl_forget (resources : List ResourceName) (s : Session) :
    resources.foldl forget s = { s with store := { s.store with
      cache := resources.foldl (fun c r => c.erase r.kind r.name) s.store.cache } } := by
  induction resources generalizing s with
  | nil => rfl
  | cons r resources ih => exact ih (s.forget r)

end Session

/-- What a session tells others. -/
inductive Effect where
  | log (l : Log)
  | publish (uri : String) (version : Option Int) (diagnostics : List Diagnostic)
  | edit (uri : String) (version : Option Int) (edits : List TextEdit)
  | refreshHints
  | refreshLenses
  /-- A resource is no longer defined. -/
  | forget (resource : ResourceName) (version : Option String)
  /-- The analyzer of a file is to be told of changes to resources, and to nothing else. -/
  | follow (uri : String) (resources : List ResourceName)
  /-- The analyzer of a file ended, possibly by a fault. -/
  | ended (uri : String) (fault : Option Fault)
  /-- What was asked for could not be done. -/
  | refused (fault : Fault)
  deriving Inhabited

end ManifestLens
