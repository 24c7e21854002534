import ManifestLens.Index.Resources
import ManifestLens.Session.Basic
import ManifestLens.Test.Report
import ManifestLens.Workflow.Check

/-!
# Analyses

The analysis of a file has two halves.  The first one checks the workflows and starts the tests; the second one, when
the tests have run, puts the entries of the file into the index in place of the earlier ones, forgets the resources
that the file no longer defines, and publishes the diagnostics.
-/

namespace ManifestLens

/-- An analysis whose tests are running. -/
structure Analysis where
  uri : String
  version : Option Int
  report : FileReport
  /-- The diagnostics so far. -/
  diagnostics : List Diagnostic
  /-- The tests that the file defines. -/
  tests : List (String × Range)
  outcome : Except Fault (TestResults × List Log)

namespace Analysis

/-- The functions that entries define, by kind. -/
def functions (index : List IndexEntry) : Functions :=
  ["ValueFunction", "ResourceFunction"].map fun kind => (kind, (Index.named (.definitionOf kind) index).map (·.1))

/-- The tests that entries define. -/
def testsIn (index : List IndexEntry) : List (String × Range) :=
  Index.named (.definitionOf "FunctionTest") index

/-- Some test is there to be run. -/
def runsTests (services : Services) (cache : Cache) (index : List IndexEntry) : Bool :=
  ((testsIn index).map (·.1) ++ testsOf services (functions index)).any fun name =>
    (cache.resource "FunctionTest" name).isThere

/-- Where the tests of a file are defined; the last definition counts. -/
def ranges (a : Analysis) : List (String × Range) :=
  a.tests.reverse

/-- The first half of the analysis of a file by a report on it, unless the document has changed since it was read. -/
def of? (services : Services) (s : Session) (uri : String) (r : VersionedReport) : Except Fault (Option Analysis) :=
  if r.version ≠ (s.document uri).version then .ok none
  else do
    let found ← Workflow.checkNamed s.store.cache uri (Index.workflows r.report.index)
    let tests := testsIn r.report.index
    let outcome := runTests services s.store.cache (tests.map (·.1)) (functions r.report.index)
    return some ⟨uri, r.version, r.report, r.report.diagnostics ++ found, tests, outcome⟩

/-- The first half of the analysis of a file by the latest report on it, if there is one. -/
def start? (services : Services) (s : Session) (uri : String) : Except Fault (Option Analysis) :=
  match s.reports.get? uri with
  | none => .ok none
  | some r => of? services s uri r

/-- The resources that a file defined before and does not define now. -/
def gone (a : Analysis) (index : List IndexEntry) : List Index.Definition :=
  let now := (Index.definitions a.report.index).map (·.resource)
  (Index.definitions (Index.ofFile index a.uri)).filter fun d => !now.contains d.resource

/-- What an analyzer wants to be told of. -/
def followed (a : Analysis) : List ResourceName :=
  Index.mentions a.report.index ++ [⟨"ParseNotification", a.uri⟩]

/-- The index with the entries of a file in place of its earlier ones. -/
def newIndex (a : Analysis) (index : List IndexEntry) : List IndexEntry :=
  Index.without index a.uri ++ a.report.index

/-- What is known once the tests have run. -/
structure Verdict where
  results : TestResults
  logs : List Log
  /-- All diagnostics but those for resources that are defined more than once. -/
  diagnostics : List Diagnostic

/-- The results of the tests and the diagnostics so far. -/
def verdict (a : Analysis) (cache : Cache) : Except Fault Verdict := do
  let (results, logs) ← a.outcome
  let failures ← TestReport.ofResults cache (a.tests.map (·.1)) a.ranges results
  let unusable := Index.unusable cache (Index.definitions a.report.index)
  return ⟨results, logs, a.diagnostics ++ failures ++ unusable⟩

/-- The entries and tokens of a file stand in place of the earlier ones, and there are no results of its tests. -/
def install (a : Analysis) (s : Session) : Session :=
  { s with
    index := a.newIndex s.index
    tokens := s.tokens.set a.uri a.report.tokens
    results := s.results.remove a.uri }

/-- There are results of the tests of a file. -/
def settle (a : Analysis) (results : TestResults) (s : Session) : Session :=
  { s with results := s.results.set a.uri results }

/-- The session after an analysis with the given results. -/
def apply (a : Analysis) (results : TestResults) (s : Session) : Session :=
  a.settle results (((a.gone s.index).map (·.resource)).foldl Session.forget (a.install s))

/-- The second half of an analysis. -/
def finish (a : Analysis) (s : Session) : Except Fault (Session × List Effect) := do
  let verdict ← a.verdict s.store.cache
  let after := a.apply verdict.results s
  let diagnostics := verdict.diagnostics ++ Index.duplicates after.index a.uri
  let effects := verdict.logs.map .log ++ [.follow a.uri a.followed] ++
    ((a.gone s.index).map fun d => .forget d.resource d.version) ++ [.publish a.uri a.version diagnostics]
  return (after, effects)

/-- An analysis takes no events. -/
theorem pending_of_finish {a : Analysis} {s t : Session} {effects : List Effect}
    (h : a.finish s = .ok (t, effects)) : t.pending = s.pending := by
  simp only [finish, bind, Except.bind, pure, Except.pure] at h
  split at h
  · exact nomatch h
  · simp only [Except.ok.injEq, Prod.mk.injEq] at h
    rw [← h.1, apply, Session.foldl_forget]
    rfl

end Analysis

end ManifestLens
