import ManifestLens.Report.Diagnostic
import ManifestLens.Resource.Cache
import ManifestLens.Test.Result

/-!
# Running tests

The tests to run are those that are asked for and those that depend on functions that are asked for.
-/

namespace ManifestLens

/-- The results of tests, by name. -/
abbrev TestResults := List (String × TestResult)

/-- The functions whose tests are to run, by kind. -/
abbrev Functions := List (String × List String)

/-- The tests that depend on functions. -/
def testsOf (services : Services) (functions : Functions) : List String :=
  functions.flatMap fun (kind, names) => names.flatMap fun name =>
    (services.subscribers kind name).filterMap fun s => if s.kind == "FunctionTest" then some s.name else none

/-- Runs tests one after the other; tests that are not in the cache are logged. -/
def runAll (cache : Cache) : List String → Except Fault (TestResults × List Log)
  | [] => .ok ([], [])
  | name :: rest => do
    match cache.resource "FunctionTest" name with
    | .nothing =>
      let (results, logs) ← runAll cache rest
      return (results, ⟨.error, s!"Failed to find FunctionTest ('{name}') in Koreo cache."⟩ :: logs)
    | resource =>
      let first ← resource.testResult
      let (results, logs) ← runAll cache rest
      return ((name, first) :: results, logs)

/-- Runs the tests that are asked for and those that depend on functions, each once. -/
def runTests (services : Services) (cache : Cache) (tests : List String) (functions : Functions) :
    Except Fault (TestResults × List Log) :=
  runAll cache (Inputs.distinct (tests ++ testsOf services functions))

end ManifestLens
