import ManifestLens.Outline.Search
import ManifestLens.Test.Run

/-!
# Reports on tests

The diagnostics for the tests of a file that failed, at the inputs and the expected fields that do not fit.
-/

namespace ManifestLens

/-- The field of an input below the inputs. -/
def belowFirstPoint (field : String) : String :=
  match field.toList.dropWhile (· != '.') with
  | [] => field
  | _ :: rest => String.ofList rest

namespace TestReport

/-- The diagnostics for one mismatch, given where the inputs and their values are. -/
def mismatch (base : Position) (inputs values : Outline) (m : Inputs.Mismatch) : List Diagnostic :=
  if m.actual && !m.expected then
    match Outline.find base s!"input:{belowFirstPoint m.field}" values.parts with
    | .missing => []
    | .faulty found => found
    | .part o => [⟨.warning, o.absoluteRange base, s!"Input ('{m.field}') not expected."⟩]
  else if m.expected && !m.actual then
    [⟨.error, inputs.absoluteRange base, s!"Missing input ('{m.field}')."⟩]
  else []

/-- The diagnostics for mismatches of inputs below the specification of a test. -/
def inputs (base : Position) (spec : Outline) (mismatches : List Inputs.Mismatch) : List Diagnostic :=
  match Outline.find base "inputs" spec.parts with
  | .missing => [⟨.warning, spec.absoluteRange base, "Input expected, but none provided."⟩]
  | .faulty found => found
  | .part inputs =>
    match Outline.find base "input-values" inputs.parts with
    | .missing => []
    | .faulty found => found
    | .part values => mismatches.flatMap (mismatch base inputs values)

/-- The diagnostics for one field, below the expected fields. -/
def fieldError (base : Position) (expected : Outline) (e : FieldError) : List Diagnostic :=
  match Outline.find base e.field expected.parts with
  | .missing => [⟨.error, expected.absoluteRange base, s!"Missing value for '{e.field}'"⟩]
  | .faulty found => found
  | .part o => [⟨.error, o.absoluteRange base, s!"Actual: '{e.actual.text}'"⟩]

/-- The diagnostics for fields that do not fit what is expected under a key, or at the specification if nothing is
expected there. -/
def fields (base : Position) (spec : Outline) (key nothingExpected : String) (errors : List FieldError) :
    List Diagnostic :=
  match Outline.find base key spec.parts with
  | .missing => [⟨.error, spec.absoluteRange base, nothingExpected⟩]
  | .faulty found => found
  | .part o => errors.flatMap (fieldError base o)

/-- The diagnostics for the parts of a result, below the specification of its test. -/
def parts (base : Position) (spec : Outline) (r : TestResult) : List Diagnostic :=
  (if r.hasMismatches then inputs base spec (r.mismatches.getD []) else []) ++
    (if r.hasResourceErrors then
      fields base spec "expected_resource" "Resource unexpectedly modified." (r.resourceErrors.getD [])
    else []) ++
    if r.hasOutcomeErrors then
      fields base spec "expected_return" "Outcome unexpectedly reached." (r.outcomeErrors.getD [])
    else []

/-- The diagnostics for a failed test whose outline is known. -/
def ofAnchor (anchor : Anchor) (ranges : List (String × Range)) (name : String) (r : TestResult) :
    Except Fault (List Diagnostic) := do
  let failures ←
    if r.hasMessages then
      match ranges.lookup name with
      | some range => pure [⟨.error, range, "Failures: " ++ "; ".intercalate (r.messages.getD [])⟩]
      | none => .error .noEntry
    else pure []
  match Outline.find anchor.absolute "spec" anchor.parts with
  | .missing => return failures
  | .faulty found => return failures ++ found
  | .part spec => return failures ++ parts anchor.absolute spec r

/-- The diagnostics for the result of a test. -/
def ofResult (cache : Cache) (tests : List String) (ranges : List (String × Range)) (name : String) (r : TestResult) :
    Except Fault (List Diagnostic) :=
  if r.success || !tests.contains name then .ok []
  else
    match cache.get? "FunctionTest" name with
    | none => .ok []
    | some entry =>
      if !entry.resource.isThere then .ok []
      else
        match entry.source?.bind Provenance.anchor? with
        | none => .ok []
        | some anchor => ofAnchor anchor ranges name r

/-- The diagnostics for results, of the tests that were asked for. -/
def ofResults (cache : Cache) (tests : List String) (ranges : List (String × Range)) :
    TestResults → Except Fault (List Diagnostic)
  | [] => .ok []
  | (name, r) :: rest => do
    let first ← ofResult cache tests ranges name r
    let others ← ofResults cache tests ranges rest
    return first ++ others

end TestReport

/-- What running tests gives; parts that do not arise are absent. -/
structure TestRunReport where
  results : Option TestResults := none
  logs : Option (List Log) := none
  diagnostics : Option (List Diagnostic) := none
  deriving Inhabited

/-- Runs tests and reports on them. -/
def TestRunReport.run (services : Services) (cache : Cache) (tests : List String) (functions : Functions)
    (ranges : List (String × Range)) : Except Fault TestRunReport :=
  if tests.isEmpty && functions.isEmpty then .ok {}
  else do
    let (results, logs) ← runTests services cache tests functions
    if results.isEmpty then return { logs := some logs }
    else
      let diagnostics ← TestReport.ofResults cache tests ranges results
      return { results := some results, logs := some logs, diagnostics := some diagnostics }

end ManifestLens
