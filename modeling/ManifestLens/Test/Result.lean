import ManifestLens.Fault
import ManifestLens.Inputs.Compare
import ManifestLens.Resource.Basic
import ManifestLens.Value.Compare

/-!
# Results of tests

A test checks the inputs that it gives to the function under test, and then runs its cases.
-/

namespace ManifestLens

/-- A field that came out other than expected. -/
structure FieldError where
  field : String
  expected : Value
  actual : Value
  deriving Inhabited

/-- What a test gave; a part that was not looked at is absent. -/
structure TestResult where
  success : Bool
  messages : Option (List String) := none
  resourceErrors : Option (List FieldError) := none
  outcomeErrors : Option (List FieldError) := none
  mismatches : Option (List Inputs.Mismatch) := none
  actualResource : Option Value := none
  actualReturn : Option Value := none
  missingAssertion : Bool := false
  deriving Inhabited

namespace TestResult

/-- There are mismatches. -/
def hasMismatches (r : TestResult) : Bool :=
  !(r.mismatches.getD []).isEmpty

/-- There are messages. -/
def hasMessages (r : TestResult) : Bool :=
  !(r.messages.getD []).isEmpty

/-- There are errors in fields of the resource. -/
def hasResourceErrors (r : TestResult) : Bool :=
  !(r.resourceErrors.getD []).isEmpty

/-- There are errors in fields of the outcome. -/
def hasOutcomeErrors (r : TestResult) : Bool :=
  !(r.outcomeErrors.getD []).isEmpty

end TestResult

/-- The message for a case, unless it passed or has nothing to say. -/
def CaseResult.failure? (c : CaseResult) : Option String :=
  if c.passed then none
  else if c.message.truthy then some s!"{c.label.text}: {c.message.text}"
  else if c.differences.truthy then some s!"{c.label.text}: {c.differences.text}"
  else none

/-- The result of a finished run. -/
def TestResult.ofCases (cases : List CaseResult) (mismatches : List Inputs.Mismatch) : TestResult :=
  let failures := cases.filterMap CaseResult.failure?
  let (success, message) :=
    if cases.isEmpty then (true, "No tests run.")
    else if failures.isEmpty then (true, s!"### {cases.length} Tests passed")
    else (false, "### Test Failures\n" ++ "\n".intercalate failures)
  { success := success, messages := some [message], mismatches := some mismatches }

/-- The names of the inputs that a test gives. -/
def inputNames (inputs : Value) : Except Fault (List Value) :=
  if !inputs.truthy then .ok []
  else
    match inputs with
    | .map entries => .ok (entries.map (·.1))
    | _ => .error .noField

/-- Runs a test. -/
def FunctionTest.result (t : FunctionTest) : Except Fault TestResult :=
  match t.subject with
  | .nothing => .error .noField
  | .outcome o =>
    if o.isOk then .error .noField else .ok { success := false, messages := some [o.text] }
  | .function keys => do
    let mismatches := Inputs.mismatches (← inputNames t.inputs) keys
    match t.run with
    | .broken reason =>
      return { success := false, messages := some [s!"Unknown {reason}."], mismatches := some mismatches }
    | .finished cases => return .ofCases cases mismatches

/-- Runs a test, or reports what stands in its place. -/
def Resource.testResult : Resource → Except Fault TestResult
  | .functionTest t => t.result
  | .outcome o => if o.isOk then .error .noField else .ok { success := false, messages := some [o.message] }
  | _ => .error .noField

end ManifestLens
