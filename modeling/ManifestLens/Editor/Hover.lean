import ManifestLens.Test.Run
import ManifestLens.Workflow.Check

/-!
# Hovers

What an editor shows for the key under the cursor: the state of the resource that it names, the result of a test with
its mismatches as tables, or the check of a step of a workflow.
-/

namespace ManifestLens

/-- A text to show for a stretch of the file. -/
structure Hover where
  text : String
  range : Range
  deriving DecidableEq, Inhabited

namespace Hover

/-- A hover of several lines. -/
def ofLines (lines : List String) (range : Range) : Hover :=
  ⟨"\n".intercalate lines, range⟩

/-- The state of a workflow. -/
def workflowLines (name : String) (resource : Resource) : Except Fault (List String) :=
  match resource with
  | .nothing => .ok [s!"Workflow {name} not in Koreo Cache"]
  | .outcome o => if o.isOk then .error .noField else .ok ["Workflow not ready", o.message]
  | .workflow w =>
    match w.readiness.filter fun o => !o.isOk with
    | some o => .ok ["Workflow steps not ready", o.message]
    | none => .ok ["Workflow prepared successfully."]
  | _ => .error .noField

/-- The state of a template. -/
def templateLines (name : String) (resource : Resource) : List String :=
  if !resource.isThere then [s!"ResourceTemplate {name} not in Koreo Cache"]
  else
    match resource.trouble? with
    | some o => ["Resource template not ready", o.message]
    | none => ["ResourceTemplate prepared successfully."]

/-- The state of a function. -/
def functionLines (resource : Resource) : List String :=
  if !resource.isThere then ["*Not cached*"]
  else
    match resource.trouble? with
    | some o => ["Function not ready", o.message]
    | none => ["Structure is OK"]

/-- The row of a test in the table of a function. -/
def testRow (name : String) (r : TestResult) : String :=
  let status := if r.success then "Pass" else "Fail"
  let warnings := if r.hasMismatches || r.hasMessages then "warnings" else ""
  s!"| `{name}` | {status} | {warnings} |"

/-- The table of the tests of a function that have run. -/
def testTable (services : Services) (kind name : String) (results : TestResults) : List String :=
  let ran := (testsOf services [(kind, [name])]).filter fun test => (results.lookup test).isSome
  let rows := (Inputs.distinct ran).filterMap fun test => (results.lookup test).map (testRow test)
  if rows.isEmpty then []
  else ["## Test Results", "| Test | Status | Warnings |", "|:-|-:|:-:|"] ++ rows

/-- What is wrong with an input. -/
def issue (m : Inputs.Mismatch) : String :=
  if m.actual && !m.expected then "unexpected" else if m.expected && !m.actual then "*missing*" else "_unknown_"

/-- The table of mismatches of inputs, under a title. -/
def mismatchTable (title : String) (mismatches : List Inputs.Mismatch) : List String :=
  if mismatches.isEmpty then []
  else
    [title, "| Field | Issue | Severity |", "|:-|-:|:-:|"] ++
      (mismatches.map fun m => s!"| `{m.field}` | {issue m} | {m.weight.name} |") ++ ["\n"]

/-- The table of fields that came out other than expected, under a title. -/
def fieldTable (title : String) (errors : List FieldError) : List String :=
  if errors.isEmpty then []
  else
    [title, "| Field | Actual | Expected |", "|:-|-:|-:|"] ++
      (errors.map fun e => s!"| `{e.field}` | {e.actual.text} | {e.expected.text} |") ++ ["\n"]

/-- The messages of a test, under a title. -/
def notes (title : String) (r : TestResult) : List String :=
  if r.hasMessages then title :: r.messages.getD [] else []

/-- The result of a test. -/
def resultLines (r : TestResult) : List String :=
  if r.success then
    "# *Success*" :: notes "## Test Notes" r ++ mismatchTable "## Unused Inputs" (r.mismatches.getD [])
  else
    "# *Error*" :: notes "## Failure" r ++ mismatchTable "## Input Mismatches" (r.mismatches.getD []) ++
      fieldTable "## Field Mismatches" (r.resourceErrors.getD []) ++
      fieldTable "## Outcome Mismatches" (r.outcomeErrors.getD [])

/-- The state of a step: the last of its diagnostics counts. -/
def stepText (base : Position) (step : Step) (block : Outline) (spec : Value) : Except Fault String :=
  match step.body with
  | .broken message => .ok s!"Not ready {message}."
  | .runs logic => do
    let check ← StepCheck.ofLogic base step.label logic block spec []
    if !check.error then return "*Ok*"
    else
      match check.diagnostics.getLast? with
      | some d => return s!"*Error*\n{d.message}"
      | none => .error .wrongType

/-- The steps of a resource that has some. -/
def stepsOf : Resource → Except Fault (List Step)
  | .workflow w => .ok w.steps
  | _ => .error .noField

/-- The hover for the step under `key` of a workflow that is kept in the cache. -/
def stepIn (entry : CacheEntry) (anchor : Anchor) (key label : String) : Except Fault (Option Hover) :=
  match Outline.search key anchor.parts, Outline.search s!"label:{label}" anchor.parts with
  | [block], [labelled] => do
    match (← stepsOf entry.resource).find? (·.label == label) with
    | none => return none
    | some step =>
      let text ← stepText anchor.absolute step block entry.spec
      return some ⟨text, labelled.absoluteRange anchor.absolute⟩
  | _, _ => .ok none

/-- The label of a step by its key: what follows the colon, if there is only one. -/
def label? (key : String) : Option String :=
  match key.toList.dropWhile (· != ':') with
  | [] => none
  | _ :: rest => if rest.contains ':' then none else some (String.ofList rest)

/-- The hover for the step under a local key of a workflow. -/
def ofStep (cache : Cache) (workflow key : String) : Except Fault (Option Hover) :=
  match (cache.get? "Workflow" workflow).bind fun e => (e.source?.bind (·.anchor)).map (e, ·) with
  | none => .ok none
  | some (entry, anchor) =>
    match label? key with
    | none => .ok none
    | some label =>
      match anchor with
      | none => .error .noField
      | some a => stepIn entry a key label

/-- The text after the first colon, or all of it if there is none. -/
def afterColon (key : String) : String :=
  match key.toList.dropWhile (· != ':') with
  | [] => key
  | _ :: rest => String.ofList rest

/-- The hover for a resource that a key names. -/
def ofResource (services : Services) (cache : Cache) (results : TestResults) (kind name : String) (range : Range) :
    Except Fault (Option Hover) :=
  let title := s!"# {name}"
  match kind with
  | "Workflow" => do
    let lines ← workflowLines name (cache.resource "Workflow" name)
    return some (ofLines (title :: lines) range)
  | "FunctionTest" =>
    match results.lookup name with
    | none => .ok (some ⟨"*Test has not ran*", range⟩)
    | some r => .ok (some (ofLines (resultLines r) range))
  | "ResourceTemplate" =>
    .ok (some (ofLines (title :: templateLines name (cache.resource "ResourceTemplate" name)) range))
  | "ResourceFunction" | "ValueFunction" =>
    .ok (some (ofLines
      (title :: functionLines (cache.resource kind name) ++ testTable services kind name results) range))
  | _ => .ok none

/-- The hover for a key of the index, or for a local key inside of a workflow. -/
def ofKey (services : Services) (cache : Cache) (results : TestResults) (key : String) (range : Range)
    (localKey : Option String) : Except Fault (Option Hover) :=
  match KeyPattern.mention.match? key with
  | some m => ofResource services cache results (m.kind.getD "") m.name range
  | none =>
    match localKey with
    | some step =>
      if key.startsWith "Workflow:" && step.startsWith "Step:" then ofStep cache (afterColon key) step
      else .ok none
    | none => .ok none

end Hover

end ManifestLens
