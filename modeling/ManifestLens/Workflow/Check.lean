import ManifestLens.Inputs.Compare
import ManifestLens.Outline.Search
import ManifestLens.Resource.Cache
import ManifestLens.Value.Field

/-!
# Checking workflows

A step of a workflow has to provide the inputs that its logic expects, no more and no less.  Diagnostics stand at the
inputs, at the label of the step and at the workflow.
-/

namespace ManifestLens

/-- The names of the inputs that logic expects. -/
def Logic.inputs : Logic → List String
  | .function keys => Inputs.firstTier keys
  | .workflow keys => Inputs.roots keys
  | .other => []

/-- What the check of a step found. -/
structure StepCheck where
  error : Bool
  diagnostics : List Diagnostic
  deriving DecidableEq, Inhabited

namespace StepCheck

/-- A diagnostic at the label of a step, or at the whole step if it has none. -/
def atLabel (base : Position) (label : String) (block : Outline) (message : String) : List Diagnostic :=
  match Outline.find base s!"label:{label}" block.parts with
  | .faulty found => found
  | .missing => [⟨.warning, block.absoluteRange base, message⟩]
  | .part o => [⟨.warning, o.absoluteRange base, message⟩]

/-- The inputs that a step gives, and the name that a loop over items gives besides. -/
def providedInputs (spec : Value) (implicit : List Value) : Except Fault (Entries × List Value) := do
  let given ← spec.lookupEntries "inputs"
  let loop ← spec.lookupEntries "forEach"
  let loopKey := (Entries.get? loop "inputKey").getD .null
  let names := given.map (·.1) ++ implicit ++ if loopKey.truthy then [.str loopKey.text] else []
  return (given, names)

/-- The diagnostics for an input that nothing expects. -/
def unexpected (base : Position) (block : Outline) (given : Entries) (name : Value) : List Diagnostic :=
  match Outline.find base s!"input:{name.text}" block.parts with
  | .missing => []
  | .faulty found => found
  | .part o =>
    let value := ((given.find? name).getD .null).text
    [⟨.warning, o.absoluteRange base, s!"Input ('{name.text}') not expected. {value}."⟩]

/-- The diagnostics for one argument, given where the inputs are, if that is known. -/
def argument (base : Position) (block : Outline) (inputs : Option Outline) (given : Entries)
    (a : Inputs.Argument) : List Diagnostic :=
  match inputs with
  | none => []
  | some o =>
    if a.provided && !a.expected then unexpected base block given a.name
    else if a.expected && !a.provided then
      [⟨.error, o.absoluteRange base, s!"Missing input ('{a.name.text}')."⟩]
    else []

/-- The diagnostics for inputs that stand in several places of a block, and where they are if they stand in one. -/
def inputsIn (base : Position) (block : Outline) : List Diagnostic × Option Outline :=
  match Outline.find base "inputs" block.parts with
  | .faulty found => (found, none)
  | .part o => ([], some o)
  | .missing => ([], none)

/-- The check of a step that runs. -/
def ofLogic (base : Position) (label : String) (logic : Logic) (block : Outline) (spec : Value)
    (implicit : List Value) : Except Fault StepCheck := do
  let (given, names) ← providedInputs spec implicit
  let arguments := Inputs.compare names (logic.inputs.map .str)
  let (repeated, inputs) := inputsIn base block
  let error := !repeated.isEmpty || arguments.any fun a => a.provided != a.expected
  let diagnostics := repeated ++ arguments.flatMap (argument base block inputs given)
  return ⟨error, diagnostics ++ if error then atLabel base label block "Step has errors" else []⟩

/-- The check of a step, by its block in the outline and its specification. -/
def ofStep (base : Position) (step : Step) (block : Outline) (spec : Value) (implicit : List Value) :
    Except Fault StepCheck :=
  match step.body with
  | .broken message => .ok ⟨true, atLabel base step.label block s!"Not ready {message}."⟩
  | .runs logic => ofLogic base step.label logic block spec implicit

end StepCheck

namespace Workflow

/-- The specifications of steps by their labels. -/
def stepSpecs (steps : Value) : Except Fault Entries :=
  if !steps.truthy then .ok []
  else
    match steps.members? with
    | none => .error .wrongType
    | some items => do
      let labelled ← items.mapM fun item => do
        let label ← item.lookup "label"
        if label.isKey then pure (label, item) else .error .wrongType
      return Entries.ofList labelled

/-- The specifications of the steps of a workflow, by the specification of the workflow. -/
def specsOf (spec : Value) : Except Fault Entries := do
  stepSpecs (← spec.lookup "steps")

/-- The specification of the step with a label. -/
def specFor (specs : Entries) (label : String) : Value :=
  (specs.get? label).getD .null

/-- The check of a step where it stands in the outline. -/
def checkStep (anchor : Anchor) (specs : Entries) (step : Step) : Except Fault StepCheck :=
  match Outline.find anchor.absolute s!"Step:{step.label}" anchor.parts with
  | .missing => .ok ⟨false, []⟩
  | .faulty found => .ok ⟨false, found⟩
  | .part block => StepCheck.ofStep anchor.absolute step block (specFor specs step.label) []

/-- The checks of steps one after the other; whether some step is in error, and all diagnostics. -/
def checkSteps (anchor : Anchor) (specs : Entries) : List Step → Except Fault StepCheck
  | [] => .ok ⟨false, []⟩
  | step :: rest => do
    let first ← checkStep anchor specs step
    let others ← checkSteps anchor specs rest
    return ⟨first.error || others.error, first.diagnostics ++ others.diagnostics⟩

/-- The diagnostics for the steps of a workflow that is known at `range`. -/
def checkAll (w : Workflow) (anchor : Anchor) (spec : Value) (range : Range) : Except Fault (List Diagnostic) := do
  let trouble := w.readiness.filter fun o => !o.isOk
  let notReady := trouble.toList.map fun o => ⟨.warning, range, s!"Workflow is not ready ({o.message})."⟩
  if trouble.isSome && !spec.truthy then return notReady
  else
    let specs ← specsOf spec
    if specs.isEmpty && !w.steps.isEmpty then
      return notReady ++ [⟨.warning, range, "Workflow steps are malformed."⟩]
    else
      let found ← checkSteps anchor specs w.steps
      return notReady ++ found.diagnostics ++
        if found.error then [⟨.error, range, "Workflow steps are not ready."⟩] else []

/-- The diagnostics for a workflow in the cache that is named in the file `uri` at `range`. -/
def checkEntry (uri name : String) (range : Range) (entry : CacheEntry) : Except Fault (List Diagnostic) :=
  match entry.source? with
  | none =>
    .ok [⟨.error, range, s!"Workflow ('{name}') missing in Koreo Cache (this _should_ be impossible)."⟩]
  | some source =>
    if !source.isIn uri then
      let other := (source.uri.getD (.str "")).text
      .ok [⟨.error, range,
        s!"Duplicate Workflow ('{name}') detected in ('{other}'), skipping further analysis."⟩]
    else
      match source.anchor? with
      | none =>
        .ok [⟨.error, range, s!"Unknown error processing Workflow ('{name}'), semantic analysis data missing " ++
          "from Koreo cache."⟩]
      | some anchor =>
        match entry.resource with
        | .workflow w => w.checkAll anchor entry.spec range
        | _ => .error .noField

/-- The diagnostics for a workflow that is named in the file `uri` at `range`. -/
def check (cache : Cache) (uri name : String) (range : Range) : Except Fault (List Diagnostic) :=
  let missing : Except Fault (List Diagnostic) :=
    .ok [⟨.error, range, s!"Workflow not yet prepared ({name}) or not in Koreo cache."⟩]
  match cache.get? "Workflow" name with
  | none => missing
  | some entry =>
    if !entry.resource.isThere then missing
    else
      match entry.resource.trouble? with
      | some o => .ok [⟨.error, range, s!"Workflow ({name}) is not ready ({o.message})."⟩]
      | none => checkEntry uri name range entry

/-- The diagnostics for workflows that are named in a file. -/
def checkNamed (cache : Cache) (uri : String) : List (String × Range) → Except Fault (List Diagnostic)
  | [] => .ok []
  | (name, range) :: rest => do
    let first ← check cache uri name range
    let others ← checkNamed cache uri rest
    return first ++ others

end Workflow

end ManifestLens
