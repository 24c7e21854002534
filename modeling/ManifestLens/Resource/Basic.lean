import ManifestLens.Value.Text

/-!
# Prepared resources

What the preparation of a manifest gives: a workflow with its steps, a test with the function that it tests, a function
or template, or an outcome in place of the resource.
-/

namespace ManifestLens

/-- The ways in which something can come out. -/
inductive OutcomeKind where
  | permFail | retry | skip | depSkip | ok
  deriving DecidableEq, Inhabited

def OutcomeKind.name : OutcomeKind → String
  | .permFail => "PermFail"
  | .retry => "Retry"
  | .skip => "Skip"
  | .depSkip => "DepSkip"
  | .ok => "Ok"

/-- How something came out. -/
structure Outcome where
  kind : OutcomeKind
  message : String
  deriving DecidableEq, Inhabited

def Outcome.isOk (o : Outcome) : Bool :=
  o.kind == .ok

/-- An outcome in a message. -/
def Outcome.text (o : Outcome) : String :=
  s!"{o.kind.name}({o.message})"

/-- What a step runs, with the keys that it reads: a function or a choice of functions, or a workflow. -/
inductive Logic where
  | function (keys : List String)
  | workflow (keys : List String)
  | other
  deriving DecidableEq, Inhabited

/-- What a step does, or why it cannot. -/
inductive StepBody where
  | runs (logic : Logic)
  | broken (message : String)
  deriving DecidableEq, Inhabited

/-- A step of a workflow. -/
structure Step where
  label : String
  body : StepBody
  deriving DecidableEq, Inhabited

/-- A prepared workflow; `readiness` is the outcome of its steps, where they have one. -/
structure Workflow where
  steps : List Step
  readiness : Option Outcome
  deriving DecidableEq, Inhabited

/-- The result of one case of a test. -/
structure CaseResult where
  passed : Bool
  label : Value
  message : Value
  differences : Value
  deriving Inhabited

/-- What running a test gives: results by case, or the reason why it broke off. -/
inductive TestRun where
  | finished (results : List CaseResult)
  | broken (reason : String)
  deriving Inhabited

/-- The function that a test tests: one that reads some keys, an outcome in its place, or nothing. -/
inductive Subject where
  | function (keys : List String)
  | outcome (o : Outcome)
  | nothing
  deriving DecidableEq, Inhabited

/-- A prepared test of a function. -/
structure FunctionTest where
  inputs : Value
  subject : Subject
  run : TestRun
  deriving Inhabited

/-- A prepared resource, or what stands in its place. -/
inductive Resource where
  | nothing
  | outcome (o : Outcome)
  | workflow (w : Workflow)
  | functionTest (t : FunctionTest)
  | other
  deriving Inhabited

namespace Resource

/-- There is a resource, or an outcome in its place. -/
def isThere : Resource → Bool
  | .nothing => false
  | _ => true

/-- The outcome that keeps a resource from being used: any but a good one. -/
def trouble? : Resource → Option Outcome
  | .outcome o => if o.isOk then none else some o
  | _ => none

end Resource

end ManifestLens
