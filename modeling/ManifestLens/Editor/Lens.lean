import ManifestLens.Outline.Search
import ManifestLens.Test.Run

/-!
# Lenses

A lens offers, above a block of a test that failed, to fill the block in from what the test gave.
-/

namespace ManifestLens

/-- What a lens offers to fill in. -/
inductive LensCommand where
  | inputs | currentResource | expectedResource | expectedReturn
  deriving DecidableEq, Inhabited

namespace LensCommand

def name : LensCommand → String
  | .inputs => "codeLens.completeInputs"
  | .currentResource => "codeLens.completeCurrentResource"
  | .expectedResource => "codeLens.completeExpectedResource"
  | .expectedReturn => "codeLens.completeExpectedReturnValue"

def title : LensCommand → String
  | .inputs => "Autocorrect Inputs"
  | .currentResource => "Autofill current resource"
  | .expectedResource => "Autocorrect expected resource"
  | .expectedReturn => "Autocorrect expected return value"

/-- The commands in the order in which they are offered. -/
def all : List LensCommand :=
  [.inputs, .currentResource, .expectedResource, .expectedReturn]

/-- The command with a given name. -/
def ofName? (name : String) : Option LensCommand :=
  all.find? (·.name == name)

/-- The local key of the block that is filled in. -/
def labelKey : LensCommand → String
  | .inputs => "inputs"
  | .currentResource => "current_resource"
  | .expectedResource => "expected_resource"
  | .expectedReturn => "expected_return"

/-- The local key of the value below that block. -/
def valueKey : LensCommand → String
  | .inputs => "input-values"
  | .currentResource => "current_value"
  | .expectedResource => "expected_value"
  | .expectedReturn => "expected_value"

/-- The result of a test leaves something to fill in. -/
def applies (r : TestResult) : LensCommand → Bool
  | .inputs => r.hasMismatches
  | .currentResource => (r.actualResource.getD .null).truthy && r.missingAssertion
  | .expectedResource => r.hasResourceErrors || r.missingAssertion
  | .expectedReturn => r.hasOutcomeErrors || r.missingAssertion

/-- The command is offered: for the inputs some mismatch has to be one of theirs. -/
def isOffered (r : TestResult) (c : LensCommand) : Bool :=
  c.applies r && (c != .inputs || (r.mismatches.getD []).any fun m => m.field.startsWith "inputs.")

/-- What is logged where a test has no block to fill in. -/
def missingLog (test : String) : LensCommand → List Log
  | .inputs => [⟨.debug, s!"Test ({test}) missing inputs block"⟩]
  | _ => []

/-- What is logged where a test has several blocks to fill in. -/
def repeatedLog (test : String) : LensCommand → Log
  | .inputs => ⟨.debug, s!"Test ({test}) has duplicate inputs blocks"⟩
  | .currentResource => ⟨.debug, s!"FunctionTest ({test}) has multiple currentResource blocks"⟩
  | .expectedResource => ⟨.debug, s!"FunctionTest ({test}) has multiple expectResource blocks"⟩
  | .expectedReturn => ⟨.debug, s!"Test ({test}) has multiple expectReturn blocks"⟩

end LensCommand

/-- An offer above a stretch of a file: to run a command for a test of a version of the file. -/
structure Lens where
  range : Range
  command : LensCommand
  uri : String
  version : Option Int
  test : String
  deriving DecidableEq, Inhabited

namespace Lens

/-- A document as an editor names it. -/
structure Target where
  uri : String
  version : Option Int
  deriving DecidableEq, Inhabited

/-- The lenses for one command. -/
def ofCommand (target : Target) (test : String) (anchor : Anchor) (c : LensCommand) : List Lens × List Log :=
  match Outline.find anchor.absolute c.labelKey anchor.parts with
  | .missing => ([], c.missingLog test)
  | .faulty _ => ([], [c.repeatedLog test])
  | .part o => ([⟨o.absoluteRange anchor.absolute, c, target.uri, target.version, test⟩], [])

/-- The anchor of a failed test that is defined in the file `uri`. -/
def failedIn? (cache : Cache) (uri test : String) (r : TestResult) : Option Anchor :=
  if r.success then none
  else
    (cache.get? "FunctionTest" test).bind fun entry =>
      if !entry.resource.isThere then none
      else entry.source?.bind fun source => if source.isIn uri then source.anchor? else none

/-- The lenses for the result of a test. -/
def ofResult (cache : Cache) (uri : String) (target : Target) (test : String) (r : TestResult) :
    List Lens × List Log :=
  match failedIn? cache uri test r with
  | none => ([], [])
  | some anchor =>
    let found := (LensCommand.all.filter (·.isOffered r)).map (ofCommand target test anchor)
    (found.flatMap (·.1), found.flatMap (·.2))

/-- The lenses for the results of tests; without results there is nothing to say. -/
def ofResults (cache : Cache) (uri : String) (target : Target) (results : TestResults) :
    Option (List Lens × List Log) :=
  if results.isEmpty then none
  else
    let found := results.map fun (test, r) => ofResult cache uri target test r
    some (found.flatMap (·.1), found.flatMap (·.2))

end Lens

end ManifestLens
