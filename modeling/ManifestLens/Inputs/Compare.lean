import ManifestLens.Key.Pattern
import ManifestLens.Value.Text

/-!
# Provided and expected inputs

A call provides inputs, and the logic that it calls expects the inputs that its expressions read.  Each argument of
either side is listed once, in the order in which it first comes, with the sides it is on.
-/

namespace ManifestLens.Inputs

/-- An argument of a call. -/
structure Argument where
  name : Value
  provided : Bool
  expected : Bool

/-- Changes what is known of the argument with a name, or lists it as a new one. -/
def update (known : Argument → Argument) (new : Argument) : List Argument → List Argument
  | [] => [new]
  | a :: rest => if a.name.equals new.name then known a :: rest else a :: update known new rest

/-- Lists an argument as provided only. -/
def addProvided (arguments : List Argument) (name : Value) : List Argument :=
  update (fun a => ⟨a.name, true, false⟩) ⟨name, true, false⟩ arguments

/-- Lists an argument as expected, keeping what is known of it. -/
def addExpected (arguments : List Argument) (name : Value) : List Argument :=
  update (fun a => ⟨a.name, a.provided, true⟩) ⟨name, false, true⟩ arguments

/-- The arguments of both sides. -/
def compare (provided expected : List Value) : List Argument :=
  expected.foldl addExpected (provided.foldl addProvided [])

/-- Without repetitions, each text where it first comes. -/
def distinct (texts : List String) : List String :=
  texts.foldl (fun seen t => if seen.contains t then seen else seen ++ [t]) []

/-- The inputs that expressions read, by the keys that they mention. -/
def firstTier (keys : List String) : List String :=
  distinct (keys.filterMap KeyPattern.input.name?)

/-- The roots of the paths that expressions read. -/
def roots (keys : List String) : List String :=
  distinct (keys.filterMap KeyPattern.root.name?)

/-! ### Mismatches -/

/-- How grave a mismatch is: an input that is missing, or one that nothing expects. -/
inductive Weight where
  | error | warning
  | other (name : String)
  deriving DecidableEq, Inhabited

/-- The name of a weight. -/
def Weight.name : Weight → String
  | .error => "ERROR"
  | .warning => "WARNING"
  | .other name => name

/-- The weight with the given name. -/
def Weight.ofName (name : String) : Weight :=
  if name == "ERROR" then .error else if name == "WARNING" then .warning else .other name

/-- An input that is on one side only. -/
structure Mismatch where
  field : String
  weight : Weight
  expected : Bool
  actual : Bool
  deriving DecidableEq, Inhabited

/-- The mismatches between the provided inputs and the keys that expressions mention: first the inputs that are
missing, then those that nothing expects. -/
def mismatches (provided : List Value) (keys : List String) : List Mismatch :=
  let given := distinct (provided.map fun name => "inputs." ++ name.text)
  let wanted := (firstTier keys).map ("inputs." ++ ·)
  let missing := wanted.filter fun field => !given.contains field
  let extra := given.filter fun field => !wanted.contains field
  missing.map (fun field => ⟨field, .error, true, false⟩) ++
    extra.map fun field => ⟨field, .warning, false, true⟩

end ManifestLens.Inputs
