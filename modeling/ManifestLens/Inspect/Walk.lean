import ManifestLens.Inspect.Paint
import ManifestLens.Json.Reader
import ManifestLens.Json.Writer
import ManifestLens.Value.Field

/-!
# Walking the resources of a cluster

A resource is shown, and then the resources that it manages, which it lists by step in an annotation.  A step manages
one resource, several, or those of a workflow inside of it.
-/

namespace ManifestLens.Inspect

/-! ### Clusters -/

/-- What a cluster answers with: an object, or something else. -/
inductive Item where
  | object (raw : Entries)
  | plain (v : Value)

/-- The answer of a cluster. -/
inductive Reply where
  | many (items : List Item)
  | one (item : Item)

/-- A cluster answers to a kind, a name and a namespace. -/
abbrev Cluster := Value → Value → Value → Reply

/-- An answer as several items, if it is that; a plain list counts as several. -/
def Reply.items? : Reply → Option (List Item)
  | .many items => some items
  | .one (.plain (.list values)) => some (values.map .plain)
  | .one _ => none

/-! ### Output -/

/-- Why a walk stops early. -/
inductive Stop where
  | fault (f : Fault)
  | exit (code : Nat)
  deriving DecidableEq, Inhabited

/-- Printing, with a reason to stop. -/
abbrev Printing := ExceptT Stop (StateM String)

namespace Printing

/-- Prints a line. -/
def say (line : String) : Printing Unit :=
  modify fun out => out ++ line ++ "\n"

/-- Stops by a fault. -/
def fail {α : Type} (f : Fault) : Printing α :=
  throw (.fault f)

/-- A result that may be a fault. -/
def of {α : Type} : Except Fault α → Printing α
  | .ok a => pure a
  | .error f => fail f

/-- What is printed, and why printing stopped, if it did so early. -/
def output (p : Printing Unit) : String × Option Stop :=
  match p.run.run "" with
  | (.ok _, out) => (out, none)
  | (.error stop, out) => (out, some stop)

end Printing

open Printing

/-! ### Texts -/

/-- The value of a name that has to be there. -/
def required (entries : Entries) (name : String) : Except Fault Value :=
  match entries.get? name with
  | some v => .ok v
  | none => .error .noEntry

/-- A field of the metadata. -/
def metadataField (raw : Entries) (name : String) : Except Fault Value := do
  match ← required raw "metadata" with
  | .map entries =>
    match Entries.get? entries name with
    | some v => return v
    | none => .error .noField
  | _ => .error .noField

/-- A resource by its version, kind, name, namespace and identity. -/
def resourceText (raw : Entries) : Except Fault String := do
  let apiVersion ← required raw "apiVersion"
  let kind ← required raw "kind"
  let name ← metadataField raw "name"
  let scope ← metadataField raw "namespace"
  let uid ← metadataField raw "uid"
  return "\n" ++ labelled 0 "apiVersion" (paint .apiVersion apiVersion.text) ++
    labelled 0 "kind" (paint .kind kind.text) ++ paint .label "metadata" ++ ":\n" ++
    labelled 8 "name" (paint .name name.text) ++
    "    " ++ labelled 0 "namespace" (paint .scope scope.text) ++
    "    " ++ labelled 0 "uid" uid.text

/-- The value of a field of a condition. -/
def conditionField (condition : Entries) (name : String) : String :=
  ((condition.get? name).getD (.str "<missing>")).text

/-- A condition in the status of a resource. -/
def conditionText (condition : Entries) : String :=
  let field (name : String) : String := conditionField condition name
  "\n" ++ labelled 18 "type" (paint .apiVersion (field "type")) ++
    labelled 18 "reason" (paint .kind (field "reason")) ++
    labelled 18 "message" (field "message") ++
    labelled 18 "location" (field "location") ++
    labelled 18 "status" (field "status") ++
    labelled 18 "lastTransitionTime" (field "lastTransitionTime") ++
    labelled 18 "lastUpdateTime" (field "lastUpdateTime")

/-! ### Parts of a resource -/

/-- Prints the conditions of a resource, one after the other. -/
def sayConditions : List Value → Printing Unit
  | [] => pure ()
  | .map condition :: rest => do
    say (conditionText condition)
    sayConditions rest
  | _ :: _ => fail .wrongType

/-- Prints the conditions in the status of a resource, if it has some. -/
def sayStatus (raw : Entries) : Printing Unit :=
  match raw.get? "status" with
  | none => pure ()
  | some status => do
    let conditions ← of (status.lookup "conditions")
    if conditions.truthy then
      say "Conditions:"
      match conditions.members? with
      | some members => sayConditions members
      | none => fail .wrongType

/-- Prints the data of a resource, as far as is asked for: with three levels all of it, with two the specification. -/
def sayData (verbosity : Nat) (raw : Entries) : Printing Unit :=
  if verbosity > 2 then say (Json.indented (.map raw))
  else if verbosity > 1 then
    match raw.get? "spec" with
    | some spec => say (Json.indented spec)
    | none => pure ()
  else pure ()

/-- The annotation that lists the managed resources. -/
def managedAnnotation : String := "koreo.dev/managed-resources"

/-- The list of managed resources in the annotations of a resource, or null. -/
def managedText (raw : Entries) : Except Fault Value := do
  let metadata := (raw.get? "metadata").getD (.map [])
  let annotations := (← metadata.lookup? "annotations").getD (.map [])
  annotations.lookup managedAnnotation

/-! ### The walk -/

/-- An entry tells of one resource: it has all that is needed to find it. -/
def isReference (entries : Entries) : Bool :=
  ["apiVersion", "kind", "name", "namespace"].all fun name => (entries.get? name).isSome

/-- The line above the managed resources of a step. -/
def stepLine (step : Value) (what : String) : String :=
  s!"Step '{paint .step step.text}' {what}:"

mutual

/-- Loads the resources that steps manage, one step after the other. -/
def walkSteps (load : Value → Printing Unit) : List (Value × Value) → Printing Unit
  | [] => pure ()
  | (step, managed) :: rest => do
    walkStep load step managed
    walkSteps load rest

/-- Loads the resources that a step manages. -/
def walkStep (load : Value → Printing Unit) (step : Value) : Value → Printing Unit
  | .list references => do
    say (stepLine step "managed resources")
    references.forM load
  | .map entries =>
    if isReference entries then do
      say (stepLine step "managed resource")
      load (.map entries)
    else do
      say (stepLine step "managed resources (sub-workflow)")
      walkSteps load entries
  | _ => pure ()

end

/-- Loads managed resources. -/
def walkManaged (load : Value → Printing Unit) : Value → Printing Unit
  | .map entries => walkSteps load entries
  | _ => fail .noField

/-- Shows a resource and loads those that it manages. -/
def inspect (verbosity : Nat) (load : Value → Printing Unit) (raw : Entries) : Printing Unit := do
  say (← of (resourceText raw))
  if verbosity > 0 then sayStatus raw
  sayData verbosity raw
  let managed ← of (managedText raw)
  if managed.truthy then
    match managed with
    | .str text =>
      match Json.read? text with
      | some value => walkManaged load value
      | none => fail .badJson
    | _ => fail .wrongType

/-- The exit code after an answer that is no resource. -/
def badReply : Nat := 10

/-- Stops at an answer that is no resource. -/
def refuse (verbosity : Nat) (v : Value) : Printing Unit := do
  say s!"Unexpected response type from Kubernetes API Server {v.typeText}"
  if verbosity > 0 then say v.text
  throw (.exit badReply)

/-- Shows an item of an answer. -/
def inspectItem (verbosity : Nat) (load : Value → Printing Unit) : Item → Printing Unit
  | .object raw => inspect verbosity load raw
  | .plain v => refuse verbosity v

/-- Shows an answer. -/
def inspectReply (verbosity : Nat) (load : Value → Printing Unit) (reply : Reply) : Printing Unit :=
  match reply.items?, reply with
  | some items, _ => items.forM (inspectItem verbosity load)
  | none, .one item => inspectItem verbosity load item
  | none, .many items => items.forM (inspectItem verbosity load)

/-- Loads the resource that a reference tells of, and those that it manages, down to a depth. -/
def load (cluster : Cluster) (verbosity : Nat) : (depth : Nat) → Value → Printing Unit
  | 0, _ => fail .endless
  | depth + 1, reference =>
    if !reference.truthy then say "No resource"
    else do
      let kind ← of (reference.lookup "kind")
      let name ← of (reference.lookup "name")
      let scope ← of (reference.lookup "namespace")
      inspectReply verbosity (load cluster verbosity depth) (cluster kind name scope)

/-- The depth down to which managed resources are followed. -/
def depthLimit : Nat := 320

end ManifestLens.Inspect
