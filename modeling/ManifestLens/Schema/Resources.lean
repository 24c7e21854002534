import ManifestLens.Schema.Basic

/-!
# The schema of resources

What is known about the manifests of functions, workflows, tests and templates.  Several kinds share the entries for
what they have in common.
-/

namespace ManifestLens

namespace Plan

/-- A value of the given kind. -/
def value (kind : TokenKind) : Plan :=
  .leaf { kind := kind }

/-- A property about whose value nothing is known. -/
def property : Plan :=
  .leaf { kind := .property }

/-- A property with a value. -/
def propertyOf (inner : Plan) : Plan :=
  .each { kind := .property } inner

/-- A parameter with a value of the given kind. -/
def parameter (kind : TokenKind) : Plan :=
  .each { kind := .parameter } (value kind)

/-- A property that is found by a key, with a value that is found by another. -/
def keyed (key valueKey : String) : Plan :=
  .each { kind := .property, localKey := some (.constant key) } (.leaf { localKey := some (.constant valueKey) })

/-- A mapping with these names only. -/
def strictly (kind : TokenKind) (members : List (String × Plan)) : Plan :=
  .fields { kind := kind, strict := true } members

end Plan

open Plan (value property propertyOf parameter keyed strictly)

/-- The fields of a reference to a function. -/
def referenceFields : List (String × Plan) :=
  [("kind", propertyOf (value .type)), ("name", propertyOf (value .function))]

/-- A reference to a function. -/
def referencePlan : Plan :=
  propertyOf (.fields { strict := true, refers := true } referenceFields)

/-- How resources are reached through the cluster's interface. -/
def interfacePlan : Plan :=
  strictly .property
    [("apiVersion", parameter .namespace_), ("kind", parameter .type), ("plural", parameter .number),
      ("namespaced", parameter .number), ("owned", parameter .number), ("deleteIfExists", parameter .number),
      ("readonly", parameter .number), ("name", parameter .string), ("namespace", parameter .string)]

/-- Inputs by name, found as a whole by the given key. -/
def inputsPlan (key : String) : Plan :=
  .each { kind := .property, localKey := some (.constant key) }
    (.fields { localKey := some (.constant "input-values") }
      [(anyName, .leaf { kind := .variable, localKey := some (.around "input:" "") })])

/-- What an outcome says. -/
def messageField : String × Plan :=
  ("message", propertyOf (value .string))

/-- Conditions and the outcomes to which they lead. -/
def validatorsPlan : Plan :=
  strictly .property
    [("assert", propertyOf (value .string)), ("ok", strictly .property []),
      ("skip", strictly .property [messageField]), ("depSkip", strictly .property [messageField]),
      ("retry", strictly .property [messageField, ("delay", propertyOf (value .number))]),
      ("permFail", strictly .property [messageField])]

/-- A property with values of any names. -/
def localsPlan : Plan :=
  propertyOf (.each {} property)

/-- A condition that a step reports. -/
def conditionPlan : Plan :=
  strictly .property [("type", propertyOf (value .type)), ("name", property)]

/-- The name by which a resource is defined. -/
def definitionPlan (resource : String) (kind : TokenKind) : Plan :=
  .each {} (.leaf
    { kind := kind, modifiers := some [.definition], indexKey := some (.around (resource ++ ":") ":def") })

/-- The slots that several kinds share. -/
structure SharedSlots where
  apiVersion : Slot
  kind : Slot
  namespace_ : Slot
  reference : Slot
  interface : Slot
  inputs : Slot
  overrides : Slot
  validators : Slot

def SharedSlots.build : StateM Schema SharedSlots := do
  let apiVersion ← (Plan.each {}
    (.leaf { kind := .namespace_, localKey := some (.constant "api_version") })).build
  let kind ← (Plan.each {} (.leaf { kind := .type, localKey := some (.constant "kind") })).build
  let namespace_ ← (Plan.each {} (value .namespace_)).build
  let reference ← referencePlan.build
  let interface ← interfacePlan.build
  let inputs ← (inputsPlan "inputs").build
  let overrides ← (inputsPlan "input_overrides").build
  let validators ← validatorsPlan.build
  return ⟨apiVersion, kind, namespace_, reference, interface, inputs, overrides, validators⟩

namespace SharedSlots

/-- The fields that all manifests have, around the specification. -/
def manifest (s : SharedSlots) (metadata : Plan) (spec : List (String × Plan)) : Plan :=
  .fields {} ([("apiVersion", .shared s.apiVersion), ("kind", .shared s.kind), ("metadata", metadata)] ++ spec)

/-- The fields of metadata. -/
def metadataFields (s : SharedSlots) (name : Plan) : Plan :=
  .fields {} [("name", name), ("namespace", .shared s.namespace_)]

def resourceFunction (s : SharedSlots) : Plan :=
  s.manifest (s.metadataFields (definitionPlan "ResourceFunction" .function))
    [("spec", strictly .unset
      [("preconditions", .shared s.validators),
        ("locals", localsPlan),
        ("apiConfig", .shared s.interface),
        ("resourceTemplateRef", strictly .property
          [("name", propertyOf (.leaf
            { kind := .string, indexKey := some (.unlessExpression "ResourceTemplate:" ":ref") }))]),
        ("resource", property),
        ("overlays", .each { kind := .property, strict := true } (strictly .property
          [("skipIf", property), ("overlay", property), ("overlayRef", .shared s.reference),
            ("inputs", .shared s.inputs)])),
        ("create", strictly .property
          [("enabled", parameter .number), ("delay", parameter .number), ("overlay", property)]),
        ("update", strictly .property
          [("patch", strictly .parameter [("delay", value .number)]),
            ("recreate", strictly .parameter [("delay", value .number)]),
            ("never", strictly .parameter [])]),
        ("delete", strictly .property
          [("abandon", strictly .parameter []), ("destroy", strictly .parameter [])]),
        ("postconditions", .shared s.validators),
        ("return", property)])]

def valueFunction (s : SharedSlots) : Plan :=
  s.manifest (s.metadataFields (definitionPlan "ValueFunction" .function))
    [("spec", strictly .unset
      [("preconditions", .shared s.validators), ("locals", localsPlan), ("return", localsPlan)])]

/-- The cases of a reference that depends on a value. -/
def casesPlan : Plan :=
  propertyOf (.each { strict := true } (.fields { strict := true, refers := true }
    ([("case", propertyOf (value .string)), ("default", propertyOf (value .number))] ++ referenceFields)))

/-- A step of a workflow. -/
def stepPlan (s : SharedSlots) : Plan :=
  .fields { localKey := some .step, strict := true }
    [("label", propertyOf (.leaf
        { kind := .event, modifiers := some [.definition], localKey := some (.around "label:" "") })),
      ("ref", .shared s.reference),
      ("refSwitch", .each { kind := .property, strict := true } (strictly .property
        [("switchOn", property), ("cases", casesPlan)])),
      ("inputs", .shared s.inputs),
      ("skipIf", propertyOf (value .string)),
      ("forEach", .fields { kind := .property, localKey := some (.constant "for_each") }
        [("itemIn", value .argument),
          ("inputKey", .each { kind := .argument }
            (.leaf { kind := .parameter, localKey := some (.around "input:" "") })),
          ("state", property),
          ("condition", conditionPlan)]),
      ("condition", conditionPlan),
      ("state", property)]

def workflow (s : SharedSlots) : Plan :=
  s.manifest (.each {} (s.metadataFields (definitionPlan "Workflow" .class_)))
    [("spec", strictly .unset
      [("crdRef", strictly .typeParameter
          [("apiGroup", parameter .namespace_), ("version", parameter .string), ("kind", parameter .class_)]),
        ("steps", .each {} (.each {} s.stepPlan)),
        ("status", strictly .property
          [("conditions", propertyOf (strictly .unset
              [("type", propertyOf (value .type)), ("name", property), ("step", property)])),
            ("state", property)])])]

/-- A case of a function's test. -/
def testCasePlan (s : SharedSlots) : Plan :=
  .fields { kind := .property, localKey := some (.constant "test-case-body") }
    [("label", .each { kind := .property, localKey := some (.constant "label") } (value .string)),
      ("variant", propertyOf (value .number)),
      ("skip", propertyOf (value .number)),
      ("currentResource", keyed "current-resource" "current-resource-value"),
      ("overlayResource", keyed "overlay-resource" "overlay-resource-value"),
      ("inputOverrides", .shared s.overrides),
      ("expectResource", keyed "expected-resource" "expected-value"),
      ("expectOutcome", .shared s.validators),
      ("expectReturn", keyed "expected-return" "expected-value"),
      ("expectDelete", propertyOf (value .number))]

def functionTest (s : SharedSlots) : Plan :=
  s.manifest (.each {} (s.metadataFields (definitionPlan "FunctionTest" .function)))
    [("spec", .fields { localKey := some (.constant "spec"), strict := true }
      [("functionRef", .shared s.reference),
        ("currentResource", keyed "current-resource" "current-value"),
        ("inputs", .shared s.inputs),
        ("testCases", .each { kind := .property, localKey := some (.constant "test-cases") }
          (.each {} s.testCasePlan)),
        ("expectResource", keyed "expected_resource" "expected_value"),
        ("expectOutcome", .shared s.validators),
        ("expectReturn", keyed "expected_return" "expected_value")])]

def resourceTemplate (s : SharedSlots) : Plan :=
  s.manifest (.each {} (s.metadataFields (definitionPlan "ResourceTemplate" .function)))
    [("spec", strictly .unset [("template", property)])]

/-- Manifests of other kinds. -/
def otherManifest (s : SharedSlots) : Plan :=
  s.manifest (.each {} (s.metadataFields (.each {} (.leaf { modifiers := some [.definition] })))) []

end SharedSlots

/-- The schema with the slot of each kind. -/
structure ResourceSchema where
  schema : Schema
  kinds : List (String × Slot)

/-- Puts the plans of all kinds into a schema. -/
def ResourceSchema.build : StateM Schema (List (String × Slot)) := do
  let s ← SharedSlots.build
  Plan.buildMembers
    [("ResourceFunction", s.resourceFunction), ("ValueFunction", s.valueFunction), ("Workflow", s.workflow),
      ("FunctionTest", s.functionTest), ("ResourceTemplate", s.resourceTemplate), (anyName, s.otherManifest)]

/-- The schema as it is before anything is read with it. -/
def ResourceSchema.initial : ResourceSchema :=
  let (kinds, schema) := ResourceSchema.build #[]
  ⟨schema, kinds⟩

end ManifestLens
