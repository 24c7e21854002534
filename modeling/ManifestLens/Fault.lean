import ManifestLens.Text.Quoted
import ManifestLens.Yaml.Error

/-!
# Faults

What can go wrong while manifests are read and analysed.
-/

namespace ManifestLens

/-- Why something could not be computed. -/
inductive Fault where
  /-- A field was asked of something that has none of that name. -/
  | noField
  /-- A value of a type that the operation does not take. -/
  | wrongType
  /-- A mapping has no such entry. -/
  | noEntry
  /-- A text or list has no such place. -/
  | outOfRange
  /-- A text stands for no number, date or time. -/
  | badNumber
  /-- A text is no JSON. -/
  | badJson
  /-- A YAML text is broken. -/
  | yaml (error : Yaml.Error) (source : List Char)
  /-- An expression goes on with something that no token starts with. -/
  | unlexable (rest : List Char)
  /-- A key cannot be made of what a node holds. -/
  | unreadableKey (content reason : String)
  /-- A value of the given type stands where a part of an outline is wanted. -/
  | notOutline (typeName : String)
  /-- A manifest that holds itself. -/
  | endless
  deriving DecidableEq, Inhabited

/-- The text of a fault that tells more than its kind. -/
def Fault.message? : Fault → Option String
  | .yaml (.codePoint _) _ => none
  | .yaml error source => some (error.message source)
  | .unlexable rest => some s!"No match: {Text.quoted (String.ofList rest)}"
  | .unreadableKey content reason => some s!"Failed to process '{content}', with {reason}"
  | .notOutline typeName => some s!"Bad node type ({typeName})"
  | _ => none

end ManifestLens
