import ManifestLens.Value.Text

/-!
# Painted text

The colours of a terminal, by what is shown in them.
-/

namespace ManifestLens.Inspect

/-- What is shown in a colour of its own. -/
inductive Role where
  | apiVersion | kind | scope | name | label | step
  deriving DecidableEq, Inhabited

/-- The number of the colour of a role. -/
def Role.color : Role → String
  | .apiVersion => "36"
  | .kind => "94"
  | .scope => "92"
  | .name => "33"
  | .label => "35"
  | .step => "91"

/-- A text in the colour of its role. -/
def paint (role : Role) (text : String) : String :=
  s!"\x1b[{role.color}m{text}\x1b[0m"

/-- A line with a label and a value; `width` is the least width of the label, which stands at its right end. -/
def labelled (width : Nat) (label shown : String) : String :=
  let gap := String.ofList (List.replicate (width - label.length) ' ')
  s!"{gap}{paint .label label}: {shown}\n"

end ManifestLens.Inspect
