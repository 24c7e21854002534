/-!
# Ranges of code points

A character class given by a table of closed ranges.
-/

namespace ManifestLens.Text

/-- Closed ranges of code points. -/
abbrev Ranges := List (Nat × Nat)

/-- Some range of the table holds the code point. -/
def Ranges.contains (table : Ranges) (code : Nat) : Bool :=
  table.any fun r => r.1 ≤ code && code ≤ r.2

end ManifestLens.Text
