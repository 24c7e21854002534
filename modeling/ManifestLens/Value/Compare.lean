import ManifestLens.Fault
import ManifestLens.Value.Text

/-!
# Differences between values

An actual value is compared with an expected one, part by part, and each difference names the field at which it is.
Values of different types differ as a whole; lists of different lengths too.
-/

namespace ManifestLens.Value

/-- A difference at a field. -/
structure Difference where
  field : String
  expected : String
  actual : String
  deriving DecidableEq, Inhabited

/-- A field below another one. -/
def subfield (base : String) (key : Value) : String :=
  if base.isEmpty then key.text else base ++ "." ++ key.text

/-- The keys on one side only. -/
def unmatched (base : String) (actual expected : Entries) : List Difference :=
  ((actual.filter fun e => !expected.has e.1).map fun e => ⟨subfield base e.1, "missing", "..."⟩) ++
    (expected.filter fun e => !actual.has e.1).map fun e => ⟨subfield base e.1, "...", "missing"⟩

mutual

/-- The differences between two values. -/
def differences (field : String) : Value → Value → List Difference
  | .map xs, .map ys => unmatched field xs ys ++ entryDifferences field xs ys
  | .list xs, .list ys =>
    if xs.length ≠ ys.length then [⟨field, s!"{ys.length} items", s!"{xs.length} items"⟩]
    else itemDifferences field 0 xs ys
  | x, y =>
    if x.typeName ≠ y.typeName then [⟨field, y.typeText, x.typeText⟩]
    else if x.equals y then []
    else [⟨field, y.text, x.text⟩]

/-- The differences between the items of two lists, numbered from `n` on. -/
def itemDifferences (field : String) (n : Nat) : List Value → List Value → List Difference
  | x :: xs, y :: ys => differences s!"{field}[{n}]" x y ++ itemDifferences field (n + 1) xs ys
  | _, _ => []

/-- The differences between the values of the keys on both sides. -/
def entryDifferences (base : String) : List (Value × Value) → List (Value × Value) → List Difference
  | [], _ => []
  | (k, x) :: rest, ys =>
    (match Entries.find? ys k with
      | some y => differences (subfield base k) x y
      | none => []) ++ entryDifferences base rest ys

end

/-- The differences between an actual and an expected mapping, either of which may be missing; where nothing is
expected anything will do. -/
def check (actual expected : Value) : Except Fault (List Difference) :=
  match expected, actual with
  | .null, _ => .ok []
  | _, .null => .ok [⟨"", "...", "missing"⟩]
  | .map ys, .map xs => .ok (differences "" (.map xs) (.map ys))
  | _, _ => .error .noField

end ManifestLens.Value
