import ManifestLens.Decimal.Shortest

/-!
# How floating-point numbers are written

One layout serves every output: the shortest digits, positional from `0.0001` up to `10 ^ 16`, with an exponent of at
least two digits otherwise.  Outputs differ only in the names of the infinities and of what is not a number, and in
whether a significand of one digit gets a point before the exponent.
-/

namespace ManifestLens.Decimal

/-- The decisions in which the written forms of a number differ. -/
structure Layout where
  nan : String
  infinity : String
  /-- Written before an exponent when the digits have no point. -/
  pointFill : String

/-- Numbers in messages. -/
def Layout.plain : Layout := ⟨"nan", "inf", ""⟩

/-- Numbers in JSON. -/
def Layout.json : Layout := ⟨"NaN", "Infinity", ""⟩

/-- Numbers in YAML. -/
def Layout.yaml : Layout := ⟨".nan", ".inf", ".0"⟩

/-- A decimal exponent: a sign and at least two digits. -/
def exponentText (e : Int) : String :=
  let digits := toString e.natAbs
  (if e < 0 then "-" else "+") ++ (if digits.length < 2 then "0" else "") ++ digits

/-- A positive decimal.  `point` is the number of digits before the point in positional form. -/
def Layout.positive (layout : Layout) (d : Scaled) : String :=
  let digits := Nat.toDigits 10 d.digits
  let point : Int := digits.length + d.exponent
  if point ≤ -4 || point > 16 then
    let head := String.ofList (digits.take 1)
    let tail := digits.drop 1
    let significand := if tail.isEmpty then head ++ layout.pointFill else head ++ "." ++ String.ofList tail
    significand ++ "e" ++ exponentText (point - 1)
  else if point ≤ 0 then
    "0." ++ String.ofList (List.replicate (-point).toNat '0' ++ digits)
  else if digits.length ≤ point.toNat then
    String.ofList (digits ++ List.replicate (point.toNat - digits.length) '0') ++ ".0"
  else
    String.ofList (digits.take point.toNat) ++ "." ++ String.ofList (digits.drop point.toNat)

/-- The text of a floating-point number. -/
def Layout.write (layout : Layout) (x : Float) : String :=
  match Double.ofBits x.toBits with
  | .nan => layout.nan
  | .infinite negative => (if negative then "-" else "") ++ layout.infinity
  | .zero negative => if negative then "-0.0" else "0.0"
  | .finite negative b => (if negative then "-" else "") ++ layout.positive b.shortest

end ManifestLens.Decimal
