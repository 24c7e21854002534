import ManifestLens.Text.Blank
import ManifestLens.Text.Digit

/-!
# Reading numbers

The numerals that a text may hold: integers to a base, and decimals with an optional fraction and exponent.  The
digits of every script count, blanks around the numeral do not.
-/

namespace ManifestLens.Decimal

open Text (digitValue? trimBlank)

/-- A sign at the start of a text, and the rest. -/
def splitSign : List Char → Bool × List Char
  | '-' :: rest => (true, rest)
  | '+' :: rest => (false, rest)
  | rest => (false, rest)

/-- The value of a digit to a base up to sixteen. -/
def baseDigit? (base : Nat) (c : Char) : Option Nat :=
  let value :=
    if 'a' ≤ c && c ≤ 'f' then some (c.toNat - 87)
    else if 'A' ≤ c && c ≤ 'F' then some (c.toNat - 55)
    else digitValue? c
  value.filter (· < base)

/-- The number that a run of digits to a base stands for; an empty run stands for none. -/
def ofDigits? (base : Nat) (digits : List Char) : Option Nat :=
  if digits.isEmpty then none
  else digits.foldlM (fun n c => (baseDigit? base c).map (n * base + ·)) 0

/-- The letters that may follow a zero to name the base. -/
def baseMarks : Nat → List Char
  | 2 => ['b', 'B']
  | 8 => ['o', 'O']
  | 16 => ['x', 'X']
  | _ => []

/-- Drops the mark of the base, if the numeral starts with it. -/
def dropBaseMark (base : Nat) : List Char → List Char
  | '0' :: mark :: rest => if (baseMarks base).contains mark then rest else '0' :: mark :: rest
  | text => text

/-- An integer to a base, with an optional sign and mark of the base. -/
def readInt? (base : Nat) (text : List Char) : Option Int :=
  let (negative, rest) := splitSign (trimBlank text)
  (ofDigits? base (dropBaseMark base rest)).map fun n => if negative then -(n : Int) else n

/-- The nearest double to `digits * 10 ^ exponent`.  Exponents far outside the range of doubles are settled first. -/
def nearestDouble (digits : Nat) (exponent : Int) : Float :=
  let size : Int := (Nat.toDigits 10 digits).length + exponent
  if digits == 0 then 0.0
  else if size > 400 then 1.0 / 0.0
  else if size < -400 then 0.0
  else if exponent < 0 then Float.ofScientific digits true (-exponent).toNat
  else Float.ofScientific digits false exponent.toNat

/-- The exponent part of a decimal: nothing, or `e`, an optional sign and digits. -/
def readExponent? : List Char → Option Int
  | [] => some 0
  | c :: rest =>
    if c == 'e' || c == 'E' then
      let (negative, digits) := splitSign rest
      (ofDigits? 10 digits).map fun n => if negative then -(n : Int) else n
    else none

/-- An unsigned decimal: digits with an optional point among them, and an optional exponent. -/
def readDecimal? (text : List Char) : Option Float :=
  let isDigit (c : Char) : Bool := (digitValue? c).isSome
  let whole := text.takeWhile isDigit
  let afterWhole := text.dropWhile isDigit
  let (fraction, rest) := match afterWhole with
    | '.' :: more => (more.takeWhile isDigit, more.dropWhile isDigit)
    | _ => ([], afterWhole)
  match ofDigits? 10 (whole ++ fraction), readExponent? rest with
  | some digits, some e => some (nearestDouble digits (e - fraction.length))
  | _, _ => none

/-- A number in decimal, or the name of an infinity or of what is not a number, with an optional sign. -/
def readFloat? (text : List Char) : Option Float :=
  let (negative, rest) := splitSign (trimBlank text)
  let lower := String.ofList (rest.map Char.toLower)
  let magnitude :=
    if lower == "inf" || lower == "infinity" then some (1.0 / 0.0)
    else if lower == "nan" then some (0.0 / 0.0)
    else readDecimal? rest
  magnitude.map fun x => if negative then -x else x

end ManifestLens.Decimal
