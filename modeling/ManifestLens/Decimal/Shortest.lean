/-!
# Shortest decimals

The fewest decimal digits that read back to a given binary number, and of those the nearest to it.  A positive
number is `significand * 2 ^ exponent`; the decimals that read back to it fill the interval between the midpoints to
its neighbours, and the ends belong to it when the significand is even.  All arithmetic is exact.
-/

namespace ManifestLens.Decimal

/-- A positive binary number `significand * 2 ^ exponent`; `narrow` says that the gap below it is half the gap
above it. -/
structure Binary where
  significand : Nat
  exponent : Int
  narrow : Bool

/-- A decimal `digits * 10 ^ exponent`. -/
structure Scaled where
  digits : Nat
  exponent : Int
  deriving DecidableEq

/-- The number `base ^ exponent` as a quotient of naturals. -/
def power (base : Nat) (exponent : Int) : Nat × Nat :=
  (Nat.pow base exponent.toNat, Nat.pow base (-exponent).toNat)

/-- The number in quarters of its last place, as numerators over one denominator: lower end, value, upper end. -/
def Binary.interval (b : Binary) : Nat × Nat × Nat × Nat :=
  let (num, den) := power 2 (b.exponent - 2)
  let low := if b.narrow then 4 * b.significand - 1 else 4 * b.significand - 2
  (low * num, 4 * b.significand * num, (4 * b.significand + 2) * num, den)

/-- The power of ten just above the number: it is at least `10 ^ (e - 1)` and below `10 ^ e`. -/
def Binary.magnitude (b : Binary) : Int :=
  let (_, value, _, den) := b.interval
  let shift : Nat := 400
  ((Nat.toDigits 10 (value * Nat.pow 10 shift / den)).length : Int) - shift

/-- The nearest point of the grid of multiples of `10 ^ place` that reads back to the number, a tie going to the even
multiple. -/
def Binary.onGrid (b : Binary) (place : Int) : Option Scaled :=
  let (low, value, high, den) := b.interval
  let (up, down) := power 10 place
  let unit := up * den
  let below := value * down / unit
  let reads (d : Nat) : Bool :=
    if b.significand % 2 == 0 then low * down ≤ d * unit && d * unit ≤ high * down
    else low * down < d * unit && d * unit < high * down
  let short := value * down - below * unit
  let beyond := (below + 1) * unit - value * down
  let first := if short < beyond || (short == beyond && below % 2 == 0) then below else below + 1
  let second := if first == below then below + 1 else below
  if reads first then some ⟨first, place⟩
  else if reads second then some ⟨second, place⟩
  else none

/-- Trying grids of more and more digits, the first that has a point reading back to the number. -/
def Binary.search (b : Binary) (magnitude : Int) : (tries : Nat) → (count : Nat) → Scaled
  | 0, count => ⟨0, magnitude - count⟩
  | tries + 1, count => (b.onGrid (magnitude - count)).getD (b.search magnitude tries (count + 1))

/-- Moves the zeros at the end of the digits into the exponent. -/
def Scaled.trimmed (d : Scaled) : (fuel : Nat) → Scaled
  | 0 => d
  | fuel + 1 => if d.digits != 0 && d.digits % 10 == 0 then Scaled.trimmed ⟨d.digits / 10, d.exponent + 1⟩ fuel else d

/-- The fewest digits that read back to the number. -/
def Binary.shortest (b : Binary) : Scaled :=
  (b.search b.magnitude 17 1).trimmed 20

/-- What the bits of a double stand for. -/
inductive Double where
  | nan
  | infinite (negative : Bool)
  | zero (negative : Bool)
  | finite (negative : Bool) (magnitude : Binary)

/-- The number that a double's bits stand for. -/
def Double.ofBits (bits : UInt64) : Double :=
  let n := bits.toNat
  let unit := Nat.pow 2 52
  let negative := n / unit / 2048 == 1
  let exponent : Nat := n / unit % 2048
  let fraction := n % unit
  if exponent == 2047 then (if fraction == 0 then .infinite negative else .nan)
  else if exponent == 0 then
    (if fraction == 0 then .zero negative else .finite negative ⟨fraction, -1074, false⟩)
  else .finite negative ⟨fraction + unit, (exponent : Int) - 1075, fraction == 0 && exponent != 1⟩

end ManifestLens.Decimal
