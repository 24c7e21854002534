import ManifestLens.Value.Basic

/-!
# The order of values

Numbers are ordered by what they stand for, texts by code points, dates and times by their parts, and lists item by
item.  Other values cannot be compared.
-/

namespace ManifestLens.Value

/-- The number that a value stands for, where it is finite. -/
def rational? : Value → Option Rat
  | .bool b => some (if b then 1 else 0)
  | .int n => some n
  | .float x =>
    match Decimal.Double.ofBits x.toBits with
    | .zero _ => some 0
    | .finite negative b =>
      let (num, den) := Decimal.power 2 b.exponent
      let n : Int := (b.significand * num : Nat)
      some (mkRat (if negative then -n else n) den)
    | _ => none
  | _ => none

/-- A number on the line that is closed by the infinities. -/
inductive Magnitude where
  | negativeInfinity
  | finite (r : Rat)
  | infinity
  deriving DecidableEq

/-- Where a number is on that line; a float that is no number is nowhere. -/
def magnitude? (v : Value) : Option Magnitude :=
  match v.rational? with
  | some r => some (.finite r)
  | none =>
    match v with
    | .float x =>
      match Decimal.Double.ofBits x.toBits with
      | .infinite negative => some (if negative then .negativeInfinity else .infinity)
      | _ => none
    | _ => none

/-- The order of two things of which one may come before the other. -/
def orderBy {α : Type} (lt : α → α → Bool) (a b : α) : Ordering :=
  if lt a b then .lt else if lt b a then .gt else .eq

def Magnitude.lt : Magnitude → Magnitude → Bool
  | .negativeInfinity, m => m != .negativeInfinity
  | .finite a, .finite b => a < b
  | .finite _, .infinity => true
  | _, _ => false

/-- The numbers of a date, the most significant first. -/
def dateNumbers (d : Date) : List Nat :=
  [d.year, d.month, d.day]

/-- The numbers of a moment, the most significant first. -/
def momentNumbers (m : Moment) : List Nat :=
  dateNumbers m.date ++ [m.hour, m.minute, m.second, m.microsecond]

/-- The order of lists of numbers. -/
def orderNumbers (a b : List Nat) : Ordering :=
  orderBy (fun x y => decide (x < y)) a b

mutual

/-- The order of two values, where they can be compared. -/
def order? : Value → Value → Option Ordering
  | .str a, .str b => some (orderBy (fun x y => decide (x < y)) a b)
  | .bytes a, .bytes b => some (orderNumbers (a.map (·.toNat)) (b.map (·.toNat)))
  | .date a, .date b => some (orderNumbers (dateNumbers a) (dateNumbers b))
  | .moment a, .moment b =>
    if a.offset.isNone && b.offset.isNone then some (orderNumbers (momentNumbers a) (momentNumbers b)) else none
  | .list a, .list b => orderLists? a b
  | a, b =>
    match a.magnitude?, b.magnitude? with
    | some m, some n => some (orderBy Magnitude.lt m n)
    | _, _ => none

/-- The order of two lists: that of the first items that differ, or else that of the lengths. -/
def orderLists? : List Value → List Value → Option Ordering
  | [], [] => some .eq
  | [], _ => some .lt
  | _, [] => some .gt
  | x :: xs, y :: ys => if x.equals y then orderLists? xs ys else order? x y

end

/-- Values in order; those that cannot be compared stay as they are. -/
def sort (values : List Value) : List Value :=
  values.mergeSort fun a b => ((order? a b).map (·.isLE)).getD true

end ManifestLens.Value
