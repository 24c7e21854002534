/-!
# Dates and times

Calendar dates and times of day as manifests hold them, with the two forms in which messages show them: the plain
form, and the form inside a collection.
-/

namespace ManifestLens

/-- A calendar date. -/
structure Date where
  year : Nat
  month : Nat
  day : Nat
  deriving DecidableEq

/-- A date with a time of day; `offset` is the distance from UTC in minutes, where it is known. -/
structure Moment where
  date : Date
  hour : Nat
  minute : Nat
  second : Nat
  microsecond : Nat
  offset : Option Int
  deriving DecidableEq

/-- The length of a month. -/
def daysIn (year month : Nat) : Nat :=
  if month == 2 then (if year % 4 == 0 && (year % 100 != 0 || year % 400 == 0) then 29 else 28)
  else if month == 4 || month == 6 || month == 9 || month == 11 then 30
  else 31

/-- A day that the calendar has, in the years 1 to 9999. -/
def Date.valid (d : Date) : Bool :=
  1 ≤ d.year && d.year ≤ 9999 && 1 ≤ d.month && d.month ≤ 12 && 1 ≤ d.day && d.day ≤ daysIn d.year d.month

/-- A time that a clock shows on a valid day, less than a day away from UTC. -/
def Moment.valid (m : Moment) : Bool :=
  m.date.valid && m.hour < 24 && m.minute < 60 && m.second < 60 && (m.offset.getD 0).natAbs < 1440

/-- A number with zeros in front, up to `width` digits. -/
def zeroPadded (width n : Nat) : String :=
  let digits := Nat.toDigits 10 n
  String.ofList (List.replicate (width - digits.length) '0' ++ digits)

/-- The plain form of a date: year, month and day. -/
def Date.text (d : Date) : String :=
  zeroPadded 4 d.year ++ "-" ++ zeroPadded 2 d.month ++ "-" ++ zeroPadded 2 d.day

/-- The form of a date inside a collection. -/
def Date.inner (d : Date) : String :=
  s!"datetime.date({d.year}, {d.month}, {d.day})"

/-- A distance from UTC as hours and minutes. -/
def offsetText (minutes : Int) : String :=
  (if minutes < 0 then "-" else "+") ++ zeroPadded 2 (minutes.natAbs / 60) ++ ":" ++
    zeroPadded 2 (minutes.natAbs % 60)

/-- The plain form of a moment; a whole second has no fraction. -/
def Moment.text (m : Moment) : String :=
  m.date.text ++ " " ++ zeroPadded 2 m.hour ++ ":" ++ zeroPadded 2 m.minute ++ ":" ++ zeroPadded 2 m.second ++
    (if m.microsecond == 0 then "" else "." ++ zeroPadded 6 m.microsecond) ++
    (match m.offset with
      | none => ""
      | some minutes => offsetText minutes)

/-- A time zone inside a collection; an offset is a number of days and of seconds from zero up. -/
def zoneText (minutes : Int) : String :=
  if minutes == 0 then "datetime.timezone.utc"
  else
    let days := Int.fdiv minutes 1440
    let seconds := (Int.fmod minutes 1440) * 60
    let parts := (if days == 0 then [] else [s!"days={days}"]) ++ (if seconds == 0 then [] else [s!"seconds={seconds}"])
    "datetime.timezone(datetime.timedelta(" ++ ", ".intercalate parts ++ "))"

/-- The form of a moment inside a collection; trailing zero seconds and fractions are left out. -/
def Moment.inner (m : Moment) : String :=
  let parts := [m.date.year, m.date.month, m.date.day, m.hour, m.minute] ++
    (if m.microsecond == 0 then (if m.second == 0 then [] else [m.second]) else [m.second, m.microsecond])
  "datetime.datetime(" ++ ", ".intercalate (parts.map toString) ++
    (match m.offset with
      | none => ""
      | some minutes => ", tzinfo=" ++ zoneText minutes) ++ ")"

end ManifestLens
