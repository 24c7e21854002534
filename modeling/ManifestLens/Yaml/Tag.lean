import ManifestLens.Text.Utf8

/-!
# Tags

The tag of a node says what its value is.  A plain scalar without a tag gets one by the form of its text.
-/

namespace ManifestLens.Yaml

namespace Tag

/-- The tag of a standard type. -/
def standard (name : String) : String :=
  "tag:yaml.org,2002:" ++ name

def str : String := standard "str"

def seq : String := standard "seq"

def map : String := standard "map"

def merge : String := standard "merge"

def value : String := standard "value"

end Tag

/-- What the standard tags make of a node. -/
inductive Form where
  | null | bool | int | float | binary | timestamp | str
  | seq | omap | pairs | map | set
  deriving DecidableEq, Inhabited

namespace Form

/-- The forms by name. -/
def names : List (String × Form) :=
  [("null", .null), ("bool", .bool), ("int", .int), ("float", .float), ("binary", .binary),
    ("timestamp", .timestamp), ("str", .str), ("seq", .seq), ("omap", .omap), ("pairs", .pairs), ("map", .map),
    ("set", .set)]

/-- The form that a tag gives. -/
def ofTag? (tag : String) : Option Form :=
  (names.find? fun n => Tag.standard n.1 == tag).map (·.2)

/-- A form that holds other nodes. -/
def isCollection : Form → Bool
  | .seq | .omap | .pairs | .map | .set => true
  | _ => false

end Form

/-! ### Numerals -/

def dropSign : List Char → List Char
  | '-' :: rest => rest
  | '+' :: rest => rest
  | text => text

/-- A digit, or the underscore that may stand between digits. -/
def isSpaced (p : Char → Bool) (c : Char) : Bool :=
  p c || c == '_'

/-- One or more parts to the base sixty, each after a colon, and the rest. -/
def dropSixties : List Char → Option (List Char)
  | ':' :: a :: b :: rest =>
    if '0' ≤ a && a ≤ '5' && b.isDigit then
      if rest.head? == some ':' then dropSixties rest else some rest
    else if a.isDigit then
      if b == ':' then dropSixties (b :: rest) else some (b :: rest)
    else none
  | [':', a] => if a.isDigit then some [] else none
  | _ => none

/-- An integer: binary, octal, decimal, hexadecimal or to the base sixty. -/
def isInteger (text : List Char) : Bool :=
  match dropSign text with
  | '0' :: 'b' :: digits => !digits.isEmpty && digits.all (isSpaced fun c => c == '0' || c == '1')
  | '0' :: 'x' :: digits =>
    !digits.isEmpty && digits.all (isSpaced fun c => c.isDigit || ('a' ≤ c && c ≤ 'f') || ('A' ≤ c && c ≤ 'F'))
  | '0' :: digits => digits.all (isSpaced fun c => '0' ≤ c && c ≤ '7')
  | c :: rest =>
    c.isDigit &&
      match rest.dropWhile (isSpaced Char.isDigit) with
      | [] => true
      | more => dropSixties more == some []
  | [] => false

/-- Nothing, or an exponent with its sign. -/
def isExponent : List Char → Bool
  | [] => true
  | e :: s :: digits => (e == 'e' || e == 'E') && (s == '-' || s == '+') && !digits.isEmpty && digits.all Char.isDigit
  | _ => false

/-- Digits after a point, and an optional exponent. -/
def isFraction (text : List Char) : Bool :=
  isExponent (text.dropWhile (isSpaced Char.isDigit))

/-- A number with a point, an infinity, or what is not a number. -/
def isReal (text : List Char) : Bool :=
  let infinities := [".inf".toList, ".Inf".toList, ".INF".toList]
  let others := [".nan".toList, ".NaN".toList, ".NAN".toList]
  infinities.contains (dropSign text) || others.contains text ||
    match text with
    | '.' :: c :: rest => c.isDigit && isFraction rest
    | _ =>
      match dropSign text with
      | c :: rest =>
        c.isDigit &&
          match rest.dropWhile (isSpaced Char.isDigit) with
          | '.' :: fraction => isFraction fraction
          | more =>
            match dropSixties more with
            | some ('.' :: fraction) => fraction.all (isSpaced Char.isDigit)
            | _ => false
      | [] => false

/-! ### Dates and times -/

/-- A distance from UTC: none, zero, or hours and minutes with a sign. -/
inductive Zone where
  | none
  | utc
  | offset (behind : Bool) (hours minutes : Nat)
  deriving DecidableEq, Inhabited

/-- The numbers of a date. -/
structure DateText where
  year : Nat
  month : Nat
  day : Nat
  /-- Month and day have two digits each. -/
  padded : Bool

/-- The numbers of a time of day. -/
structure TimeText where
  hour : Nat
  minute : Nat
  second : Nat
  fraction : List Char
  zone : Zone

open Text (decimalValue)

/-- One or two digits, and the rest. -/
def oneOrTwo? : List Char → Option (List Char × List Char)
  | a :: b :: rest =>
    if a.isDigit then some (if b.isDigit then ([a, b], rest) else ([a], b :: rest)) else none
  | [a] => if a.isDigit then some ([a], []) else none
  | [] => none

/-- Two digits after a character, and the rest. -/
def twoAfter? (mark : Char) : List Char → Option (Nat × List Char)
  | c :: a :: b :: rest => if c == mark && a.isDigit && b.isDigit then some (decimalValue [a, b], rest) else none
  | _ => none

def readZone? (text : List Char) : Option Zone :=
  match text with
  | [] => some .none
  | _ =>
    match text.dropWhile fun c => c == ' ' || c == '\t' with
    | ['Z'] => some .utc
    | s :: rest =>
      if s == '-' || s == '+' then do
        let (hours, rest) ← oneOrTwo? rest
        match rest with
        | [] => some (.offset (s == '-') (decimalValue hours) 0)
        | _ =>
          let (minutes, rest) ← twoAfter? ':' rest
          if rest.isEmpty then some (.offset (s == '-') (decimalValue hours) minutes) else none
      else none
    | [] => none

def readTime? (text : List Char) : Option TimeText := do
  let (hour, rest) ← oneOrTwo? text
  let (minute, rest) ← twoAfter? ':' rest
  let (second, rest) ← twoAfter? ':' rest
  let (fraction, rest) := match rest with
    | '.' :: more => (more.takeWhile Char.isDigit, more.dropWhile Char.isDigit)
    | _ => ([], rest)
  let zone ← readZone? rest
  return ⟨decimalValue hour, minute, second, fraction, zone⟩

/-- What stands between a date and a time: the letter T or blanks; the rest after it. -/
def dropTimeMark? : List Char → Option (List Char)
  | c :: rest =>
    if c == 'T' || c == 't' then some rest
    else if c == ' ' || c == '\t' then some (rest.dropWhile fun c => c == ' ' || c == '\t')
    else none
  | [] => none

/-- A date, alone or with a time of day. -/
def readTimestamp? (text : List Char) : Option (DateText × Option TimeText) := do
  let year := text.take 4
  if year.length != 4 || !year.all Char.isDigit then none
  else
    let afterYear := text.drop 4
    if afterYear.head? != some '-' then none
    else
      let (month, rest) ← oneOrTwo? (afterYear.drop 1)
      if rest.head? != some '-' then none
      else
        let (day, rest) ← oneOrTwo? (rest.drop 1)
        let date : DateText :=
          ⟨decimalValue year, decimalValue month, decimalValue day, month.length == 2 && day.length == 2⟩
        match rest with
        | [] => some (date, none)
        | _ =>
          let time ← readTime? (← dropTimeMark? rest)
          some (date, some time)

/-- A date with all its digits, or a date and a time. -/
def isTimestamp (text : List Char) : Bool :=
  match readTimestamp? text with
  | some (date, time) => date.padded || time.isSome
  | none => false

/-! ### Tags of plain scalars -/

def booleanWords : List (List Char) :=
  ["yes", "Yes", "YES", "no", "No", "NO", "true", "True", "TRUE", "false", "False", "FALSE", "on", "On", "ON", "off",
    "Off", "OFF"].map String.toList

def nullWords : List (List Char) :=
  ["~", "null", "Null", "NULL"].map String.toList

/-- A text without a line feed at its end. -/
def dropFinalFeed (text : List Char) : List Char :=
  if text.getLast? == some '\n' then text.dropLast else text

/-- The standard type that the form of a text stands for. -/
def plainType (text : List Char) : String :=
  if text.isEmpty then "null"
  else
    let body := dropFinalFeed text
    if booleanWords.contains body then "bool"
    else if isReal body then "float"
    else if isInteger body then "int"
    else if body == ['<', '<'] then "merge"
    else if nullWords.contains body then "null"
    else if isTimestamp body then "timestamp"
    else if body == ['='] then "value"
    else if [['!'], ['&'], ['*']].contains body then "yaml"
    else "str"

/-- The tag of a scalar without a tag. -/
def plainTag (text : String) : String :=
  Tag.standard (plainType text.toList)

end ManifestLens.Yaml
