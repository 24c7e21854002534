import ManifestLens.Decimal.Read
import ManifestLens.Value.Basic

/-!
# Reading JSON

A JSON text gives one value.  Numbers with a fraction or an exponent are floating-point numbers, all others are
integers; of two members of an object with one name the later value counts, in the place of the earlier.  Every
recursion is bounded by the length of the text.
-/

namespace ManifestLens.Json

open Decimal (baseDigit? ofDigits? readDecimal?)

def isSpace (c : Char) : Bool :=
  c == ' ' || c == '\t' || c == '\n' || c == '\r'

def skipSpace (text : List Char) : List Char :=
  text.dropWhile isSpace

/-- Four hexadecimal digits at the start of a text. -/
def hexUnit? : List Char → Option (Nat × List Char)
  | a :: b :: c :: d :: rest =>
    if [a, b, c, d].all Char.isAlphanum then (ofDigits? 16 [a, b, c, d]).map (·, rest) else none
  | _ => none

/-- A code point that stands alone; half of a pair is shown as the replacement character. -/
def charOfUnit (unit : Nat) : Char :=
  if 0xD800 ≤ unit && unit < 0xE000 then Char.ofNat 0xFFFD else Char.ofNat unit

/-- The character that follows `\u`: one unit, or a high and a low unit that make a pair. -/
def unicodeEscape? (text : List Char) : Option (Char × List Char) :=
  match hexUnit? text with
  | none => none
  | some (high, rest) =>
    if 0xD800 ≤ high && high < 0xDC00 then
      match rest with
      | '\\' :: 'u' :: more =>
        match hexUnit? more with
        | none => none
        | some (low, after) =>
          if 0xDC00 ≤ low && low < 0xE000 then
            some (Char.ofNat (0x10000 + (high - 0xD800) * 0x400 + (low - 0xDC00)), after)
          else some (charOfUnit high, rest)
      | _ => some (charOfUnit high, rest)
    else some (charOfUnit high, rest)

/-- The character that an escape of one letter stands for. -/
def simpleEscape? : Char → Option Char
  | '"' => some '"'
  | '\\' => some '\\'
  | '/' => some '/'
  | 'b' => some '\x08'
  | 'f' => some '\x0c'
  | 'n' => some '\n'
  | 'r' => some '\r'
  | 't' => some '\t'
  | _ => none

/-- The rest of a string after its opening quote, up to its closing quote.  Control characters are refused. -/
def readString? (fuel : Nat) (done : List Char) : List Char → Option (String × List Char)
  | [] => none
  | '"' :: rest => some (String.ofList done.reverse, rest)
  | '\\' :: 'u' :: rest =>
    match fuel with
    | 0 => none
    | fuel + 1 => (unicodeEscape? rest).bind fun (c, after) => readString? fuel (c :: done) after
  | '\\' :: c :: rest =>
    match fuel with
    | 0 => none
    | fuel + 1 => (simpleEscape? c).bind fun e => readString? fuel (e :: done) rest
  | c :: rest =>
    match fuel with
    | 0 => none
    | fuel + 1 => if c.toNat < 0x20 then none else readString? fuel (c :: done) rest

/-- The whole part of a number: a zero, or digits that do not start with zero. -/
def wholePart? : List Char → Option (List Char × List Char)
  | '0' :: rest => some (['0'], rest)
  | c :: rest =>
    if c.isDigit then some (c :: rest.takeWhile Char.isDigit, rest.dropWhile Char.isDigit) else none
  | [] => none

/-- A point and at least one digit, where there are such. -/
def fractionPart : List Char → List Char × List Char
  | '.' :: c :: rest =>
    if c.isDigit then ('.' :: c :: rest.takeWhile Char.isDigit, rest.dropWhile Char.isDigit) else ([], '.' :: c :: rest)
  | text => ([], text)

/-- An exponent mark, an optional sign and at least one digit, where there are such. -/
def exponentPart (text : List Char) : List Char × List Char :=
  match text with
  | mark :: rest =>
    if mark == 'e' || mark == 'E' then
      let (sign, more) := match rest with
        | '+' :: m => (['+'], m)
        | '-' :: m => (['-'], m)
        | m => ([], m)
      let digits := more.takeWhile Char.isDigit
      if digits.isEmpty then ([], text) else (mark :: sign ++ digits, more.dropWhile Char.isDigit)
    else ([], text)
  | [] => ([], [])

/-- A number without its sign. -/
def readNumber? (negative : Bool) (text : List Char) : Option (Value × List Char) :=
  (wholePart? text).bind fun (whole, afterWhole) =>
    let (fraction, afterFraction) := fractionPart afterWhole
    let (exponent, rest) := exponentPart afterFraction
    if fraction.isEmpty && exponent.isEmpty then
      (ofDigits? 10 whole).map fun n => (.int (if negative then -(n : Int) else n), rest)
    else
      (readDecimal? (whole ++ fraction ++ exponent)).map fun x => (.float (if negative then -x else x), rest)

/-- The words that stand for values. -/
def words : List (List Char × Value) :=
  [("null".toList, .null), ("true".toList, .bool true), ("false".toList, .bool false),
    ("NaN".toList, .float (0.0 / 0.0)), ("Infinity".toList, .float (1.0 / 0.0)),
    ("-Infinity".toList, .float (-1.0 / 0.0))]

/-- A word or a number at the start of a text. -/
def readAtom? (text : List Char) : Option (Value × List Char) :=
  match words.find? fun w => w.1.isPrefixOf text with
  | some (word, value) => some (value, text.drop word.length)
  | none =>
    match text with
    | '-' :: rest => readNumber? true rest
    | _ => readNumber? false text

mutual

/-- A value at the start of a text. -/
def readValue? : (fuel : Nat) → List Char → Option (Value × List Char)
  | 0, _ => none
  | fuel + 1, text =>
    match text with
    | '"' :: rest => (readString? rest.length [] rest).map fun (s, after) => (.str s, after)
    | '[' :: rest =>
      match skipSpace rest with
      | ']' :: after => some (.list [], after)
      | items => readItems? fuel [] items
    | '\x7b' :: rest =>
      match skipSpace rest with
      | '\x7d' :: after => some (.map [], after)
      | members => readMembers? fuel [] members
    | _ => readAtom? text

/-- The items of an array after those read so far, up to its closing bracket. -/
def readItems? : (fuel : Nat) → List Value → List Char → Option (Value × List Char)
  | 0, _, _ => none
  | fuel + 1, done, text =>
    (readValue? fuel text).bind fun (value, rest) =>
      match skipSpace rest with
      | ',' :: more => readItems? fuel (value :: done) (skipSpace more)
      | ']' :: after => some (.list (value :: done).reverse, after)
      | _ => none

/-- The members of an object after those read so far, up to its closing brace. -/
def readMembers? : (fuel : Nat) → List (Value × Value) → List Char → Option (Value × List Char)
  | 0, _, _ => none
  | fuel + 1, done, text =>
    match text with
    | '"' :: start =>
      (readString? start.length [] start).bind fun (name, afterName) =>
        match skipSpace afterName with
        | ':' :: beforeValue =>
          (readValue? fuel (skipSpace beforeValue)).bind fun (value, rest) =>
            match skipSpace rest with
            | ',' :: more => readMembers? fuel ((.str name, value) :: done) (skipSpace more)
            | '\x7d' :: after => some (.map (Entries.ofList ((.str name, value) :: done).reverse), after)
            | _ => none
        | _ => none
    | _ => none

end

/-- The value of a JSON text, or nothing where the text is not JSON. -/
def read? (text : String) : Option Value :=
  let start := skipSpace text.toList
  match readValue? (2 * start.length + 2) start with
  | some (value, rest) => if (skipSpace rest).isEmpty then some value else none
  | none => none

end ManifestLens.Json
