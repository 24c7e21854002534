import ManifestLens.Decimal.Read
import ManifestLens.Fault
import ManifestLens.Value.Basic
import ManifestLens.Yaml.Node

/-!
# Values of scalars

What the text of a scalar stands for, by the form that its tag gives it.
-/

namespace ManifestLens.Yaml

open Decimal (readInt? readFloat?)

/-! ### Numbers -/

/-- A numeral without the underscores between its digits. -/
def dropUnderscores (text : List Char) : List Char :=
  text.filter (· != '_')

/-- The first character of a numeral tells whether it is negative; the rest after the sign. -/
def splitNumeral : List Char → Except Fault (Bool × List Char)
  | [] => .error .outOfRange
  | '-' :: rest => .ok (true, rest)
  | '+' :: rest => .ok (false, rest)
  | text => .ok (false, text)

/-- The parts of a numeral to the base sixty. -/
def splitAtColons (text : List Char) : List (List Char) :=
  text.foldr (fun c parts =>
    match parts with
    | part :: rest => if c == ':' then [] :: part :: rest else (c :: part) :: rest
    | [] => []) [[]]

def numberOr {α : Type} (n : Option α) : Except Fault α :=
  match n with
  | some n => .ok n
  | none => .error .badNumber

/-- An unsigned integer. -/
def magnitude : List Char → Except Fault Int
  | [] => .error .outOfRange
  | ['0'] => .ok 0
  | '0' :: 'b' :: digits => numberOr (readInt? 2 digits)
  | '0' :: 'x' :: digits => numberOr (readInt? 16 digits)
  | '0' :: digits => numberOr (readInt? 8 ('0' :: digits))
  | text =>
    if text.contains ':' then do
      let parts ← (splitAtColons text).mapM fun part => numberOr (readInt? 10 part)
      return parts.foldl (fun n part => n * 60 + part) 0
    else numberOr (readInt? 10 text)

def intValue (text : List Char) : Except Fault Value := do
  let (negative, rest) ← splitNumeral (dropUnderscores text)
  let n ← magnitude rest
  return .int (if negative then -n else n)

/-- The sum of parts to the base sixty, the last part first. -/
def sumSixties (parts : List Float) : Float :=
  (parts.reverse.foldl (fun (sum, base) part => (sum + part * base, base * 60)) ((0.0 : Float), (1.0 : Float))).1

def floatValue (text : List Char) : Except Fault Value := do
  let (negative, rest) ← splitNumeral ((dropUnderscores text).map Char.toLower)
  let sign : Float := if negative then -1.0 else 1.0
  if rest == ".inf".toList then return .float (sign * (1.0 / 0.0))
  else if rest == ".nan".toList then return .float (0.0 / 0.0)
  else if rest.contains ':' then
    let parts ← (splitAtColons rest).mapM fun part => numberOr (readFloat? part)
    return .float (sign * sumSixties parts)
  else
    let x ← numberOr (readFloat? rest)
    return .float (sign * x)

/-! ### Words, dates and bytes -/

def boolValue (text : List Char) : Except Fault Value :=
  let word := String.ofList (text.map Char.toLower)
  if ["yes", "true", "on"].contains word then .ok (.bool true)
  else if ["no", "false", "off"].contains word then .ok (.bool false)
  else .error .noEntry

/-- The millionths of a second that the digits of a fraction stand for. -/
def microseconds (fraction : List Char) : Nat :=
  Text.decimalValue ((fraction ++ List.replicate 6 '0').take 6)

/-- The distance from UTC in minutes. -/
def Zone.minutes : Zone → Option Int
  | .none => Option.none
  | .utc => some 0
  | .offset behind hours minutes =>
    let distance : Int := (hours * 60 + minutes : Nat)
    some (if behind then -distance else distance)

def timestampValue (text : List Char) : Except Fault Value :=
  match readTimestamp? (dropFinalFeed text) with
  | none => .error .noField
  | some (date, time) =>
    let date : Date := ⟨date.year, date.month, date.day⟩
    match time with
    | none => if date.valid then .ok (.date date) else .error .badNumber
    | some t =>
      let moment : Moment := ⟨date, t.hour, t.minute, t.second, microseconds t.fraction, t.zone.minutes⟩
      if moment.valid then .ok (.moment moment) else .error .badNumber

/-- The value of a character among the 64 that bytes are written with. -/
def sixBits? (c : Char) : Option Nat :=
  if 'A' ≤ c && c ≤ 'Z' then some (c.toNat - 65)
  else if 'a' ≤ c && c ≤ 'z' then some (c.toNat - 71)
  else if c.isDigit then some (c.toNat + 4)
  else if c == '+' then some 62
  else if c == '/' then some 63
  else none

/-- The bytes of groups of six bits. -/
def packBits : List Nat → List UInt8
  | a :: b :: c :: d :: rest =>
    (a * 4 + b / 16).toUInt8 :: (b % 16 * 16 + c / 4).toUInt8 :: (c % 4 * 64 + d).toUInt8 :: packBits rest
  | [a, b, c] => [(a * 4 + b / 16).toUInt8, (b % 16 * 16 + c / 4).toUInt8]
  | [a, b] => [(a * 4 + b / 16).toUInt8]
  | _ => []

/-- The groups of six bits before the end marks, with the number of end marks since the last group; other characters
do not count.  Enough end marks end the text early, which the last component tells. -/
def collectBits (groups : List Nat) (ends : Nat) : List Char → List Nat × Bool
  | [] => (groups.reverse, false)
  | '=' :: rest =>
    let place := groups.length % 4
    if 2 ≤ place && 4 ≤ place + ends + 1 then (groups.reverse, true)
    else collectBits groups (if 2 ≤ place then ends + 1 else ends) rest
  | c :: rest =>
    match sixBits? c with
    | some n => collectBits (n :: groups) 0 rest
    | none => collectBits groups ends rest

/-- The characters from the first one outside ASCII on, as long as they are, with its index. -/
def outsideAscii (index : Nat) : List Char → Option (Nat × List Char)
  | [] => none
  | c :: rest =>
    if c.toNat < 128 then outsideAscii (index + 1) rest else some (index, c :: rest.takeWhile fun c => 128 ≤ c.toNat)

/-- Why a text cannot be written in ASCII. -/
def asciiReason (index : Nat) (run : List Char) : String :=
  match run with
  | [c] =>
    let escape := String.ofList (Text.escapeCode c.toNat)
    s!"'ascii' codec can't encode character '{escape}' in position {index}: ordinal not in range(128)"
  | _ =>
    s!"'ascii' codec can't encode characters in position {index}-{index + run.length - 1}: ordinal not in range(128)"

def binaryValue (source : List Char) (start : Mark) (text : List Char) : Except Fault Value :=
  let fault (problem : Problem) : Except Fault Value := .error (.yaml (.fault .values none none problem start) source)
  match outsideAscii 0 text with
  | some (index, run) => fault (.notAscii (asciiReason index run))
  | none =>
    let (groups, ended) := collectBits [] 0 text
    let size := groups.length
    if ended || size % 4 == 0 then .ok (.bytes (packBits groups))
    else if size % 4 == 1 then
      fault (.notBase64
        s!"Invalid base64-encoded string: number of data characters ({size}) cannot be 1 more than a multiple of 4")
    else fault (.notBase64 "Incorrect padding")

/-! ### Scalars -/

mutual

/-- The text of a scalar; a mapping stands for the value of its key `=`. -/
def scalarText (source : List Char) : Node → Except Fault String
  | .scalar _ text _ _ => .ok text
  | .sequence _ _ start _ =>
    .error (.yaml (.fault .values none none (.expectedNode "scalar" "sequence") start) source)
  | .mapping _ pairs start _ => scalarTextAmong source start pairs

def scalarTextAmong (source : List Char) (start : Mark) : List (Node × Node) → Except Fault String
  | [] => .error (.yaml (.fault .values none none (.expectedNode "scalar" "mapping") start) source)
  | (key, value) :: rest =>
    if key.tag == Tag.value then scalarText source value else scalarTextAmong source start rest

end

/-- The value of a node by a form that holds no other nodes. -/
def scalarValue (source : List Char) (form : Form) (node : Node) : Except Fault Value := do
  let text ← scalarText source node
  match form with
  | .null => return .null
  | .bool => boolValue text.toList
  | .int => intValue text.toList
  | .float => floatValue text.toList
  | .binary => binaryValue source node.start text.toList
  | .timestamp => timestampValue text.toList
  | _ => return .str text

end ManifestLens.Yaml
