import ManifestLens.Text.Quoted

/-!
# Numerals and UTF-8

The value of runs of digits, and the text that bytes stand for in UTF-8.  Bytes that stand for none are reported with
the reason.
-/

namespace ManifestLens.Text

/-- The value of a hexadecimal digit. -/
def hexDigitValue (c : Char) : Nat :=
  if c.isDigit then c.toNat - 48 else if 'a' ≤ c && c ≤ 'f' then c.toNat - 87 else c.toNat - 55

/-- The value of a run of hexadecimal digits. -/
def hexValue (digits : List Char) : Nat :=
  digits.foldl (fun n c => n * 16 + hexDigitValue c) 0

/-- The value of a run of decimal digits. -/
def decimalValue (digits : List Char) : Nat :=
  digits.foldl (fun n c => n * 10 + (c.toNat - 48)) 0

/-- What a first byte asks for: how many bytes follow, and the range of the first of them. -/
def utf8Lead? (b : Nat) : Option (Nat × Nat × Nat) :=
  if b < 0x80 then some (0, 0x80, 0xBF)
  else if 0xC2 ≤ b && b ≤ 0xDF then some (1, 0x80, 0xBF)
  else if b == 0xE0 then some (2, 0xA0, 0xBF)
  else if b == 0xED then some (2, 0x80, 0x9F)
  else if 0xE1 ≤ b && b ≤ 0xEF then some (2, 0x80, 0xBF)
  else if b == 0xF0 then some (3, 0x90, 0xBF)
  else if b == 0xF4 then some (3, 0x80, 0x8F)
  else if 0xF1 ≤ b && b ≤ 0xF3 then some (3, 0x80, 0xBF)
  else none

/-- How many of the bytes continue a character, of `count` that have to, the first in the given range. -/
def utf8Run (low high : Nat) : (count : Nat) → List UInt8 → Nat
  | 0, _ => 0
  | _, [] => 0
  | count + 1, b :: rest => if low ≤ b.toNat && b.toNat ≤ high then utf8Run 0x80 0xBF count rest + 1 else 0

/-- The message for bytes from `position` on that are no UTF-8. -/
def utf8Reason (position count : Nat) (first : UInt8) (reason : String) : String :=
  if count ≤ 1 then
    s!"'utf-8' codec can't decode byte 0x{hexNumber 2 first.toNat} in position {position}: {reason}"
  else s!"'utf-8' codec can't decode bytes in position {position}-{position + count - 1}: {reason}"

/-- The code point of a character's bytes. -/
def utf8Code (first : Nat) (rest : List UInt8) : Nat :=
  let lead := match rest.length with
    | 0 => first
    | 1 => first % 32
    | 2 => first % 16
    | _ => first % 8
  rest.foldl (fun n b => n * 64 + b.toNat % 64) lead

/-- The characters of bytes from `position` on. -/
def utf8From (position : Nat) : (fuel : Nat) → List UInt8 → Except String (List Char)
  | 0, _ => .ok []
  | _, [] => .ok []
  | fuel + 1, b :: rest =>
    match utf8Lead? b.toNat with
    | none => .error (utf8Reason position 1 b "invalid start byte")
    | some (count, low, high) =>
      let run := utf8Run low high count rest
      if run == count then
        (utf8From (position + count + 1) fuel (rest.drop count)).map
          (Char.ofNat (utf8Code b.toNat (rest.take count)) :: ·)
      else if run == rest.length then .error (utf8Reason position (run + 1) b "unexpected end of data")
      else .error (utf8Reason position (run + 1) b "invalid continuation byte")

/-- The characters that bytes stand for. -/
def decodeUtf8 (bytes : List UInt8) : Except String (List Char) :=
  utf8From 0 (bytes.length + 1) bytes

end ManifestLens.Text
