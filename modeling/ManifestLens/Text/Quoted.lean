import ManifestLens.Text.Printable

/-!
# Quoted text

The form in which messages show a text: between single quotes, or between double quotes where the text holds a
single quote and no double quote.  The quote in use, the backslash and whatever is not printable are escaped.
-/

namespace ManifestLens.Text

/-- A hexadecimal digit in lower case. -/
def hexDigit (n : Nat) : Char :=
  if n < 10 then Char.ofNat (48 + n) else Char.ofNat (87 + n)

/-- The last `width` hexadecimal digits of a number. -/
def hexDigits : (width : Nat) → Nat → List Char
  | 0, _ => []
  | width + 1, n => hexDigits width (n / 16) ++ [hexDigit (n % 16)]

/-- A number in hexadecimal, with at least `width` digits. -/
def hexNumber (width n : Nat) : String :=
  let digits := (Nat.toDigits 16 n)
  String.ofList (List.replicate (width - digits.length) '0' ++ digits)

/-- The escape of a character by its code point, in the shortest of the three forms that can hold it. -/
def escapeCode (n : Nat) : List Char :=
  if n < 0x100 then ['\\', 'x'] ++ hexDigits 2 n
  else if n < 0x10000 then ['\\', 'u'] ++ hexDigits 4 n
  else ['\\', 'U'] ++ hexDigits 8 n

/-- How a character stands between the given quotes. -/
def escapeChar (quote c : Char) : List Char :=
  if c == quote || c == '\\' then ['\\', c]
  else if c == '\n' then ['\\', 'n']
  else if c == '\r' then ['\\', 'r']
  else if c == '\t' then ['\\', 't']
  else if isPrintable c then [c]
  else escapeCode c.toNat

/-- The quote that is put around a text. -/
def quoteFor (text : List Char) : Char :=
  if text.contains '\'' && !text.contains '"' then '"' else '\''

/-- A text between quotes. -/
def quoted (text : String) : String :=
  let quote := quoteFor text.toList
  String.ofList (quote :: text.toList.flatMap (escapeChar quote) ++ [quote])

/-- Bytes between quotes, after the mark `b`; all but printable ASCII is escaped. -/
def quotedBytes (data : List UInt8) : String :=
  let chars := data.map fun b => Char.ofNat b.toNat
  let quote := quoteFor chars
  let escape (c : Char) : List Char := if c.toNat < 0x7F then escapeChar quote c else escapeCode c.toNat
  String.ofList ('b' :: quote :: chars.flatMap escape ++ [quote])

end ManifestLens.Text
