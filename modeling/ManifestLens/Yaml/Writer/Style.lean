import ManifestLens.Yaml.Mark
import ManifestLens.Yaml.Tag

/-!
# Styles of scalars

Which characters and blanks a text holds decides whether it can be written plain or between single quotes.  Everything
outside printable ASCII and line feeds needs double quotes.
-/

namespace ManifestLens.Yaml

/-- How a scalar is written. -/
inductive WrittenStyle where
  | plain | single | double | literal
  deriving DecidableEq, Inhabited

/-- What decides on the style of a text. -/
structure Traits where
  empty : Bool
  multiline : Bool
  plain : Bool
  single : Bool
  literal : Bool
  deriving DecidableEq, Inhabited

/-- A character that no plain text may start with. -/
def startsIndicator (c : Char) : Bool :=
  "#,[]\x7b\x7d&*!|>'\"%@`".toList.contains c

/-- An indicator before a gap or the end of the text. -/
def beforeGap (rest : List Char) : Bool :=
  match rest with
  | [] => true
  | c :: _ => isGap c

/-- The first character makes a text something other than a plain scalar. -/
def leadsAstray : List Char → Bool
  | [] => false
  | c :: rest => startsIndicator c || ((c == '?' || c == ':' || c == '-') && beforeGap rest)

/-- A later character does: a colon before a gap, or a number sign after one. -/
def strays (previous : Char) : List Char → Bool
  | [] => false
  | c :: rest => (c == ':' && beforeGap rest) || (c == '#' && isGap previous) || strays c rest

/-- A mark between documents starts the text. -/
def startsSeparator (text : List Char) : Bool :=
  ['-', '-', '-'].isPrefixOf text || ['.', '.', '.'].isPrefixOf text

/-- A character that only double quotes can hold. -/
def isSpecial (c : Char) : Bool :=
  c != '\n' && !(0x20 ≤ c.toNat && c.toNat ≤ 0x7E)

/-- Two characters stand side by side. -/
def hasPair (a b : Char) : List Char → Bool
  | x :: y :: rest => (x == a && y == b) || hasPair a b (y :: rest)
  | _ => false

/-- A text starts or ends with the given character. -/
def startsOrEnds (c : Char) (text : List Char) : Bool :=
  text.head? == some c || text.getLast? == some c

/-- What decides on the style of a text. -/
def Traits.of (text : List Char) : Traits :=
  match text with
  | [] => ⟨true, false, true, true, false⟩
  | first :: rest =>
    let special := text.any isSpecial || hasPair ' ' '\n' text
    let indented := hasPair '\n' ' ' text
    let multiline := text.any fun c => isBreak c && c != '\r'
    let indicators := startsSeparator text || leadsAstray text || strays first rest
    { empty := false
      multiline := multiline
      plain := !(special || indented || multiline || indicators || startsOrEnds ' ' text)
      single := !(special || indented)
      literal := !(special || text.getLast? == some ' ') }

/-- The style of a scalar; `untagged` tells whether its tag follows from its plain text. -/
def Traits.style (t : Traits) (untagged literal asKey : Bool) : WrittenStyle :=
  if !literal && untagged && t.plain && !(asKey && (t.empty || t.multiline)) then .plain
  else if literal then (if !asKey && t.literal then .literal else .double)
  else if t.single && !(asKey && t.multiline) then .single
  else .double

end ManifestLens.Yaml
