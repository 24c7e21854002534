import ManifestLens.Yaml.Token.Name

/-!
# Quoted scalars

A scalar between single or double quotes may run over several lines, which are folded.  Between double quotes a
backslash starts an escape.
-/

namespace ManifestLens.Yaml.Cursor

open ManifestLens.Yaml

/-- The character that an escape of one letter stands for. -/
def escaped? : Char → Option Char
  | '0' => some '\x00'
  | 'a' => some '\x07'
  | 'b' => some '\x08'
  | 't' => some '\t'
  | '\t' => some '\t'
  | 'n' => some '\n'
  | 'v' => some '\x0b'
  | 'f' => some '\x0c'
  | 'r' => some '\r'
  | 'e' => some '\x1b'
  | ' ' => some ' '
  | '"' => some '"'
  | '\\' => some '\\'
  | '/' => some '/'
  | 'N' => some '\x85'
  | '_' => some '\xa0'
  | 'L' => some '\u2028'
  | 'P' => some '\u2029'
  | _ => none

/-- How many hexadecimal digits follow an escape for a code point. -/
def escapeWidth? : Char → Option Nat
  | 'x' => some 2
  | 'u' => some 4
  | 'U' => some 8
  | _ => none

/-- An escape for a code point, given its digits. -/
def codeEscape (c : Cursor) (since : Mark) (width : Nat) : Except Error (Char × Cursor) :=
  let digits := (List.range width).map c.peek
  match digits.find? fun a => !isHex a with
  | some bad => c.fails .doubleQuoted since (.expectedEscape width bad)
  | none =>
    let code := Text.hexValue digits
    if code < 0x110000 then
      .ok (if 0xD800 ≤ code && code < 0xE000 then '\ufffd' else Char.ofNat code, c.advance width)
    else .error (.codePoint code)

/-- The line breaks after the first one, past the blanks that lead up to each. -/
def foldedBreaks (since : Mark) (breaks : List Char) : (fuel : Nat) → Cursor → Except Error (List Char × Cursor)
  | 0, c => .ok (breaks, c)
  | fuel + 1, c =>
    if c.atSeparator then c.fails .quoted since .separator
    else
      let c := c.skip isIndent
      if isBreak c.head then
        let (lineBreak, after) := c.lineBreak
        foldedBreaks since (breaks ++ lineBreak) fuel after
      else .ok (breaks, c)

/-- A character that stands for itself in a quoted scalar. -/
def isQuotedPlain (c : Char) : Bool :=
  !(c == '\'' || c == '"' || c == '\\' || isGap c)

/-- The part of a quoted scalar up to the next blank, line break or closing quote. -/
def quotedWord (double : Bool) (since : Mark) (text : List Char) :
    (fuel : Nat) → Cursor → Except Error (List Char × Cursor)
  | 0, c => .ok (text, c)
  | fuel + 1, c =>
    let (run, c) := c.span isQuotedPlain
    let text := text ++ run
    let h := c.head
    if !double && h == '\'' && c.peek 1 == '\'' then quotedWord double since (text ++ ['\'']) fuel (c.advance 2)
    else if (double && h == '\'') || (!double && (h == '"' || h == '\\')) then
      quotedWord double since (text ++ [h]) fuel c.next
    else if double && h == '\\' then
      let c := c.next
      match escaped? c.head, escapeWidth? c.head with
      | some a, _ => quotedWord double since (text ++ [a]) fuel c.next
      | none, some width => do
        let (a, after) ← c.next.codeEscape since width
        quotedWord double since (text ++ [a]) fuel after
      | none, none =>
        if isBreak c.head then do
          let after := c.lineBreak.2
          let (breaks, after) ← foldedBreaks since [] (after.rest.length + 1) after
          quotedWord double since (text ++ breaks) fuel after
        else c.fails .doubleQuoted since (.unknownEscape c.head)
    else .ok (text, c)

/-- The blanks or folded line breaks between two parts of a quoted scalar. -/
def quotedSpace (c : Cursor) (since : Mark) : Except Error (List Char × Cursor) :=
  let (blanks, c) := c.span isIndent
  if c.head == '\x00' then c.fails .quoted since .endOfStream
  else if isBreak c.head then do
    let (lineBreak, after) := c.lineBreak
    let (breaks, after) ← foldedBreaks since [] (after.rest.length + 1) after
    let joint := if lineBreak != ['\n'] then lineBreak else if breaks.isEmpty then [' '] else []
    return (joint ++ breaks, after)
  else .ok (blanks, c)

/-- The parts of a quoted scalar up to its closing quote. -/
def quotedParts (quote : Char) (since : Mark) (text : List Char) :
    (fuel : Nat) → Cursor → Except Error (List Char × Cursor)
  | 0, c => .ok (text, c)
  | fuel + 1, c =>
    if c.head == quote then .ok (text, c)
    else do
      let (space, afterSpace) ← c.quotedSpace since
      let (word, after) ← quotedWord (quote == '"') since [] (afterSpace.rest.length + 1) afterSpace
      quotedParts quote since (text ++ space ++ word) fuel after

/-- A quoted scalar, whose opening quote is ahead. -/
def quotedScalar (c : Cursor) : Except Error (Token × Cursor) := do
  let since := c.mark
  let quote := c.head
  let fuel := c.rest.length + 1
  let (word, afterWord) ← quotedWord (quote == '"') since [] fuel c.next
  let (text, after) ← quotedParts quote since word fuel afterWord
  let after := after.next
  let style := if quote == '"' then ScalarStyle.double else .single
  return (⟨.scalar (String.ofList text) style, since, after.mark⟩, after)

end ManifestLens.Yaml.Cursor
