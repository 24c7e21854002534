import ManifestLens.Expression.Classify
import ManifestLens.Schema.Key
import ManifestLens.Text.Blank

/-!
# Outlines of scalars

A scalar becomes one token for each of its lines, and an expression one token for each token of the expression.  Both
hand on the position of their last token, from which the distance to the next one counts.
-/

namespace ManifestLens

open Yaml (Mark Node)

/-- The lines of a file, and the position at which a document starts. -/
structure Page where
  lines : List (List Char)
  anchor : Position

/-- Outlines, and the position of their last token. -/
abbrev Outlined := List Outline × Position

/-- A mark as a position. -/
def Yaml.Mark.position (m : Mark) : Position :=
  ⟨m.line, m.column⟩

namespace Page

/-- A line of the file. -/
def line (page : Page) (n : Nat) : Except Fault (List Char) :=
  match page.lines[n]? with
  | some text => .ok text
  | none => .error .outOfRange

/-- The stretch between two marks, seen from the start of the document. -/
def range (page : Page) (start stop : Mark) : Range :=
  ⟨start.position.relativeTo page.anchor, stop.position.relativeTo page.anchor⟩

/-! ### Plain scalars -/

/-- The tokens of the further lines of a scalar, like its first token but for their places. -/
def furtherTokens (page : Page) (first : Token) (line : Nat) : (count : Nat) → Except Fault (List Token)
  | 0 => .ok []
  | count + 1 => do
    let text ← page.line line
    let token : Token :=
      { first with
        delta := ⟨1, (text.length : Int) - (Text.dropBlank text).length⟩
        place := Position.relativeTo ⟨line, 0⟩ page.anchor
        length := (Text.trimBlank text).length }
    return token :: (← page.furtherTokens first (line + 1) count)

/-- How far the first line of a scalar goes. -/
def firstLength (page : Page) (start stop : Mark) : Except Fault Int :=
  if start.line == stop.line then .ok ((stop.column : Int) - start.column)
  else (page.line start.line).map fun text => (text.length : Int) - start.column

/-- The distance from the last token to a mark. -/
def deltaTo (start : Mark) (last : Position) : Position :=
  ⟨start.line - last.line, if (start.line : Int) > last.line then start.column else start.column - last.character⟩

/-- The outline of a scalar: a token, or a block of tokens if it has several lines. -/
def scalar (page : Page) (entry : Entry) (text : String) (start stop : Mark) (last : Position)
    (remark : Option Remark) : Except Fault Outlined := do
  let length ← page.firstLength start stop
  let localKey ← ruledKey entry.localKey (.text text)
  let indexKey ← ruledKey entry.indexKey (.text text)
  let first : Token :=
    { delta := deltaTo start last
      place := start.position.relativeTo page.anchor
      length, localKey, indexKey
      kind := entry.kind
      modifiers := entry.modifiers
      remark }
  match stop.line - start.line - 1 with
  | 0 => return ([.token first none], start.position)
  | more =>
    let others ← page.furtherTokens first (start.line + 1) more
    let tokens := (first :: others).map fun t => Outline.token t none
    return ([.block localKey indexKey (page.range start stop) (some tokens)], ⟨start.line + more, 0⟩)

/-! ### Expressions -/

/-- The tokens of an expression that may not be lexed. -/
def highlighted (tokens : Except (List Char) (List Token)) : Except Fault (List Token) :=
  match tokens with
  | .ok tokens => .ok tokens
  | .error rest => .error (.unlexable rest)

/-- The tokens of an expression on one line, which starts at the first equals sign. -/
def lineExpression (page : Page) (text : String) (start : Mark) (last : Position) : Except Fault (List Token) := do
  let line ← page.line start.line
  match (line.drop start.column).findIdx? (· == '=') with
  | none => .error .outOfRange
  | some n =>
    let column : Int := start.column + n
    let offset := if (start.line : Int) > last.line then column else column - last.character
    highlighted (Expression.highlight [text.toList] (last.line - page.anchor.line) (start.line - last.line) offset
      (column - offset))

/-- The tokens of an expression on several lines: the mark before it, and those of the lines after. -/
def blockExpression (page : Page) (start stop : Mark) (last : Position) (modifiers : Option (List Modifier))
    (remark : Option Remark) : Except Fault (List Token) := do
  let line ← page.line start.line
  let header : Token :=
    { delta := start.position.relativeTo last
      place := start.position.relativeTo page.anchor
      length := (line.length : Int) - start.column
      localKey := none, indexKey := none
      kind := .operator
      modifiers, remark }
  let inside := (page.lines.drop (start.line + 1)).take (stop.line - (start.line + 1))
  let tokens ← highlighted (Expression.highlight inside (header.place.line) 1 0 0)
  return header :: tokens

/-- The outline of an expression: a block of its tokens. -/
def expression (page : Page) (text : String) (start stop : Mark) (last : Position)
    (modifiers : Option (List Modifier)) (remark : Option Remark) : Except Fault Outlined := do
  let tokens ←
    if start.line == stop.line then page.lineExpression text start last
    else page.blockExpression start stop last modifiers remark
  let outline := Outline.block none none (page.range start stop) (some (tokens.map fun t => .token t none))
  match tokens.getLast? with
  | none => .error .outOfRange
  | some t => return ([outline], t.place.absolute page.anchor 0)

end Page

end ManifestLens
