import ManifestLens.Yaml.Token.Name

/-!
# Block scalars

A literal or folded scalar has a header line, then lines that are indented alike.  Folding joins lines that neither
start with a blank nor are parted by an empty line; chomping decides about the breaks at the end.
-/

namespace ManifestLens.Yaml.Cursor

open ManifestLens.Yaml

/-- What is kept of the line breaks at the end: all, none, or the first. -/
inductive Chomping where
  | keep | strip | clip
  deriving DecidableEq

/-- The header of a block scalar: chomping and the indentation, in either order. -/
structure BlockHeader where
  chomping : Chomping
  increment : Option Nat

def chomping? (c : Char) : Option Chomping :=
  if c == '+' then some .keep else if c == '-' then some .strip else none

/-- An indentation indicator. -/
def increment (c : Cursor) (since : Mark) : Except Error (Option Nat × Cursor) :=
  if c.head == '0' then c.fails .blockScalar since .zeroIndentation
  else if c.head.isDigit then .ok (some (c.head.toNat - 48), c.next)
  else .ok (none, c)

/-- The header after its mark. -/
def blockHeader (c : Cursor) (since : Mark) : Except Error (BlockHeader × Cursor) := do
  let (header, after) ←
    match chomping? c.head with
    | some chomping => do
      let (n, after) ← c.next.increment since
      pure (BlockHeader.mk chomping n, after)
    | none => do
      let (n, after) ← c.increment since
      match n, chomping? after.head with
      | some _, some chomping => pure (BlockHeader.mk chomping n, after.next)
      | _, _ => pure (BlockHeader.mk .clip n, after)
  if isSpaceStop after.head then return (header, after)
  else after.fails .blockScalar since (.expectedIndicators after.head)

/-- What leads up to a line of a block scalar: line breaks, how far the blanks among them reach, the place after the
last break, and the cursor after all of them. -/
structure Lead where
  breaks : List Char
  reach : Nat
  stop : Mark
  cursor : Cursor

/-- The leading lines, whose indentation is not known yet. -/
def freeLead (breaks : List Char) (reach : Nat) (stop : Mark) : (fuel : Nat) → Cursor → Lead
  | 0, c => ⟨breaks, reach, stop, c⟩
  | fuel + 1, c =>
    if c.head == ' ' then
      let after := c.next
      freeLead breaks (max reach after.column) stop fuel after
    else if isBreak c.head then
      let (lineBreak, after) := c.lineBreak
      freeLead (breaks ++ lineBreak) reach after.mark fuel after
    else ⟨breaks, reach, stop, c⟩

/-- Past blanks, up to a column. -/
def skipTo (c : Cursor) (column : Nat) : Cursor :=
  c.advance (min (c.rest.takeWhile (· == ' ')).length (column - c.column))

/-- The lines before the next line with the given indentation. -/
def indentedLead (column : Nat) (breaks : List Char) (stop : Mark) : (fuel : Nat) → Cursor → Lead
  | 0, c => ⟨breaks, 0, stop, c⟩
  | fuel + 1, c =>
    let c := c.skipTo column
    if isBreak c.head then
      let (lineBreak, after) := c.lineBreak
      indentedLead column (breaks ++ lineBreak) after.mark fuel after
    else ⟨breaks, 0, stop, c⟩

/-- The lines of a block scalar.  `text` is what was read so far, `lead` what leads up to the next line and `last` the
break that ended the line before. -/
def blockLines (folded : Bool) (column : Nat) :
    (fuel : Nat) → (text : List Char) → (lead : Lead) → (last : List Char) → List Char × Lead × List Char
  | 0, text, lead, last => (text, lead, last)
  | fuel + 1, text, lead, last =>
    let c := lead.cursor
    if c.column != column || c.head == '\x00' then (text, lead, last)
    else
      let (line, afterLine) := c.span fun a => !isLineStop a
      let (lineBreak, afterBreak) := afterLine.lineBreak
      let next := indentedLead column [] afterBreak.mark (afterBreak.rest.length + 1) afterBreak
      let text := text ++ lead.breaks ++ line
      let d := next.cursor
      if d.column != column || d.head == '\x00' then (text, next, lineBreak)
      else
        let joint :=
          if folded && lineBreak == ['\n'] && !isIndent c.head && !isIndent d.head then
            (if next.breaks.isEmpty then [' '] else [])
          else lineBreak
        blockLines folded column fuel (text ++ joint) next lineBreak

/-- A block scalar, whose mark is ahead, in a collection that is indented by `indent`. -/
def blockScalar (c : Cursor) (folded : Bool) (indent : Int) : Except Error (Token × Cursor) := do
  let since := c.mark
  let (header, afterHeader) ← c.next.blockHeader since
  let c ← afterHeader.endLine .blockScalar since
  let least := (max (indent + 1) 1).toNat
  let fuel := c.rest.length + 1
  let (column, lead) := match header.increment with
    | none =>
      let lead := freeLead [] 0 c.mark fuel c
      (max least lead.reach, lead)
    | some n =>
      let column := least + n - 1
      (column, indentedLead column [] c.mark fuel c)
  let (text, next, last) := blockLines folded column fuel [] lead []
  let tail := match header.chomping with
    | .strip => []
    | .clip => last
    | .keep => last ++ next.breaks
  let style := if folded then ScalarStyle.folded else .literal
  return (⟨.scalar (String.ofList (text ++ tail)) style, since, next.stop⟩, next.cursor)

end ManifestLens.Yaml.Cursor
