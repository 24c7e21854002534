import ManifestLens.Yaml.Error
import ManifestLens.Yaml.Token

/-!
# Plain scalars

A scalar without quotes ends before a comment, a mark that follows it, or a line that is indented less than its
collection.  Its lines are folded.
-/

namespace ManifestLens.Yaml.Cursor

open ManifestLens.Yaml

/-- A mark of a flow collection. -/
def isFlowMark (c : Char) : Bool :=
  c == ',' || c == '[' || c == ']' || c == '\x7b' || c == '\x7d'

/-- A plain scalar ends before the given character, which another one follows. -/
def endsPlain (inFlow : Bool) (c next : Char) : Bool :=
  isGap c || (c == ':' && (isGap next || (inFlow && isFlowMark next))) || (inFlow && (isFlowMark c || c == '?'))

/-- The run of a plain scalar up to the next blank or mark. -/
def plainRun (inFlow : Bool) : List Char → List Char
  | [] => []
  | c :: rest => if endsPlain inFlow c (rest.head?.getD '\x00') then [] else c :: plainRun inFlow rest

/-- The line breaks after the first one; nothing at a mark between documents. -/
def plainBreaks (breaks : List Char) : (fuel : Nat) → Cursor → Option (List Char) × Cursor
  | 0, c => (some breaks, c)
  | fuel + 1, c =>
    if c.head == ' ' then plainBreaks breaks fuel c.next
    else if isBreak c.head then
      let (lineBreak, after) := c.lineBreak
      if after.atSeparator then (none, after) else plainBreaks (breaks ++ lineBreak) fuel after
    else (some breaks, c)

/-- What joins two runs of a plain scalar, where it may go on; whether a line break was passed; and the cursor after
it. -/
def plainSpace (c : Cursor) : Option (List Char) × Bool × Cursor :=
  let (blanks, c) := c.span (· == ' ')
  if isBreak c.head then
    let (lineBreak, after) := c.lineBreak
    if after.atSeparator then (none, true, after)
    else
      match plainBreaks [] (after.rest.length + 1) after with
      | (none, after) => (none, true, after)
      | (some breaks, after) =>
        let joint := if lineBreak != ['\n'] then lineBreak else if breaks.isEmpty then [' '] else []
        (some (joint ++ breaks), true, after)
  else if blanks.isEmpty then (none, false, c)
  else (some blanks, false, c)

/-- What is known of a plain scalar while it is read. -/
structure Plain where
  text : List Char
  stop : Mark
  cursor : Cursor
  /-- A line break was passed after the last run. -/
  broken : Bool

/-- The runs of a plain scalar; `joint` is what joins the next run to the text so far. -/
def plainRuns (inFlow : Bool) (indent : Int) (joint : List Char) : (fuel : Nat) → Plain → Plain
  | 0, p => p
  | fuel + 1, p =>
    if p.cursor.head == '#' then p
    else
      let run := plainRun inFlow p.cursor.rest
      if run.isEmpty then p
      else
        let stop := p.cursor.advance run.length
        let (space, broken, after) := stop.plainSpace
        let read : Plain := ⟨p.text ++ joint ++ run, stop.mark, after, broken⟩
        match space with
        | none => read
        | some joint =>
          if after.head == '#' || (!inFlow && (after.column : Int) < indent) then read
          else plainRuns inFlow indent joint fuel read

/-- A plain scalar in a collection that is indented by `indent`; also tells whether a line break follows it. -/
def plainScalar (c : Cursor) (inFlow : Bool) (indent : Int) : Token × Bool × Cursor :=
  let p := plainRuns inFlow (indent + 1) [] (c.rest.length + 1) ⟨[], c.mark, c, false⟩
  (⟨.scalar (String.ofList p.text) .plain, c.mark, p.stop⟩, p.broken, p.cursor)

end ManifestLens.Yaml.Cursor
