import ManifestLens.Text.Quoted
import ManifestLens.Yaml.Mark

/-!
# Writing YAML scalars

A pen knows what it has written and at which column it stands.  Long scalars are folded at blanks once the pen has
passed its width.
-/

namespace ManifestLens.Yaml

/-- What was written, the latest character first, and where the pen stands. -/
structure Pen where
  written : List Char
  column : Nat
  /-- The last character is a blank, or nothing stands on the line. -/
  spaced : Bool
  /-- Only indentation and marks of collections stand on the line. -/
  indenting : Bool
  /-- The text could go on after the document. -/
  openEnded : Bool
  width : Nat

namespace Pen

def start (width : Nat) : Pen := ⟨[], 0, true, true, false, width⟩

/-- Writes characters of one line. -/
def put (p : Pen) (text : List Char) : Pen :=
  { p with written := text.reverse ++ p.written, column := p.column + text.length }

/-- Ends the line. -/
def newLine (p : Pen) : Pen :=
  { p with written := '\n' :: p.written, column := 0, spaced := true, indenting := true }

/-- Goes to a column, on the next line unless the pen stands before it. -/
def indent (p : Pen) (column : Nat) : Pen :=
  let p := if !p.indenting || p.column > column || (p.column == column && !p.spaced) then p.newLine else p
  if p.column < column then { p.put (List.replicate (column - p.column) ' ') with spaced := true } else p

/-- Writes a mark, after a blank if it needs one; marks of collections keep the line open for more of them. -/
def mark (p : Pen) (text : List Char) (apart collection : Bool) : Pen :=
  let text := if p.spaced || !apart then text else ' ' :: text
  { p.put text with spaced := false, indenting := p.indenting && collection, openEnded := false }

/-! ### Plain and single-quoted scalars -/

/-- What the characters before the pen are. -/
inductive Run where
  | text | blanks | breaks
  deriving DecidableEq

def Run.of (c : Char) : Run :=
  if c == ' ' then .blanks else if c == '\n' then .breaks else .text

/-- Writes a run of blanks, or folds the line at a single one. -/
def blanks (p : Pen) (run : List Char) (column : Nat) (mayFold : Bool) : Pen :=
  if run.length == 1 && p.column > p.width && mayFold then { p.indent column with spaced := false, indenting := false }
  else p.put run

/-- Writes the rest of a plain scalar, after a run that is not written yet. -/
def plainFrom (column : Nat) (mayFold : Bool) (run : List Char) (p : Pen) : List Char → Pen
  | [] => p.put run.reverse
  | c :: rest =>
    if c == ' ' then
      match run with
      | ' ' :: _ => plainFrom column mayFold (c :: run) p rest
      | _ => plainFrom column mayFold [c] (p.put run.reverse) rest
    else
      match run with
      | ' ' :: _ => plainFrom column mayFold [c] (p.blanks run column mayFold) rest
      | _ => plainFrom column mayFold (c :: run) p rest

/-- Writes a plain scalar. -/
def plain (p : Pen) (text : List Char) (column : Nat) (mayFold : Bool) : Pen :=
  if text.isEmpty then p
  else
    let p := if p.spaced then p else p.put [' ']
    plainFrom column mayFold [] { p with spaced := false, indenting := false } text

/-- Writes a run of a single-quoted scalar.  Line breaks are doubled, and a blank folds the line unless the scalar
starts or ends with it. -/
def singleRun (p : Pen) (kind : Run) (run : List Char) (column : Nat) (mayFold first last : Bool) : Pen :=
  match kind with
  | .text => p.put run.reverse
  | .blanks =>
    if run.length == 1 && p.column > p.width && mayFold && !first && !last then p.indent column
    else p.put run.reverse
  | .breaks => (run.foldl (fun p _ => p.newLine) p.newLine).indent column

/-- Writes the rest of a single-quoted scalar, after a run that is not written yet; `first` tells whether the run
starts the scalar. -/
def singleFrom (column : Nat) (mayFold : Bool) (kind : Run) (run : List Char) (first : Bool) (p : Pen) :
    List Char → Pen
  | [] => p.singleRun kind run column mayFold first true
  | c :: rest =>
    if c == '\'' then
      singleFrom column mayFold .text [] false ((p.singleRun kind run column mayFold first false).put ['\'', '\'']) rest
    else if run.isEmpty then singleFrom column mayFold (Run.of c) [c] first p rest
    else if Run.of c == kind then singleFrom column mayFold kind (c :: run) first p rest
    else singleFrom column mayFold (Run.of c) [c] false (p.singleRun kind run column mayFold first false) rest

/-- Writes a single-quoted scalar. -/
def single (p : Pen) (text : List Char) (column : Nat) (mayFold : Bool) : Pen :=
  (singleFrom column mayFold .text [] true (p.mark ['\''] true false) text).mark ['\''] false false

/-! ### Double-quoted scalars -/

/-- The letters that stand for characters after a backslash. -/
def escapeLetters : List (Char × Char) :=
  [('\x00', '0'), ('\x07', 'a'), ('\x08', 'b'), ('\t', 't'), ('\n', 'n'), ('\x0b', 'v'), ('\x0c', 'f'), ('\r', 'r'),
    ('\x1b', 'e'), ('"', '"'), ('\\', '\\'), ('\x85', 'N'), ('\xa0', '_'), ('\u2028', 'L'), ('\u2029', 'P')]

/-- A number in upper-case hexadecimal. -/
def upperHex (width n : Nat) : List Char :=
  (Text.hexDigits width n).map Char.toUpper

/-- The escape of a character, unless it stands for itself. -/
def escape? (c : Char) : Option (List Char) :=
  let n := c.toNat
  if c != '"' && c != '\\' && 0x20 ≤ n && n ≤ 0x7E then none
  else
    match escapeLetters.lookup c with
    | some letter => some ['\\', letter]
    | none =>
      if n ≤ 0xFF then some ('\\' :: 'x' :: upperHex 2 n)
      else if n ≤ 0xFFFF then some ('\\' :: 'u' :: upperHex 4 n)
      else some ('\\' :: 'U' :: upperHex 8 n)

/-- Ends a line of a double-quoted scalar; a blank that follows is escaped. -/
def foldDouble (p : Pen) (column : Nat) (next : Option Char) : Pen :=
  let p := { (p.put ['\\']).indent column with spaced := false, indenting := false }
  if next == some ' ' then p.put ['\\'] else p

/-- The line is full after `ahead` more characters, and the scalar goes on. -/
def isFull (p : Pen) (mayFold first : Bool) (ahead : Int) (rest : List Char) : Bool :=
  mayFold && !first && !rest.isEmpty && (p.column : Int) + ahead > p.width

/-- Writes the rest of a double-quoted scalar, after a run that is not written yet; `first` tells whether nothing
came before. -/
def doubleFrom (column : Nat) (mayFold : Bool) (run : List Char) (first : Bool) (p : Pen) : List Char → Pen
  | [] => p.put run.reverse
  | c :: rest =>
    match escape? c with
    | some escape =>
      let p := (p.put run.reverse).put escape
      let p := if p.isFull mayFold first (-1) rest then p.foldDouble column rest.head? else p
      doubleFrom column mayFold [] false p rest
    | none =>
      if (c == ' ' || run.isEmpty) && p.isFull mayFold first run.length rest then
        doubleFrom column mayFold [c] false ((p.put run.reverse).foldDouble column (some c)) rest
      else doubleFrom column mayFold (c :: run) false p rest

/-- Writes a double-quoted scalar. -/
def double (p : Pen) (text : List Char) (column : Nat) (mayFold : Bool) : Pen :=
  (doubleFrom column mayFold [] true (p.mark ['"'] true false) text).mark ['"'] false false

/-! ### Literal scalars -/

/-- Writes the lines of a literal scalar. -/
def literalFrom (column : Nat) (p : Pen) : List (List Char) → Pen
  | [] => p
  | line :: rest =>
    let p := if line.isEmpty then p else (p.indent column).put line
    literalFrom column p.newLine rest

end Pen

end ManifestLens.Yaml
