import ManifestLens.Yaml.Error

/-!
# Space between tokens

Blanks, comments and line breaks stand between tokens.
-/

namespace ManifestLens.Yaml.Cursor

/-- Past blanks and a comment, up to the end of the line if a comment stands there. -/
def skipComment (c : Cursor) : Cursor :=
  let c := c.skip (· == ' ')
  if c.head == '#' then c.skip fun a => !isLineStop a else c

/-- Past blanks, comments and line breaks; also tells whether a line break was passed. -/
def skipSpace (broken : Bool) : (fuel : Nat) → Cursor → Bool × Cursor
  | 0, c => (broken, c)
  | fuel + 1, c =>
    match c.skipComment.lineBreak with
    | ([], after) => (broken, after)
    | (_, after) => skipSpace true fuel after

/-- Up to the next token; also tells whether a line break was passed.  A byte order mark may start the text. -/
def toNextToken (c : Cursor) : Bool × Cursor :=
  let c := if c.mark.index == 0 && c.head == '\ufeff' then c.next else c
  skipSpace false (c.rest.length + 1) c

/-- The rest of a line after a header: blanks and a comment only. -/
def endLine (c : Cursor) (task : Task) (since : Mark) : Except Error Cursor :=
  let c := c.skipComment
  if isLineStop c.head then .ok c.lineBreak.2
  else .error (.fault .tokens (some task) (some since) (.expectedLineEnd c.head) c.mark)

end ManifestLens.Yaml.Cursor
