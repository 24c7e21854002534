/-!
# Positions

A position is a line and a character, both from zero.  Inside a document a position is held relative to the start of
the document: its line counts from there, and on that first line its character does too.
-/

namespace ManifestLens

/-- A place in a text, or the distance between two places. -/
structure Position where
  line : Int
  character : Int
  deriving DecidableEq, Inhabited

/-- A stretch of text. -/
structure Range where
  start : Position
  stop : Position
  deriving DecidableEq, Inhabited

namespace Position

def origin : Position := ⟨0, 0⟩

/-- The place of `p` seen from `base`: on later lines the character stays as it is. -/
def relativeTo (p base : Position) : Position :=
  let line := p.line - base.line
  ⟨line, if line > 0 then p.character else p.character - base.character⟩

/-- The place that lies `rel` from `base`, `length` characters further on. -/
def absolute (rel base : Position) (length : Int) : Position :=
  ⟨base.line + rel.line, rel.character + length⟩

/-- A position in a message. -/
def text (p : Position) : String :=
  s!"{p.line}:{p.character}"

end Position

/-- A stretch of text seen from `base`. -/
def Range.relativeTo (r : Range) (base : Position) : Range :=
  ⟨r.start.relativeTo base, r.stop.relativeTo base⟩

end ManifestLens
