import ManifestLens.Outline.Kind
import ManifestLens.Position

/-!
# Outlines

The outline of a document is a tree of tokens and blocks under the document's anchor.  A token has its place twice:
as the distance from the token before it, which is how an editor is told, and relative to the anchor, which is how
ranges are found again.  Tokens and blocks may have a local key, by which they are found inside their document, and an
index key, by which they are found from everywhere.
-/

namespace ManifestLens

/-- How grave a remark is. -/
inductive Severity where
  | debug | info | warning | error
  deriving DecidableEq, Inhabited

/-- A fault that was found at a token. -/
structure Remark where
  message : String
  severity : Severity
  deriving DecidableEq, Inhabited

/-- A highlighted piece of one line. -/
structure Token where
  /-- The distance from the token before. -/
  delta : Position
  /-- The place seen from the document's anchor. -/
  place : Position
  length : Int
  localKey : Option String
  indexKey : Option String
  kind : TokenKind
  modifiers : Option (List Modifier)
  remark : Option Remark
  deriving DecidableEq, Inhabited

/-- A tree of tokens, blocks and anchors.  Children that are absent differ from an empty list of children. -/
inductive Outline where
  | anchor (key : Option String) (absolute relative : Position) (children : Option (List Outline))
  | block (localKey indexKey : Option String) (range : Range) (children : Option (List Outline))
  | token (token : Token) (children : Option (List Outline))
  deriving Inhabited

/-- The outline of a whole document. -/
structure Anchor where
  key : Option String
  absolute : Position
  relative : Position
  children : Option (List Outline)
  deriving Inhabited

/-- The anchor as the root of its tree. -/
def Anchor.outline (a : Anchor) : Outline :=
  .anchor a.key a.absolute a.relative a.children

/-- Its children, if it has any. -/
def Anchor.parts (a : Anchor) : List Outline :=
  a.children.getD []

namespace Outline

def children? : Outline → Option (List Outline)
  | .anchor _ _ _ children => children
  | .block _ _ _ children => children
  | .token _ children => children

/-- The children, where absent ones count as none. -/
def parts (o : Outline) : List Outline :=
  o.children?.getD []

/-- The key by which the outline is found inside its document; an anchor is found by its own key. -/
def localKey : Outline → Option String
  | .anchor key _ _ _ => key
  | .block key _ _ _ => key
  | .token t _ => t.localKey

/-- The key by which the outline is found from everywhere. -/
def indexKey : Outline → Option String
  | .anchor key _ _ _ => key
  | .block _ key _ _ => key
  | .token t _ => t.indexKey

/-- A key that names something: the empty text does not. -/
def named (key : Option String) : Option String :=
  key.filter fun k => !k.isEmpty

end Outline

end ManifestLens
