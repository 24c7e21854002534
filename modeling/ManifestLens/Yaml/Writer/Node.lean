import ManifestLens.Yaml.Node.OfValue
import ManifestLens.Yaml.Writer.Pen
import ManifestLens.Yaml.Writer.Style

/-!
# Writing YAML

Nodes are written in block style: a pair or item on each line, and what belongs to it indented below.  Empty
collections stand between brackets.
-/

namespace ManifestLens.Yaml

/-- Where a node stands: as the root, as an item, as a value, or as a key on its line. -/
inductive Place where
  | root | item | value | key
  deriving DecidableEq, Inhabited

/-- The indentation inside of a collection. -/
def deeper : Option Nat → Nat
  | none => 0
  | some n => n + 2

/-- The indentation of the further lines of a scalar. -/
def scalarIndent : Option Nat → Nat
  | none => 2
  | some n => n + 2

/-- The short form of a standard tag. -/
def shortTag (tag : String) : List Char :=
  let standard := "tag:yaml.org,2002:".toList
  if standard.isPrefixOf tag.toList then '!' :: '!' :: tag.toList.drop standard.length else tag.toList

/-- Whether a scalar is written on lines of its own. -/
def isLiteral (tag : String) : Bool :=
  tag == Tag.standard "binary"

/-- The lines of a text that ends with a line break. -/
def literalLines (text : List Char) : List (List Char) :=
  (text.foldr (fun c lines =>
    match lines with
    | line :: rest => if c == '\n' then [] :: line :: rest else (c :: line) :: rest
    | [] => []) [[]]).dropLast

/-- The style of a scalar at a place. -/
def scalarStyle (tag text : String) (place : Place) : WrittenStyle :=
  (Traits.of text.toList).style (plainTag text == tag) (isLiteral tag) (place == .key)

/-- Writes a scalar. -/
def writeScalar (p : Pen) (indent : Option Nat) (place : Place) (tag text : String) : Pen :=
  let style := scalarStyle tag text place
  let untagged := if style == .plain then plainTag text == tag else tag == Tag.str
  let p := if untagged then p else p.mark (shortTag tag) true false
  let column := scalarIndent indent
  let mayFold := place != .key
  match style with
  | .plain => { p.plain text.toList column mayFold with openEnded := place == .root }
  | .single => p.single text.toList column mayFold
  | .double => p.double text.toList column mayFold
  | .literal => Pen.literalFrom column (p.mark ['|'] true false).newLine (literalLines text.toList)

/-- A node that can be a key on its line: short, and not over several lines. -/
def isSimpleKey : Node → Bool
  | .scalar tag text _ _ =>
    let traits := Traits.of text.toList
    (shortTag tag).length + text.length < 128 && !traits.empty && !traits.multiline
  | .sequence tag items _ _ => (shortTag tag).length < 128 && items.isEmpty
  | .mapping tag pairs _ _ => (shortTag tag).length < 128 && pairs.isEmpty

/-- Writes the tag of a collection, unless it is the usual one. -/
def writeTag (p : Pen) (tag usual : String) : Pen :=
  if tag == usual then p else p.mark (shortTag tag) true false

mutual

/-- Writes a node. -/
def writeNode (indent : Option Nat) (place : Place) (p : Pen) : Node → Pen
  | .scalar tag text _ _ => writeScalar p indent place tag text
  | .sequence tag items _ _ =>
    let p := writeTag p tag Tag.seq
    match items with
    | [] => (p.mark ['['] true false).mark [']'] false false
    | first :: rest =>
      let inMapping := place == .value || place == .key
      let inner := if inMapping && !p.indenting then indent.getD 0 else deeper indent
      writeItems inner p (first :: rest)
  | .mapping tag pairs _ _ =>
    let p := writeTag p tag Tag.map
    match pairs with
    | [] => (p.mark ['\x7b'] true false).mark ['\x7d'] false false
    | first :: rest => writePairs (deeper indent) p (first :: rest)

def writeItems (indent : Nat) (p : Pen) : List Node → Pen
  | [] => p
  | item :: rest =>
    writeItems indent (writeNode (some indent) .item ((p.indent indent).mark ['-'] true true) item) rest

def writePairs (indent : Nat) (p : Pen) : List (Node × Node) → Pen
  | [] => p
  | (key, value) :: rest =>
    let p := p.indent indent
    let p :=
      if isSimpleKey key then (writeNode (some indent) .key p key).mark [':'] false false
      else
        let p := writeNode (some indent) .value (p.mark ['?'] true true) key
        (p.indent indent).mark [':'] true true
    writePairs indent (writeNode (some indent) .value p value) rest

end

/-- Writes a value as a document with lines of about the given width. -/
def write (width : Nat) (value : Value) : String :=
  let p := writeNode none .root (.start width) (Node.ofValue (ordered value))
  let openEnded := p.openEnded
  let p := p.indent 0
  let p := if openEnded then (p.mark ['.', '.', '.'] true false).indent 0 else p
  String.ofList p.written.reverse

end ManifestLens.Yaml
