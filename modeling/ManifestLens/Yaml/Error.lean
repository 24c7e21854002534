import ManifestLens.Text.Quoted
import ManifestLens.Yaml.Mark

/-!
# Errors of YAML texts

An error says at which stage of reading it came up, what was being read and from where on, and what is wrong and
where.  Its message shows both places with the text around them.
-/

namespace ManifestLens.Yaml

/-- The stage at which an error comes up: cutting the text into tokens, grouping the tokens, joining the groups to
nodes, or giving the nodes values. -/
inductive Stage where
  | tokens | events | nodes | values
  deriving DecidableEq, Inhabited

/-- What was being read. -/
inductive Task where
  | simpleKey
  | nextToken
  | directive
  | anchorName
  | aliasName
  | tag
  | tagText
  | directiveText
  | blockScalar
  | doubleQuoted
  | quoted
  | node
  | blockNode
  | flowNode
  | blockCollection
  | blockMapping
  | flowSequence
  | flowMapping
  | firstAnchor (name : String)
  | mapping
  | orderedMap
  | pairs
  deriving DecidableEq, Inhabited

/-- What is wrong. -/
inductive Problem where
  | missingColon
  | sequenceHere
  | keyHere
  | valueHere
  | strayCharacter (found : Char)
  | expectedName (found : Char)
  | expectedVersionPoint (found : Char)
  | expectedVersionEnd (found : Char)
  | expectedDigit (found : Char)
  | expectedSpace (found : Char)
  | expectedLineEnd (found : Char)
  | expectedTagEnd (found : Char)
  | expectedHandleMark (found : Char)
  | expectedUri (found : Char)
  | expectedUriEscape (found : Char)
  | undecodable (reason : String)
  | zeroIndentation
  | expectedIndicators (found : Char)
  | expectedEscape (count : Nat) (found : Char)
  | unknownEscape (found : Char)
  | endOfStream
  | separator
  | repeatedVersion
  | incompatibleVersion
  | repeatedHandle (handle : String)
  | expectedDocument (found : String)
  | undefinedHandle (handle : String)
  | expectedContent (found : String)
  | expectedBlockEnd (found : String)
  | expectedSequenceEnd (found : String)
  | expectedMappingEnd (found : String)
  | undefinedAlias (name : String)
  | secondAnchor
  | unknownTag (tag : String)
  | expectedNode (wanted found : String)
  | unhashableKey
  | unmergeableItem (found : String)
  | unmergeable (found : String)
  | expectedSequence (found : String)
  | expectedSingle (found : String)
  | expectedOneItem (count : Nat)
  | notAscii (reason : String)
  | notBase64 (reason : String)
  deriving DecidableEq, Inhabited

/-- What can be wrong with a YAML text. -/
inductive Error where
  /-- A character that no YAML text may hold. -/
  | character (code index : Nat)
  /-- An escape for a code point that does not exist. -/
  | codePoint (code : Nat)
  /-- A fault at a place; the task is shown from where it started, unless that is not known. -/
  | fault (stage : Stage) (task : Option Task) (since : Option Mark) (problem : Problem) (mark : Mark)
  deriving DecidableEq, Inhabited

/-! ### Messages -/

def Task.text : Task → String
  | .simpleKey => "while scanning a simple key"
  | .nextToken => "while scanning for the next token"
  | .directive => "while scanning a directive"
  | .anchorName => "while scanning an anchor"
  | .aliasName => "while scanning an alias"
  | .tag => "while scanning a tag"
  | .tagText => "while parsing a tag"
  | .directiveText => "while parsing a directive"
  | .blockScalar => "while scanning a block scalar"
  | .doubleQuoted => "while scanning a double-quoted scalar"
  | .quoted => "while scanning a quoted scalar"
  | .node => "while parsing a node"
  | .blockNode => "while parsing a block node"
  | .flowNode => "while parsing a flow node"
  | .blockCollection => "while parsing a block collection"
  | .blockMapping => "while parsing a block mapping"
  | .flowSequence => "while parsing a flow sequence"
  | .flowMapping => "while parsing a flow mapping"
  | .firstAnchor name => s!"found duplicate anchor {Text.quoted name}; first occurrence"
  | .mapping => "while constructing a mapping"
  | .orderedMap => "while constructing an ordered map"
  | .pairs => "while constructing pairs"

/-- A character between quotes. -/
def shown (c : Char) : String :=
  Text.quoted (String.ofList [c])

def Problem.text : Problem → String
  | .missingColon => "could not find expected ':'"
  | .sequenceHere => "sequence entries are not allowed here"
  | .keyHere => "mapping keys are not allowed here"
  | .valueHere => "mapping values are not allowed here"
  | .strayCharacter c => s!"found character {shown c} that cannot start any token"
  | .expectedName c => s!"expected alphabetic or numeric character, but found {shown c}"
  | .expectedVersionPoint c => s!"expected a digit or '.', but found {shown c}"
  | .expectedVersionEnd c => s!"expected a digit or ' ', but found {shown c}"
  | .expectedDigit c => s!"expected a digit, but found {shown c}"
  | .expectedSpace c => s!"expected ' ', but found {shown c}"
  | .expectedLineEnd c => s!"expected a comment or a line break, but found {shown c}"
  | .expectedTagEnd c => s!"expected '>', but found {shown c}"
  | .expectedHandleMark c => s!"expected '!', but found {shown c}"
  | .expectedUri c => s!"expected URI, but found {shown c}"
  | .expectedUriEscape c => s!"expected URI escape sequence of 2 hexadecimal numbers, but found {shown c}"
  | .undecodable reason => reason
  | .zeroIndentation => "expected indentation indicator in the range 1-9, but found 0"
  | .expectedIndicators c => s!"expected chomping or indentation indicators, but found {shown c}"
  | .expectedEscape n c => s!"expected escape sequence of {n} hexadecimal numbers, but found {shown c}"
  | .unknownEscape c => s!"found unknown escape character {shown c}"
  | .endOfStream => "found unexpected end of stream"
  | .separator => "found unexpected document separator"
  | .repeatedVersion => "found duplicate YAML directive"
  | .incompatibleVersion => "found incompatible YAML document (version 1.* is required)"
  | .repeatedHandle handle => s!"duplicate tag handle {Text.quoted handle}"
  | .expectedDocument found => s!"expected '<document start>', but found {Text.quoted found}"
  | .undefinedHandle handle => s!"found undefined tag handle {Text.quoted handle}"
  | .expectedContent found => s!"expected the node content, but found {Text.quoted found}"
  | .expectedBlockEnd found => s!"expected <block end>, but found {Text.quoted found}"
  | .expectedSequenceEnd found => s!"expected ',' or ']', but got {Text.quoted found}"
  | .expectedMappingEnd found => s!"expected ',' or '\x7d', but got {Text.quoted found}"
  | .undefinedAlias name => s!"found undefined alias {Text.quoted name}"
  | .secondAnchor => "second occurrence"
  | .unknownTag tag => s!"could not determine a constructor for the tag {Text.quoted tag}"
  | .expectedNode wanted found => s!"expected a {wanted} node, but found {found}"
  | .unhashableKey => "found unhashable key"
  | .unmergeableItem found => s!"expected a mapping for merging, but found {found}"
  | .unmergeable found => s!"expected a mapping or list of mappings for merging, but found {found}"
  | .expectedSequence found => s!"expected a sequence, but found {found}"
  | .expectedSingle found => s!"expected a mapping of length 1, but found {found}"
  | .expectedOneItem count => s!"expected a single mapping item, but found {count} items"
  | .notAscii reason => s!"failed to convert base64 data into ascii: {reason}"
  | .notBase64 reason => s!"failed to decode base64 data: {reason}"

/-- How many characters a message shows on either side of a place. -/
def snippetReach : Nat := 37

/-- What goes in place of text that is left out, and how much of the shown text it covers. -/
def ellipsis : List Char := " ... ".toList

/-- The line around a place, on a line of its own, with a caret below the place. -/
def Mark.snippet (m : Mark) (source : List Char) : String :=
  let before := ((source.take m.index).reverse.takeWhile fun c => !isLineStop c)
  let after := (source.drop m.index).takeWhile fun c => !isLineStop c
  let (head, left) :=
    if snippetReach ≤ before.length then (ellipsis, before.take (snippetReach - 5)) else ([], before)
  let (right, tail) :=
    if snippetReach ≤ after.length then (after.take (snippetReach - 5), ellipsis) else (after, [])
  let indent := List.replicate 4 ' '
  String.ofList (indent ++ head ++ left.reverse ++ right ++ tail ++ ['\n'] ++ indent ++
    List.replicate (left.length + head.length) ' ' ++ ['^'])

/-- A place in a message. -/
def Mark.text (m : Mark) (source : List Char) : String :=
  s!"  in \"<unicode string>\", line {m.line + 1}, column {m.column + 1}:\n" ++ m.snippet source

/-- The message of an error in the given text.  The start of the task is left out where it is the place of the
problem. -/
def Error.message (e : Error) (source : List Char) : String :=
  match e with
  | .character code index =>
    s!"unacceptable character #x{Text.hexNumber 4 code}: special characters are not allowed\n" ++
      s!"  in \"<unicode string>\", position {index}"
  | .codePoint _ => "chr() arg not in range(0x110000)"
  | .fault _ task since problem mark =>
    let started := match since with
      | none => []
      | some m => if m.line == mark.line && m.column == mark.column then [] else [m.text source]
    "\n".intercalate ((task.map Task.text).toList ++ started ++ [problem.text, mark.text source])

end ManifestLens.Yaml
