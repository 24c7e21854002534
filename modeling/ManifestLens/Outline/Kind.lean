/-!
# Kinds of tokens

What an editor is told about a token: its kind, by its place in a fixed legend, and its modifiers, as bits.
-/

namespace ManifestLens

/-- The kind of a token.  `unset` is the kind of a token about which nothing is known yet, `other` a kind outside
the legend. -/
inductive TokenKind where
  | unset | argument | class_ | comment | decorator | enum | enumMember | event | function | interface | keyword
  | macro_ | method | modifier | namespace_ | number | operator | parameter | property | regexp | string | struct
  | type | typeParameter | variable
  | other (name : String)
  deriving DecidableEq, Inhabited

namespace TokenKind

/-- The kinds that have a number, in the order of their numbers. -/
def legend : List TokenKind :=
  [.unset, .argument, .class_, .comment, .decorator, .enum, .enumMember, .event, .function, .interface, .keyword,
    .macro_, .method, .modifier, .namespace_, .number, .operator, .parameter, .property, .regexp, .string, .struct,
    .type, .typeParameter, .variable]

/-- The name of a kind. -/
def name : TokenKind → String
  | .unset => ""
  | .argument => "argument"
  | .class_ => "class"
  | .comment => "comment"
  | .decorator => "decorator"
  | .enum => "enum"
  | .enumMember => "enumMember"
  | .event => "event"
  | .function => "function"
  | .interface => "interface"
  | .keyword => "keyword"
  | .macro_ => "macro"
  | .method => "method"
  | .modifier => "modifier"
  | .namespace_ => "namespace"
  | .number => "number"
  | .operator => "operator"
  | .parameter => "parameter"
  | .property => "property"
  | .regexp => "regexp"
  | .string => "string"
  | .struct => "struct"
  | .type => "type"
  | .typeParameter => "typeParameter"
  | .variable => "variable"
  | .other name => name

/-- The kind with the given name. -/
def ofName (name : String) : TokenKind :=
  (legend.find? fun kind => kind.name == name).getD (.other name)

/-- The number of a kind in the legend. -/
def number? (kind : TokenKind) : Option Nat :=
  legend.findIdx? (· == kind)

end TokenKind

/-- A modifier of a token, one bit of a number. -/
abbrev Modifier := Nat

/-- The token defines the name that it shows. -/
def Modifier.definition : Modifier := 2

/-- The modifiers of a token as one number. -/
def modifierBits (modifiers : List Modifier) : Nat :=
  modifiers.foldl (· ||| ·) 0

end ManifestLens
