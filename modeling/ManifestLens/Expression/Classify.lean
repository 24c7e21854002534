import ManifestLens.Expression.Token
import ManifestLens.Outline.Basic
import ManifestLens.Text.Digit

/-!
# What the tokens of an expression are

Tokens become highlighted tokens of the outline.  The inside of a quoted literal is a text, or a property where a
colon follows inside braces; a word is a keyword, a function where a parenthesis follows, a number or a variable.  A
comma before a closing brace gets a remark.
-/

namespace ManifestLens.Expression

/-- The token is the given operator. -/
def Token.isMark (t : Token) (text : List Char) : Bool :=
  t.text == text && t.kind == .operator

/-- There is a token, and it is the given operator. -/
def isMark? (t : Option Token) (text : List Char) : Bool :=
  match t with
  | none => false
  | some t => t.isMark text

/-- The words that expressions reserve. -/
def keywords : List (List Char) :=
  ["has".toList, "all".toList, "exists".toList, "exists_one".toList, "map".toList, "filter".toList]

/-- What is open at a place of an expression: braces (one or more), and quotes of either kind. -/
structure Openings where
  brace : Bool
  double : Bool
  single : Bool
  deriving DecidableEq

def Openings.none : Openings := ⟨false, false, false⟩

/-- What is open after an operator. -/
def Openings.after (o : Openings) (t : Token) : Openings :=
  if t.isMark ['\x7b'] then { o with brace := true }
  else if t.isMark ['\x7d'] then { o with brace := false }
  else if t.isMark ['"'] then { o with double := !o.double }
  else if t.isMark ['\''] then { o with single := !o.single }
  else o

/-- The remark on a comma before a closing brace. -/
def trailingComma : Remark := ⟨"Trailing commas are unsupported.", .error⟩

/-- The remark that an operator gets, given the token after it. -/
def operatorRemark (t : Token) (next : Option Token) : Option Remark :=
  if t.isMark [','] && isMark? next ['\x7d'] then some trailingComma else none

/-- The kind of a token that is no operator, given the two tokens after it. -/
def wordKind (o : Openings) (t : Token) (next afterNext : Option Token) : TokenKind :=
  if o.double || o.single then
    if isMark? afterNext [':'] && o.brace then .property else .string
  else if keywords.contains t.text then .keyword
  else if isMark? next ['('] then .function
  else
    match t.text with
    | c :: _ => if Text.isDecimal c then .number else .variable
    | [] => .variable

/-- The highlighted token of a token of an expression whose lines count from line `base` of the document. -/
def Token.highlight (t : Token) (base : Int) (kind : TokenKind) (remark : Option Remark) : ManifestLens.Token where
  delta := t.delta
  place := ⟨t.place.line + base, t.place.character⟩
  length := t.text.length
  localKey := none
  indexKey := none
  kind := kind
  modifiers := some []
  remark := remark

/-- The highlighted tokens of an expression. -/
def classify (base : Int) (o : Openings) : List Token → List ManifestLens.Token
  | [] => []
  | t :: rest =>
    if t.kind == .operator then
      t.highlight base .operator (operatorRemark t rest.head?) :: classify base (o.after t) rest
    else
      t.highlight base (wordKind o t rest.head? rest.tail.head?) none :: classify base o rest

/-- Lexes and classifies an expression whose lines count from line `origin` of the document. -/
def highlight (expression : List (List Char)) (origin line offset base : Int) :
    Except (List Char) (List ManifestLens.Token) :=
  (lex expression line offset base).map (classify origin .none)

end ManifestLens.Expression
