import ManifestLens.Yaml.Token.BlockScalar
import ManifestLens.Yaml.Token.PlainScalar
import ManifestLens.Yaml.Token.QuotedScalar
import ManifestLens.Yaml.Token.Space

/-!
# The tokens of a YAML text

A text is cut into tokens from left to right.  Whether a token starts a key is only known once a colon follows it on
its line, so such tokens stay open until then, and the key mark goes in front of them.  The tokens of a broken text are
those before the first one that was still open when the fault came up.
-/

namespace ManifestLens.Yaml

/-- A token that may turn out to start a key. -/
structure OpenKey where
  /-- The number of the token. -/
  number : Nat
  /-- The token has to start a key. -/
  required : Bool
  mark : Mark

/-- Where the reading of a text stands. -/
structure Scanner where
  cursor : Cursor
  /-- The depth of flow collections. -/
  depth : Int
  /-- The column of the current block collection. -/
  indent : Int
  /-- The columns of the block collections around it. -/
  outer : List Int
  /-- A key may start here. -/
  keyAllowed : Bool
  /-- The open tokens, by depth. -/
  openKeys : List (Int × OpenKey)
  tokens : Array Token
  finished : Bool

/-- The tokens of a text, and the fault that ends them. -/
structure TokenStream where
  tokens : List Token
  failure : Option Error

namespace Scanner

def start (text : List Char) : Scanner where
  cursor := Cursor.start text
  depth := 0
  indent := -1
  outer := []
  keyAllowed := true
  openKeys := []
  tokens := #[⟨.streamStart, ⟨0, 0, 0⟩, ⟨0, 0, 0⟩⟩]
  finished := false

def inFlow (s : Scanner) : Bool :=
  s.depth != 0

def mark (s : Scanner) : Mark :=
  s.cursor.mark

def fails {α : Type} (s : Scanner) (problem : Problem) : Except Error α :=
  .error (.fault .tokens none none problem s.mark)

/-- Adds a token that stands at one place. -/
def push (s : Scanner) (lexeme : Lexeme) : Scanner :=
  { s with tokens := s.tokens.push ⟨lexeme, s.mark, s.mark⟩ }

/-- Adds a token of `size` characters and passes it. -/
def take (s : Scanner) (lexeme : Lexeme) (size : Nat) : Scanner :=
  let after := s.cursor.advance size
  { s with cursor := after, tokens := s.tokens.push ⟨lexeme, s.mark, after.mark⟩ }

/-- Adds a token that was read. -/
def accept (s : Scanner) (read : Token × Cursor) : Scanner :=
  { s with cursor := read.2, tokens := s.tokens.push read.1 }

/-- Puts a token before the token with the given number. -/
def insert (s : Scanner) (number : Nat) (token : Token) : Scanner :=
  { s with tokens := (s.tokens.extract 0 number).push token ++ s.tokens.extract number s.tokens.size }

/-! ### Keys -/

def missingColon {α : Type} (s : Scanner) (key : OpenKey) : Except Error α :=
  .error (.fault .tokens (some .simpleKey) (some key.mark) .missingColon s.mark)

/-- A key has to end on the line on which it starts, and within 1024 characters. -/
def isStale (s : Scanner) (key : OpenKey) : Bool :=
  key.mark.line != s.mark.line || s.mark.index - key.mark.index > 1024

/-- Closes the tokens that no key can start any more. -/
def closeStale (s : Scanner) : Except Error Scanner :=
  match s.openKeys.find? fun k => s.isStale k.2 && k.2.required with
  | some (_, key) => s.missingColon key
  | none => .ok { s with openKeys := s.openKeys.filter fun k => !s.isStale k.2 }

/-- Closes the open token of the current depth. -/
def closeKey (s : Scanner) : Except Error Scanner :=
  match s.openKeys.lookup s.depth with
  | none => .ok s
  | some key =>
    if key.required then s.missingColon key
    else .ok { s with openKeys := s.openKeys.filter fun k => k.1 != s.depth }

/-- Opens the next token, if a key may start here. -/
def openKey (s : Scanner) : Except Error Scanner :=
  if s.keyAllowed then
    let required := !s.inFlow && s.indent == s.cursor.column
    s.closeKey.map fun s => { s with openKeys := s.openKeys ++ [(s.depth, ⟨s.tokens.size, required, s.mark⟩)] }
  else .ok s

/-! ### Indentation -/

/-- Ends the block collections that are indented further than a column. -/
def unwindFrom (s : Scanner) (column indent : Int) : List Int → Scanner
  | [] => { s with indent := indent, outer := [] }
  | previous :: outer =>
    if indent > column then (s.push .blockEnd).unwindFrom column previous outer
    else { s with indent := indent, outer := previous :: outer }

def unwind (s : Scanner) (column : Int) : Scanner :=
  if s.inFlow then s else s.unwindFrom column s.indent s.outer

/-- Starts a block collection at a column, unless it is part of the current one. -/
def indentTo? (s : Scanner) (column : Int) : Option Scanner :=
  if s.indent < column then some { s with outer := s.indent :: s.outer, indent := column } else none

/-! ### Tokens one by one -/

def streamEnd (s : Scanner) : Except Error Scanner := do
  let s ← (s.unwind (-1)).closeKey
  return { ({ s with keyAllowed := false, openKeys := [] }.push .streamEnd) with finished := true }

/-- Ends all block collections before a directive or a mark between documents. -/
def betweenDocuments (s : Scanner) : Except Error Scanner := do
  let s ← (s.unwind (-1)).closeKey
  return { s with keyAllowed := false }

def flowStart (s : Scanner) (lexeme : Lexeme) : Except Error Scanner := do
  let s ← s.openKey
  return { s with depth := s.depth + 1, keyAllowed := true }.take lexeme 1

def flowEnd (s : Scanner) (lexeme : Lexeme) : Except Error Scanner := do
  let s ← s.closeKey
  return { s with depth := s.depth - 1, keyAllowed := false }.take lexeme 1

def flowEntry (s : Scanner) : Except Error Scanner := do
  let s ← s.closeKey
  return { s with keyAllowed := true }.take .flowEntry 1

/-- Starts a block collection here, where one may start. -/
def blockStart (s : Scanner) (lexeme : Lexeme) (problem : Problem) : Except Error Scanner :=
  if s.inFlow then .ok s
  else if !s.keyAllowed then s.fails problem
  else
    match s.indentTo? s.cursor.column with
    | some s => .ok (s.push lexeme)
    | none => .ok s

def blockEntry (s : Scanner) : Except Error Scanner := do
  let s ← s.blockStart .blockSequenceStart .sequenceHere
  let s ← s.closeKey
  return { s with keyAllowed := true }.take .blockEntry 1

def keyMark (s : Scanner) : Except Error Scanner := do
  let s ← s.blockStart .blockMappingStart .keyHere
  let s ← s.closeKey
  return { s with keyAllowed := !s.inFlow }.take .key 1

/-- Puts the key mark, and the start of a mapping if it is the first key, before an open token. -/
def settleKey (s : Scanner) (key : OpenKey) : Scanner :=
  let s := { s with openKeys := s.openKeys.filter fun k => k.1 != s.depth }
  let s := s.insert key.number ⟨.key, key.mark, key.mark⟩
  let s :=
    if s.inFlow then s
    else
      match s.indentTo? key.mark.column with
      | some s => s.insert key.number ⟨.blockMappingStart, key.mark, key.mark⟩
      | none => s
  { s with keyAllowed := false }

def valueMark (s : Scanner) : Except Error Scanner := do
  let s ← match s.openKeys.lookup s.depth with
    | some key => pure (s.settleKey key)
    | none => do
      let s ← s.blockStart .blockMappingStart .valueHere
      let s ← s.closeKey
      pure { s with keyAllowed := !s.inFlow }
  return s.take .value 1

/-- A token that may start a key. -/
def openToken (s : Scanner) (read : Cursor → Except Error (Token × Cursor)) : Except Error Scanner := do
  let s ← s.openKey
  let token ← read s.cursor
  return { s with keyAllowed := false }.accept token

def blockScalar (s : Scanner) (folded : Bool) : Except Error Scanner := do
  let s ← s.closeKey
  let token ← s.cursor.blockScalar folded s.indent
  return { s with keyAllowed := true }.accept token

def plainScalar (s : Scanner) : Except Error Scanner := do
  let s ← s.openKey
  let (token, broken, after) := s.cursor.plainScalar s.inFlow s.indent
  return { s with keyAllowed := broken }.accept (token, after)

/-- A plain scalar may start here. -/
def atPlain (s : Scanner) : Bool :=
  let h := s.cursor.head
  !(isGap h || "-?:,[]\x7b\x7d#&*!|>'\"%@`".toList.contains h) ||
    (!isGap (s.cursor.peek 1) && (h == '-' || (!s.inFlow && (h == '?' || h == ':'))))

/-- Reads the next token, with the ends of block collections before it. -/
def fetch (s : Scanner) : Except Error Scanner := do
  let (broken, cursor) := s.cursor.toNextToken
  let s ← { s with cursor := cursor, keyAllowed := s.keyAllowed || (broken && !s.inFlow) }.closeStale
  let s := s.unwind s.cursor.column
  let c := s.cursor
  let atStart := c.column == 0
  let gapAfter := isGap (c.peek 1)
  match c.head with
  | '\x00' => s.streamEnd
  | '[' => s.flowStart .flowSequenceStart
  | '\x7b' => s.flowStart .flowMappingStart
  | ']' => s.flowEnd .flowSequenceEnd
  | '\x7d' => s.flowEnd .flowMappingEnd
  | ',' => s.flowEntry
  | '*' => s.openToken (·.anchorToken true)
  | '&' => s.openToken (·.anchorToken false)
  | '!' => s.openToken (·.tagToken)
  | '\'' => s.openToken (·.quotedScalar)
  | '"' => s.openToken (·.quotedScalar)
  | h =>
    if h == '%' && atStart then return (← s.betweenDocuments).accept (← c.directiveToken)
    else if h == '-' && atStart && c.startsWith "---".toList && isGap (c.peek 3) then
      return (← s.betweenDocuments).take .documentStart 3
    else if h == '.' && atStart && c.startsWith "...".toList && isGap (c.peek 3) then
      return (← s.betweenDocuments).take .documentEnd 3
    else if h == '-' && gapAfter then s.blockEntry
    else if h == '?' && (s.inFlow || gapAfter) then s.keyMark
    else if h == ':' && (s.inFlow || gapAfter) then s.valueMark
    else if h == '|' && !s.inFlow then s.blockScalar false
    else if h == '>' && !s.inFlow then s.blockScalar true
    else if s.atPlain then s.plainScalar
    else .error (.fault .tokens (some .nextToken) none (.strayCharacter h) s.mark)

/-- The tokens that are settled: those before the first open one. -/
def settled (s : Scanner) : List Token :=
  s.tokens.toList.take (s.openKeys.foldl (fun least k => min least k.2.number) s.tokens.size)

/-- Reads tokens up to the end of the text or the first fault. -/
def run : (fuel : Nat) → Scanner → TokenStream
  | 0, s => ⟨s.settled, none⟩
  | fuel + 1, s =>
    if s.finished then ⟨s.tokens.toList, none⟩
    else
      match s.fetch.bind closeStale with
      | .error e => ⟨s.settled, some e⟩
      | .ok next => next.run fuel

end Scanner

/-- A character that a YAML text may hold. -/
def isAllowed (c : Char) : Bool :=
  let n := c.toNat
  n == 0x09 || n == 0x0A || n == 0x0D || (0x20 ≤ n && n ≤ 0x7E) || n == 0x85 || (0xA0 ≤ n && n ≤ 0xD7FF) ||
    (0xE000 ≤ n && n ≤ 0xFFFD) || 0x10000 ≤ n

/-- The first character of a text that it may not hold, with its index. -/
def firstForbidden (index : Nat) : List Char → Option (Nat × Nat)
  | [] => none
  | c :: rest => if isAllowed c then firstForbidden (index + 1) rest else some (c.toNat, index)

/-- The tokens of a text. -/
def TokenStream.ofText (text : List Char) : TokenStream :=
  (Scanner.start text).run (text.length + 2)

end ManifestLens.Yaml
