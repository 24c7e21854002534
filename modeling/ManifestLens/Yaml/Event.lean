import ManifestLens.Yaml.Error
import ManifestLens.Yaml.Token.Stream

/-!
# Events of YAML texts

Tokens are grouped to events: documents, collections and scalars that start and end.  What may come next is a state of
a machine with a stack, which takes tokens and gives one event at a time.  The events of a broken text are those
before the fault.
-/

namespace ManifestLens.Yaml

/-- What may stand before a node: an anchor and a tag. -/
structure Properties where
  anchor : Option String
  tag : Option String
  deriving DecidableEq, Inhabited

/-- The start or end of a part of a text. -/
inductive Event where
  | streamStart
  | streamEnd
  | documentStart
  | documentEnd
  | aliasOf (name : String) (start : Mark)
  /-- A scalar; the tag of one that is `untagged` follows from its text. -/
  | scalar (properties : Properties) (untagged : Bool) (text : String) (start stop : Mark)
  | sequenceStart (properties : Properties) (start : Mark)
  | sequenceEnd (stop : Mark)
  | mappingStart (properties : Properties) (start : Mark)
  | mappingEnd (stop : Mark)
  deriving DecidableEq, Inhabited

/-- What may come next. -/
inductive Expecting where
  | streamStart
  | firstDocument
  | document
  | documentContent
  | documentEnd
  | blockNode
  | blockSequenceFirst
  | blockSequenceEntry
  | indentlessEntry
  | blockMappingFirst
  | blockMappingKey
  | blockMappingValue
  | flowSequenceFirst
  | flowSequenceEntry
  | flowPairKey
  | flowPairValue
  | flowPairEnd
  | flowMappingFirst
  | flowMappingKey
  | flowMappingValue
  | flowMappingEmptyValue
  | nothing
  deriving DecidableEq, Inhabited

/-- The machine that groups tokens. -/
structure Grouper where
  tokens : List Token
  failure : Option Error
  expecting : Expecting
  /-- What comes after the nodes that are not complete yet. -/
  stack : List Expecting
  /-- Where the open collections start. -/
  marks : List Mark
  /-- The meaning of tag handles. -/
  handles : List (String × String)

/-- The events of a text, and the fault that ends them. -/
structure EventStream where
  events : List Event
  failure : Option Error

namespace Grouper

def defaultHandles : List (String × String) :=
  [("!", "!"), ("!!", "tag:yaml.org,2002:")]

def start (stream : TokenStream) : Grouper where
  tokens := stream.tokens
  failure := stream.failure
  expecting := .streamStart
  stack := []
  marks := []
  handles := defaultHandles

/-- The next token. -/
def peek (g : Grouper) : Except Error Token :=
  match g.tokens, g.failure with
  | t :: _, _ => .ok t
  | [], some e => .error e
  | [], none => .ok ⟨.streamEnd, default, default⟩

/-- The machine after the next token. -/
def skip (g : Grouper) : Grouper :=
  { g with tokens := g.tokens.drop 1 }

/-- The machine in another state. -/
def expect (g : Grouper) (expecting : Expecting) : Grouper :=
  { g with expecting := expecting }

/-- The state to come back to after the next node. -/
def later (g : Grouper) (expecting : Expecting) : Grouper :=
  { g with stack := expecting :: g.stack }

/-- Back to what comes after a complete node. -/
def resume (g : Grouper) : Grouper :=
  match g.stack with
  | [] => { g with expecting := .nothing }
  | e :: stack => { g with expecting := e, stack := stack }

/-- Out of the innermost open collection. -/
def leave (g : Grouper) : Grouper :=
  { g with marks := g.marks.drop 1 }.resume

/-- Into a collection. -/
def enter (g : Grouper) (mark : Mark) : Grouper :=
  { g with marks := mark :: g.marks }

/-- A node that is not there. -/
def emptyScalar (mark : Mark) : Event :=
  .scalar ⟨none, none⟩ true "" mark mark

/-- A fault in the innermost open collection. -/
def fails {α : Type} (g : Grouper) (task : Task) (problem : String → Problem) (found : Token) : Except Error α :=
  .error (.fault .events (some task) g.marks.head? (problem found.lexeme.name) found.start)

/-! ### Documents -/

/-- The directives of a document, given the version and the handles that were read already. -/
def directives (g : Grouper) (versioned : Bool) (handles : List (String × String)) :
    List Token → Except Error Grouper
  | ⟨.directive d, start, _⟩ :: rest =>
    let fault (problem : Problem) : Except Error Grouper := .error (.fault .events none none problem start)
    match d with
    | .version major _ =>
      if versioned then fault .repeatedVersion
      else if major != 1 then fault .incompatibleVersion
      else directives g true handles rest
    | .handle name expansion =>
      if (handles.lookup name).isSome then fault (.repeatedHandle name)
      else directives g versioned (handles ++ [(name, expansion)]) rest
    | .other _ => directives g versioned handles rest
  | tokens =>
    let defaults := defaultHandles.filter fun h => (handles.lookup h.1).isNone
    .ok { g with tokens := tokens, handles := handles ++ defaults }

/-- Past marks of document ends. -/
def skipDocumentEnds (g : Grouper) : Grouper :=
  { g with tokens := g.tokens.dropWhile fun t => t.lexeme == .documentEnd }

/-- An explicit document, or the end of the text. -/
def documentStart (g : Grouper) : Except Error (Event × Grouper) := do
  let g := g.skipDocumentEnds
  let t ← g.peek
  if t.lexeme == .streamEnd then return (.streamEnd, g.skip.expect .nothing)
  let g ← g.directives false [] g.tokens
  let t ← g.peek
  if t.lexeme != .documentStart then
    .error (.fault .events none none (.expectedDocument t.lexeme.name) t.start)
  else return (.documentStart, (g.skip.later .documentEnd).expect .documentContent)

def isDirective : Lexeme → Bool
  | .directive _ => true
  | _ => false

/-- The first document, which may start without a mark. -/
def firstDocument (g : Grouper) : Except Error (Event × Grouper) := do
  let t ← g.peek
  if isDirective t.lexeme || t.lexeme == .documentStart || t.lexeme == .streamEnd then g.documentStart
  else return (.documentStart, ({ g with handles := defaultHandles }.later .documentEnd).expect .blockNode)

def documentEnd (g : Grouper) : Except Error (Event × Grouper) := do
  let t ← g.peek
  let g := if t.lexeme == .documentEnd then g.skip else g
  return (.documentEnd, g.expect .document)

/-! ### Nodes -/

/-- What stands before a node: an anchor and a tag as they are written, and where they start and end. -/
structure Heading where
  anchor : Option String
  tag : Option (Option String × String)
  tagMark : Mark
  span : Option (Mark × Mark)

/-- Reads an anchor and a tag, in either order. -/
def heading (g : Grouper) : Except Error (Heading × Grouper) := do
  let first ← g.peek
  match first.lexeme with
  | .anchor name => do
    let g := g.skip
    let second ← g.peek
    match second.lexeme with
    | .tag handle suffix =>
      return (⟨some name, some (handle, suffix), second.start, some (first.start, second.stop)⟩, g.skip)
    | _ => return (⟨some name, none, first.start, some (first.start, first.stop)⟩, g)
  | .tag handle suffix => do
    let g := g.skip
    let second ← g.peek
    match second.lexeme with
    | .anchor name =>
      return (⟨some name, some (handle, suffix), first.start, some (first.start, second.stop)⟩, g.skip)
    | _ => return (⟨none, some (handle, suffix), first.start, some (first.start, first.stop)⟩, g)
  | _ => return (⟨none, none, first.start, none⟩, g)

/-- The tag with its handle replaced by what it stands for. -/
def expandTag (g : Grouper) (h : Heading) : Except Error (Option String) :=
  match h.tag with
  | none => .ok none
  | some (none, suffix) => .ok (some suffix)
  | some (some handle, suffix) =>
    match g.handles.lookup handle with
    | some expansion => .ok (some (expansion ++ suffix))
    | none => .error (.fault .events (some .node) (h.span.map (·.1)) (.undefinedHandle handle) h.tagMark)

/-- A node of which only the heading is there. -/
def bareNode (g : Grouper) (block : Bool) (found : Token) (span : Mark × Mark) (properties : Properties) :
    Except Error (Event × Grouper) :=
  if properties.anchor.isSome || properties.tag.isSome then
    .ok (.scalar properties (properties.tag.isNone || properties.tag == some "!") "" span.1 span.2, g.resume)
  else
    let task := if block then Task.blockNode else .flowNode
    .error (.fault .events (some task) (some span.1) (.expectedContent found.lexeme.name) found.start)

/-- A node of a block or flow collection; a sequence may stand without indentation as the value of a key. -/
def node (g : Grouper) (block indentless : Bool) : Except Error (Event × Grouper) := do
  let t ← g.peek
  match t.lexeme with
  | .aliasOf name => return (.aliasOf name t.start, g.skip.resume)
  | _ =>
    let (h, g) ← g.heading
    let tag ← g.expandTag h
    let t ← g.peek
    let span := h.span.getD (t.start, t.start)
    let properties : Properties := ⟨h.anchor, tag⟩
    match t.lexeme with
    | .scalar text style =>
      let untagged := (style == .plain && tag.isNone) || tag == some "!"
      return (.scalar properties untagged text span.1 t.stop, g.skip.resume)
    | .flowSequenceStart => return (.sequenceStart properties span.1, g.expect .flowSequenceFirst)
    | .flowMappingStart => return (.mappingStart properties span.1, g.expect .flowMappingFirst)
    | .blockEntry =>
      if indentless then return (.sequenceStart properties span.1, g.expect .indentlessEntry)
      else g.bareNode block t span properties
    | .blockSequenceStart =>
      if block then return (.sequenceStart properties span.1, g.expect .blockSequenceFirst)
      else g.bareNode block t span properties
    | .blockMappingStart =>
      if block then return (.mappingStart properties span.1, g.expect .blockMappingFirst)
      else g.bareNode block t span properties
    | _ => g.bareNode block t span properties

/-- The content of an explicit document, which may be empty. -/
def documentContent (g : Grouper) : Except Error (Event × Grouper) := do
  let t ← g.peek
  if isDirective t.lexeme || t.lexeme == .documentStart || t.lexeme == .documentEnd || t.lexeme == .streamEnd then
    return (emptyScalar t.start, g.resume)
  else g.node true false

/-! ### Block collections -/

/-- An entry after its mark, unless another mark follows at once. -/
def entry (g : Grouper) (mark : Token) (stops : List Lexeme) (next : Expecting) (block indentless : Bool) :
    Except Error (Event × Grouper) := do
  let t ← g.peek
  if stops.contains t.lexeme then return (emptyScalar mark.stop, g.expect next)
  else (g.later next).node block indentless

def blockSequenceEntry (g : Grouper) : Except Error (Event × Grouper) := do
  let t ← g.peek
  match t.lexeme with
  | .blockEntry => g.skip.entry t [.blockEntry, .blockEnd] .blockSequenceEntry true false
  | .blockEnd => return (.sequenceEnd t.stop, g.skip.leave)
  | _ => g.fails .blockCollection .expectedBlockEnd t

def indentlessEntry (g : Grouper) : Except Error (Event × Grouper) := do
  let t ← g.peek
  match t.lexeme with
  | .blockEntry => g.skip.entry t [.blockEntry, .key, .value, .blockEnd] .indentlessEntry true false
  | _ => return (.sequenceEnd t.start, g.resume)

def blockMappingKey (g : Grouper) : Except Error (Event × Grouper) := do
  let t ← g.peek
  match t.lexeme with
  | .key => g.skip.entry t [.key, .value, .blockEnd] .blockMappingValue true true
  | .blockEnd => return (.mappingEnd t.stop, g.skip.leave)
  | _ => g.fails .blockMapping .expectedBlockEnd t

def blockMappingValue (g : Grouper) : Except Error (Event × Grouper) := do
  let t ← g.peek
  match t.lexeme with
  | .value => g.skip.entry t [.key, .value, .blockEnd] .blockMappingKey true true
  | _ => return (emptyScalar t.start, g.expect .blockMappingKey)

/-! ### Flow collections -/

/-- Past the comma before all entries but the first. -/
def flowComma (g : Grouper) (first : Bool) (task : Task) (problem : String → Problem) : Except Error Grouper := do
  let t ← g.peek
  if first then return g
  else if t.lexeme == .flowEntry then return g.skip
  else g.fails task problem t

def flowSequenceEntry (g : Grouper) (first : Bool) : Except Error (Event × Grouper) := do
  let t ← g.peek
  if t.lexeme == .flowSequenceEnd then return (.sequenceEnd t.stop, g.skip.leave)
  let g ← g.flowComma first .flowSequence .expectedSequenceEnd
  let t ← g.peek
  match t.lexeme with
  | .key => return (.mappingStart ⟨none, none⟩ t.start, g.expect .flowPairKey)
  | .flowSequenceEnd => return (.sequenceEnd t.stop, g.skip.leave)
  | _ => (g.later .flowSequenceEntry).node false false

def flowPairKey (g : Grouper) : Except Error (Event × Grouper) := do
  let t ← g.peek
  g.skip.entry t [.value, .flowEntry, .flowSequenceEnd] .flowPairValue false false

def flowPairValue (g : Grouper) : Except Error (Event × Grouper) := do
  let t ← g.peek
  match t.lexeme with
  | .value => g.skip.entry t [.flowEntry, .flowSequenceEnd] .flowPairEnd false false
  | _ => return (emptyScalar t.start, g.expect .flowPairEnd)

def flowPairEnd (g : Grouper) : Except Error (Event × Grouper) := do
  let t ← g.peek
  return (.mappingEnd t.start, g.expect .flowSequenceEntry)

def flowMappingKey (g : Grouper) (first : Bool) : Except Error (Event × Grouper) := do
  let t ← g.peek
  if t.lexeme == .flowMappingEnd then return (.mappingEnd t.stop, g.skip.leave)
  let g ← g.flowComma first .flowMapping .expectedMappingEnd
  let t ← g.peek
  match t.lexeme with
  | .key => g.skip.entry t [.value, .flowEntry, .flowMappingEnd] .flowMappingValue false false
  | .flowMappingEnd => return (.mappingEnd t.stop, g.skip.leave)
  | _ => (g.later .flowMappingEmptyValue).node false false

def flowMappingValue (g : Grouper) : Except Error (Event × Grouper) := do
  let t ← g.peek
  match t.lexeme with
  | .value => g.skip.entry t [.flowEntry, .flowMappingEnd] .flowMappingKey false false
  | _ => return (emptyScalar t.start, g.expect .flowMappingKey)

def flowMappingEmptyValue (g : Grouper) : Except Error (Event × Grouper) := do
  let t ← g.peek
  return (emptyScalar t.start, g.expect .flowMappingKey)

/-- Into a collection whose first mark is ahead. -/
def enterNext (g : Grouper) : Except Error Grouper := do
  let t ← g.peek
  return g.skip.enter t.start

/-- The next event. -/
def step (g : Grouper) : Except Error (Event × Grouper) :=
  match g.expecting with
  | .streamStart => .ok (.streamStart, g.skip.expect .firstDocument)
  | .firstDocument => g.firstDocument
  | .document => g.documentStart
  | .documentContent => g.documentContent
  | .documentEnd => g.documentEnd
  | .blockNode => g.node true false
  | .blockSequenceFirst => g.enterNext.bind blockSequenceEntry
  | .blockSequenceEntry => g.blockSequenceEntry
  | .indentlessEntry => g.indentlessEntry
  | .blockMappingFirst => g.enterNext.bind blockMappingKey
  | .blockMappingKey => g.blockMappingKey
  | .blockMappingValue => g.blockMappingValue
  | .flowSequenceFirst => g.enterNext.bind (flowSequenceEntry · true)
  | .flowSequenceEntry => g.flowSequenceEntry false
  | .flowPairKey => g.flowPairKey
  | .flowPairValue => g.flowPairValue
  | .flowPairEnd => g.flowPairEnd
  | .flowMappingFirst => g.enterNext.bind (flowMappingKey · true)
  | .flowMappingKey => g.flowMappingKey false
  | .flowMappingValue => g.flowMappingValue
  | .flowMappingEmptyValue => g.flowMappingEmptyValue
  | .nothing => .ok (.streamEnd, g)

/-- The events up to the end of the text or the first fault. -/
def run : (fuel : Nat) → Grouper → EventStream
  | 0, _ => ⟨[], none⟩
  | fuel + 1, g =>
    match g.step with
    | .error e => ⟨[], some e⟩
    | .ok (event, next) =>
      if event == .streamEnd then ⟨[event], none⟩
      else
        let rest := next.run fuel
        ⟨event :: rest.events, rest.failure⟩

end Grouper

/-- The events of a run of tokens. -/
def EventStream.ofTokens (stream : TokenStream) : EventStream :=
  (Grouper.start stream).run (4 * stream.tokens.length + 16)

end ManifestLens.Yaml
