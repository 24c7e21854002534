import ManifestLens.Outline.Ranges
import ManifestLens.Session.Basic

/-!
# Looking up lines

What is on a line of a file: an entry of the index that starts there, or an entry that reaches over the line together
with the part of its outline that starts there.
-/

namespace ManifestLens

/-- A key and the stretch of text that it stands for. -/
abbrev KeyRange := String × Range

/-- What is on a line. -/
structure LineInfo where
  indexed : Option KeyRange := none
  inner : Option KeyRange := none
  deriving DecidableEq, Inhabited

namespace Session

/-- The kinds of resources whose outlines are looked into, and how their keys are read. -/
def outlinedKinds : List (String × KeyPattern) :=
  [("Workflow", .plainAnchorOf "Workflow"), ("FunctionTest", .anchorOf "FunctionTest"),
    ("ResourceFunction", .anchorOf "ResourceFunction"), ("ValueFunction", .anchorOf "ValueFunction")]

/-- The entry of the cache for the resource that a key belongs to. -/
def cached? (s : Session) (key : String) : Option CacheEntry :=
  (outlinedKinds.findSome? fun (kind, pattern) => (pattern.name? key).map (kind, ·)).bind fun (kind, name) =>
    s.store.cache.get? kind name

/-- The last entry of a file that reaches over a line. -/
def covering? (entries : List IndexEntry) (line : Int) : Option KeyRange :=
  (entries.filter fun e => e.range.start.line ≤ line && line ≤ e.range.stop.line).getLast?.map fun e =>
    (e.name, e.range)

/-- The part of an outline that starts on a line. -/
def startingIn? (anchor : Anchor) (line : Int) : Option KeyRange :=
  (Outline.localRangesAll (some anchor.absolute) anchor.parts).find? fun e => e.2.start.line == line

/-- What is on a line inside of an entry. -/
def inside (s : Session) (line : Int) (entry : KeyRange) : Except Fault LineInfo :=
  match (s.cached? entry.1).bind fun e => e.source?.bind (·.anchor) with
  | none => .ok {}
  | some none => .error .noField
  | some (some anchor) =>
    match startingIn? anchor line with
    | none => .ok {}
    | some part => .ok ⟨some entry, some part⟩

/-- What is on a line of a file. -/
def lineInfo (s : Session) (uri : String) (line : Int) : Except Fault LineInfo :=
  let entries := s.index.filter (·.uri == uri)
  match entries.find? (·.range.start.line == line) with
  | some e => .ok { indexed := some (e.name, e.range) }
  | none =>
    match covering? entries line with
    | none => .ok {}
    | some entry => s.inside line entry

/-! ### Definitions and references -/

/-- A stretch of a file. -/
structure Location where
  uri : String
  range : Range
  deriving DecidableEq, Inhabited

/-- The text before the last colon, or all of it if there is none. -/
def beforeLastColon (key : String) : String :=
  match key.toList.reverse.dropWhile (· != ':') with
  | [] => key
  | _ :: rest => String.ofList rest.reverse

/-- The places of a key. -/
def places (s : Session) (key : String) : List Location :=
  (s.index.filter (·.name == key)).map fun e => ⟨e.uri, e.range⟩

/-- Where the resource on a line is defined. -/
def definitions (s : Session) (uri : String) (line : Int) : Except Fault (List Location) := do
  match (← s.lineInfo uri line).indexed with
  | none => return []
  | some (key, _) => return s.places (beforeLastColon key ++ ":def")

/-- Where the resource on a line is referred to, and then where it is defined. -/
def references (s : Session) (uri : String) (line : Int) : Except Fault (List Location) := do
  match (← s.lineInfo uri line).indexed with
  | none => return []
  | some (key, _) => return s.places (beforeLastColon key ++ ":ref") ++ s.places (beforeLastColon key ++ ":def")

end Session

end ManifestLens
