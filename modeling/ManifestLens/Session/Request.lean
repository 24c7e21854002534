import ManifestLens.Editor.Hover
import ManifestLens.Session.Lookup
import ManifestLens.Session.Turn

/-!
# Requests

What an editor asks of a session and tells it.
-/

namespace ManifestLens.Session

/-! ### Reading and analyzing files -/

/-- Reads files, one after the other, and lets all that follows from it happen. -/
def readFiles (services : Services) (s : Session) (uris : List String) : Session × List Effect :=
  s.run services [.readAll uris]

/-- The editor shows a new text of a document. -/
def openDocument (services : Services) (s : Session) (uri : String) (d : Document) : Session × List Effect :=
  (s.withDocument uri d).readFiles services [uri]

/-- The ends of the names of files that are read, in the order in which they are. -/
def suffixes : List String := [".yaml", ".yml", ".koreo"]

/-- The files of a folder that are read. -/
def sourceFiles (names : List String) : List String :=
  suffixes.flatMap fun suffix => names.filter (·.endsWith suffix)

/-- Tells the analyzer of a file of an event; a file that was never read takes none. -/
def notify (services : Services) (s : Session) (uri : String) (e : Event) : Except Fault (Session × List Effect) :=
  if s.registered.contains uri then
    let (s, woken) := s.post uri e
    .ok (s.run services woken)
  else .error .noEntry

/-- Analyzes a file at once. -/
def analyzeNow (services : Services) (s : Session) (uri : String) : Session × List Effect :=
  s.run services [.direct uri]

/-- The tokens of a file; where they are not known, the file is read. -/
def tokensOf (services : Services) (s : Session) (uri : String) : Option (List Int) × Session × List Effect :=
  match s.tokens.get? uri with
  | some tokens => (some tokens, s, [])
  | none => (none, s.readFiles services [uri])

/-! ### Looking at documents -/

/-- The hover for a line. -/
def hover (services : Services) (s : Session) (uri : String) (line : Int) : Except Fault (Option Hover) := do
  let info ← s.lineInfo uri line
  match info.indexed with
  | none => return none
  | some (key, range) =>
    Hover.ofKey services s.store.cache (s.resultsOf uri) key range (info.inner.map (·.1))

/-- A short text at the end of a line. -/
structure Hint where
  label : String
  position : Position
  deriving DecidableEq, Inhabited

/-- What a hint says of the result of a test. -/
def hintLabel : Option TestResult → String
  | none => "Not Ran"
  | some r => if r.success then "Success" else "Error"

/-- The hint for a test that is named at a range. -/
def hint (s : Session) (uri : String) (test : String) (range : Range) : Except Fault Hint :=
  match (s.document uri).file.lines[range.stop.line.toNat]? with
  | some line => .ok ⟨hintLabel ((s.resultsOf uri).lookup test), ⟨range.stop.line, line.length⟩⟩
  | none => .error .outOfRange

/-- The hints for the tests that are named between two lines. -/
def hints (s : Session) (uri : String) (first last : Int) : Except Fault (List Hint) :=
  if (s.resultsOf uri).isEmpty then .ok []
  else
    let visible := (s.index.filter (·.uri == uri)).filter fun e =>
      first ≤ e.range.start.line && e.range.start.line ≤ last
    (Index.named (.definitionOf "FunctionTest") visible).mapM fun (test, range) => s.hint uri test range

/-- The version by which lenses name a document; one that has none counts as version -1. -/
def lensVersion (d : Document) : Int :=
  match d.version with
  | none => -1
  | some n => if n = 0 then -1 else n

/-- The lenses of a file. -/
def lenses (s : Session) (uri : String) : List Lens × List Effect :=
  match Lens.ofResults s.store.cache uri ⟨uri, some (lensVersion (s.document uri))⟩ (s.resultsOf uri) with
  | none => ([], [])
  | some (found, logs) => (found, logs.map .log)

/-- The argument of a lens command under a name. -/
def argument (arguments : Value) (name : String) : Except Fault Value :=
  match arguments with
  | .map entries =>
    match Entries.get? entries name with
    | some v => .ok v
    | none => .error .noEntry
  | _ => .error .wrongType

/-- Runs a lens command, unless the document has changed since the lens was shown. -/
def command (s : Session) (c : LensCommand) (arguments : List Value) : Except Fault (List Effect) := do
  match arguments with
  | [] => return []
  | first :: _ =>
    let uri := (← argument first "uri").str?.getD ""
    let version ← argument first "version"
    let test := (← argument first "test_name").str?
    let current := (s.document uri).version
    if !version.equals ((current.map .int).getD .null) then return []
    else
      match test.bind fun name => ((s.resultsOf uri).lookup name).map (name, ·) with
      | none => .error .noEntry
      | some (name, result) =>
        let report ← EditReport.ofCommand s.store.cache c name result
        let edits := (report.edits.getD [])
        return (report.logs.getD []).map .log ++ if edits.isEmpty then [] else [.edit uri current edits]

/-- The kept resources, for an editor to complete; what it asked for is logged. -/
def completions (s : Session) (asked : String) : List ResourceKey × List Effect :=
  (s.store.cache.map (·.1), [.log ⟨.debug, s!"completion params: {asked}"⟩])

/-- The diagnostics for resources that a file defines and that are defined more than once. -/
def duplicates (s : Session) (uri : String) : List Diagnostic :=
  Index.duplicates s.index uri

end ManifestLens.Session
