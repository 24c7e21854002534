import ManifestLens.Editor.Lens
import ManifestLens.Text.Lines
import ManifestLens.Value.Field
import ManifestLens.Yaml.Writer.Node

/-!
# Edits

The edit that a lens offers replaces the value below a label with what the test gave, written as YAML two columns
deeper than the label.
-/

namespace ManifestLens

/-- A stretch of text and what replaces it. -/
structure TextEdit where
  range : Range
  text : String
  deriving DecidableEq, Inhabited

namespace TextEdit

/-- Where an edit after a label starts, and the column of the label. -/
def start (base : Position) : Outline → Int × Position
  | .anchor _ absolute _ _ => (absolute.character, absolute)
  | .block _ _ range _ => (range.start.character, range.start.absolute base 0)
  | .token t _ => (t.place.character, t.place.absolute base (t.length + 1))

/-- Where an edit of a value ends, if it starts on the given line.  A block that starts on an earlier line ends with
its last line. -/
def stop (base : Position) (line : Int) : Outline → Position
  | .anchor _ absolute _ _ => absolute
  | .block _ _ range _ =>
    let last := range.stop.line + base.line
    ⟨last, if last = line then range.stop.character else 0⟩
  | .token t _ => t.place.absolute base t.length

/-- The column of a label, and the stretch between the label and the end of its value. -/
def extent (base : Position) (label value : Outline) : Int × Range :=
  let (column, first) := start base label
  (column, ⟨first, stop base first.line value⟩)

/-- The edit that puts a value, written with lines of the given width, below a label. -/
def replacing (base : Position) (label value : Outline) (width : Nat) (new : Value) : TextEdit :=
  let (column, range) := extent base label value
  let indent := String.ofList (List.replicate (column + 2).toNat ' ')
  let lines := (Text.lines (Yaml.write width new) false).map (indent ++ ·)
  ⟨range, "\n" ++ "\n".intercalate lines ++ "\n\n"⟩

end TextEdit

/-- What a command of a lens gives; parts that do not arise are absent. -/
structure EditReport where
  edits : Option (List TextEdit) := none
  logs : Option (List Log) := none
  deriving DecidableEq, Inhabited

namespace EditReport

/-- Nothing but a message. -/
def note (message : String) : EditReport :=
  { logs := some [⟨.debug, message⟩] }

/-- The messages about a test that cannot be edited. -/
structure Wording where
  notCached : String
  noAnchor : String
  noLabel : String
  severalLabels : String

/-- How a command words its messages about a test. -/
def wording (test : String) : LensCommand → Wording
  | .inputs =>
    ⟨s!"test ({test}) isn't cached right", s!"test ({test}) cache missing anchor",
      s!"test ({test}) missing inputs block", s!"test ({test}) duplicate inputs block"⟩
  | c =>
    ⟨s!"FunctionTest ({test}) isn't cached, or cache is corrupt",
      s!"FunctionTest ({test}) cache corrupt, missing anchor",
      s!"FunctionTest ({test}) missing {c.labelKey} block",
      s!"FunctionTest ({test}) duplicate {c.labelKey} block"⟩

/-- Edits the value below the label of a command in a test; the new value is made from what is cached. -/
def replaceBelow (cache : Cache) (test : String) (c : LensCommand) (width : Nat)
    (new : CacheEntry → Except Fault Value) :
    Except Fault EditReport :=
  let words := wording test c
  match (cache.get? "FunctionTest" test).bind fun e =>
      if e.resource.isThere then e.source?.map (e, ·) else none with
  | none => .ok (note words.notCached)
  | some (entry, source) =>
    match source.anchor? with
    | none => .ok (note words.noAnchor)
    | some anchor =>
      match Outline.find anchor.absolute c.labelKey anchor.parts with
      | .missing => .ok (note words.noLabel)
      | .faulty _ => .ok (note words.severalLabels)
      | .part label =>
        match Outline.find anchor.absolute c.valueKey label.parts with
        | .part value => do
          let edit := TextEdit.replacing anchor.absolute label value width (← new entry)
          return { edits := some [edit], logs := some [] }
        | _ => .ok {}

/-- The inputs with a mismatch mended: an unexpected one is dropped, a missing one is to be done. -/
def mend (inputs : Value) (name : String) (m : Inputs.Mismatch) : Except Fault Value :=
  if m.actual == m.expected then .ok inputs
  else
    match inputs with
    | .map entries =>
      if m.expected then .ok (.map (Entries.insert entries (.str name) (.str "TODO")))
      else if Entries.has entries (.str name) then .ok (.map (Entries.erase entries (.str name)))
      else .error .noEntry
    | _ => .error .wrongType

/-- The inputs with mismatches mended one after the other. -/
def mendAll (inputs : Value) : List (String × Inputs.Mismatch) → Except Fault Value
  | [] => .ok inputs
  | (name, m) :: rest => do mendAll (← mend inputs name m) rest

/-- The inputs of a test as the mismatches want them. -/
def mendedInputs (mismatches : List Inputs.Mismatch) (entry : CacheEntry) : Except Fault Value := do
  let inputs ← entry.spec.lookup "inputs"
  let named := mismatches.filterMap fun m => (KeyPattern.input.name? m.field).map (·, m)
  if inputs.truthy then mendAll inputs named
  else
    return .map (Entries.ofList ((named.filter (·.2.expected)).map fun (name, _) => (.str name, .str "TODO")))

/-- The edit for a command and the result of a test. -/
def ofCommand (cache : Cache) (c : LensCommand) (test : String) (r : TestResult) : Except Fault EditReport :=
  if !c.applies r then .ok {}
  else
    let replaceBy (value : Option Value) : Except Fault EditReport :=
      match value with
      | none => .ok (note s!"FunctionTest ({test}) can not auto-complete {c.labelKey}")
      | some v => replaceBelow cache test c 10000 fun _ => .ok v
    match c with
    | .inputs => replaceBelow cache test c 80 (mendedInputs (r.mismatches.getD []))
    | .currentResource => replaceBy r.actualResource
    | .expectedResource => replaceBy r.actualResource
    | .expectedReturn => replaceBy r.actualReturn

end EditReport

end ManifestLens
