import ManifestLens.Proofs.Manifest.FirstDocument
import ManifestLens.Proofs.Manifest.Lines
import ManifestLens.Proofs.Text.Lines

/-!
# Versions and the text of a document

The version of a document is the digest of its lines, joined by line feeds, but for the line that its root ends on
(`versionText`).  Different lines are joined to different texts (`versionText_eq_iff`), so a change on one of these
lines always shows; the part of the root on the last line (`lastPart`) never does.  A root that ends at the start of a
line, as that of a block style document with a break after it, has no such part (`lastPart_of_column_eq_zero`).  The
whole lines and the last part make up the text between the marks of the root (`sourceText_eq`).
-/

namespace ManifestLens

open Yaml (Node Mark)

/-! ### The text of a node -/

/-- The lines of a node but for the one that it ends on. -/
def wholeLines (lines : List String) (node : Node) : List String :=
  (lines.drop node.start.line).take (node.stop.line - node.start.line)

/-- The part of a node on the line that it ends on. -/
def lastPart (lines : List String) (node : Node) : List Char :=
  let line := (lines.getD node.stop.line "").toList
  (line.take node.stop.column).drop (if node.start.line < node.stop.line then 0 else node.start.column)

/-- The text of a node: from its start to the end of its whole lines, and its part on the last line. -/
def sourceText (lines : List String) (node : Node) : List Char :=
  ((wholeLines lines node).map String.toList).flatten.drop node.start.column ++ lastPart lines node

/-- The text of which the version of a node is the digest. -/
def versionText (lines : List String) (node : Node) : String :=
  "\n".intercalate (wholeLines lines node)

/-- How many characters of a text are before a mark. -/
def offsetOf (lines : List String) (mark : Mark) : Nat :=
  ((lines.take mark.line).map String.toList).flatten.length + mark.column

theorem lastPart_of_column_eq_zero {lines : List String} {node : Node} (atStart : node.stop.column = 0) :
    lastPart lines node = [] := by
  rw [lastPart, atStart, List.take_zero, List.drop_nil]

private theorem map_toList_lines (text : String) :
    (Text.lines text true).map String.toList = Text.keptLines text.toList := by
  simp [Text.lines, Function.comp_def]

/-- The part of a text from a place in `inner` or `last` to one in `last`. -/
private theorem take_drop_append (before inner last after : List Char) (first : Nat) {stop : Nat}
    (fits : stop ≤ last.length) :
    ((before ++ (inner ++ (last ++ after))).drop (before.length + first)).take
        (before.length + inner.length + stop - (before.length + first)) =
      inner.drop first ++ (last.take stop).drop (first - inner.length) := by
  have cut : (last ++ after).take stop = last.take stop := List.take_append_of_le_length fits
  rw [List.drop_length_add_append, List.drop_append]
  rcases Nat.le_total first inner.length with inside | beyond
  · have length : before.length + inner.length + stop - (before.length + first) = (inner.drop first).length + stop := by
      rw [List.length_drop]
      omega
    rw [length, List.take_length_add_append, Nat.sub_eq_zero_of_le inside, List.drop_zero, cut, List.drop_zero]
  · have length : before.length + inner.length + stop - (before.length + first) = stop - (first - inner.length) := by
      omega
    rw [length, List.drop_of_length_le beyond, List.nil_append, List.nil_append, ← List.drop_take, cut]

/-- The text of a node whose marks are on their lines is that between its marks. -/
theorem sourceText_eq {text : String} {node : Node} {first last : String}
    (starts : (Text.lines text true)[node.start.line]? = some first) (fits : node.start.column ≤ first.length)
    (stops : (Text.lines text true)[node.stop.line]? = some last) (fits' : node.stop.column ≤ last.length)
    (ordered : node.start.line ≤ node.stop.line) :
    sourceText (Text.lines text true) node =
      (text.toList.drop (offsetOf (Text.lines text true) node.start)).take
        (offsetOf (Text.lines text true) node.stop - offsetOf (Text.lines text true) node.start) := by
  have all : text.toList = ((Text.lines text true).map String.toList).flatten := by
    rw [map_toList_lines, Text.flatten_keptLines]
  rw [sourceText, lastPart, offsetOf, offsetOf, all]
  generalize Text.lines text true = lines at *
  -- the lines before the node, its whole lines, its last line and the lines after it
  have before : lines.take node.stop.line = lines.take node.start.line ++ wholeLines lines node := by
    rw [wholeLines, ← List.take_add, Nat.add_sub_cancel' ordered]
  have parts : lines =
      lines.take node.start.line ++ (wholeLines lines node ++ last :: lines.drop (node.stop.line + 1)) := by
    obtain ⟨bound, rfl⟩ := List.getElem?_eq_some_iff.1 stops
    rw [List.getElem_cons_drop, ← List.append_assoc, ← before, List.take_append_drop]
  have flat : (lines.map String.toList).flatten =
      ((lines.take node.start.line).map String.toList).flatten ++
        (((wholeLines lines node).map String.toList).flatten ++
          (last.toList ++ ((lines.drop (node.stop.line + 1)).map String.toList).flatten)) := by
    refine (congrArg (fun l => (l.map String.toList).flatten) parts).trans ?_
    simp
  have skipped : (if node.start.line < node.stop.line then 0 else node.start.column) =
      node.start.column - ((wholeLines lines node).map String.toList).flatten.length := by
    split
    case isTrue several =>
      obtain ⟨bound, rfl⟩ := List.getElem?_eq_some_iff.1 starts
      rw [wholeLines, ← List.getElem_cons_drop bound, List.take_cons (by omega), List.map_cons, List.flatten_cons,
        List.length_append, String.length_toList]
      omega
    case isFalse single =>
      have none : node.stop.line - node.start.line = 0 := by omega
      rw [wholeLines, none, List.take_zero]
      rfl
  rw [flat, before, List.getD_eq_getElem?_getD, stops, Option.getD_some, List.map_append, List.flatten_append,
    List.length_append, skipped, take_drop_append _ _ _ _ _ (by rwa [String.length_toList])]

/-! ### Digested texts -/

/-- Nodes have the same digested text if they have the same whole lines, and only then. -/
theorem versionText_eq_iff (text other : String) (node another : Node) :
    versionText (Text.lines text true) node = versionText (Text.lines other true) another ↔
      wholeLines (Text.lines text true) node = wholeLines (Text.lines other true) another := by
  refine ⟨fun h => ?_, congrArg _⟩
  have broken (text : String) (node : Node) :
      Text.Broken ((wholeLines (Text.lines text true) node).map String.toList) := by
    rw [wholeLines, List.map_take, List.map_drop, map_toList_lines]
    exact ((Text.broken_keptLines _).drop _).take _
  have same := congrArg String.toList h
  rw [versionText, versionText, String.toList_intercalate, String.toList_intercalate] at same
  exact (List.map_inj_right fun _ _ => String.toList_inj.1).1 <|
    (broken text node).eq_of_intercalate (broken other another) same

/-- Nodes with the same whole lines that start in the same column have the same text if they have the same last part,
and only then. -/
private theorem sourceText_eq_iff {lines others : List String} {node another : Node}
    (same : wholeLines lines node = wholeLines others another)
    (column : wholeLines lines node ≠ [] → node.start.column = another.start.column) :
    sourceText lines node = sourceText others another ↔ lastPart lines node = lastPart others another := by
  have head : ((wholeLines lines node).map String.toList).flatten.drop node.start.column =
      ((wholeLines others another).map String.toList).flatten.drop another.start.column := by
    by_cases empty : wholeLines lines node = []
    · rw [← same, empty]
      simp
    · rw [same, column empty]
  rw [sourceText, sourceText, head, List.append_cancel_left_eq]

/-! ### Documents -/

namespace Yaml

theorem start_expand (fuel : Nat) (node : Node) : (expand fuel node).start = node.start := by
  cases fuel with
  | zero => rfl
  | succ fuel =>
    unfold expand
    split <;> rfl

private theorem stop_expand (fuel : Nat) (node : Node) : (expand fuel node).stop = node.stop := by
  cases fuel with
  | zero => rfl
  | succ fuel =>
    unfold expand
    split <;> rfl

end Yaml

/-- The version of a document is the digest of the lines of its root but for the last one. -/
private theorem version_of_readDocument {file : SourceFile} {kinds : List (String × Slot)} {state next : FileReading}
    {document : Yaml.Document} {S T : Schema} {manifest : Manifest}
    (h : (readDocument file kinds state document).runFrom S = (.ok (some manifest, next), T)) :
    manifest.version = Digest.md5Hex (versionText file.lines document.root) := by
  rcases readDocument_eq_ok h with ⟨none, _⟩ | ⟨root, entries, m, valued, same, _, read, _⟩
  · cases none
  · cases same
    rw [(readEntries_made read).1, expanded_of_valueOf valued, versionOf, Yaml.start_expand, Yaml.stop_expand]
    rfl

/-- Two documents have the same digested text if they have the same whole lines, and only then.  Let them start in the
same column.  If the same text is digested, then their own texts are the same if their last parts are, and only then.
If both end at the start of a line and their texts differ, then different texts are digested. -/
theorem versionText_readDocument {text other : String} {kinds kinds' : List (String × Slot)}
    {state state' next next' : FileReading} {document document' : Yaml.Document} {S S' T T' : Schema}
    {manifest manifest' : Manifest}
    (read : (readDocument (.ofText text true) kinds state document).runFrom S = (.ok (some manifest, next), T))
    (read' : (readDocument (.ofText other true) kinds' state' document').runFrom S' =
      (.ok (some manifest', next'), T')) :
    let lines := Text.lines text true
    let lines' := Text.lines other true
    manifest.version = Digest.md5Hex (versionText lines document.root) ∧
    manifest'.version = Digest.md5Hex (versionText lines' document'.root) ∧
    (versionText lines document.root = versionText lines' document'.root ↔
      wholeLines lines document.root = wholeLines lines' document'.root) ∧
    ((wholeLines lines document.root ≠ [] → document.root.start.column = document'.root.start.column) →
      (versionText lines document.root = versionText lines' document'.root →
        (sourceText lines document.root = sourceText lines' document'.root ↔
          lastPart lines document.root = lastPart lines' document'.root)) ∧
      (document.root.stop.column = 0 → document'.root.stop.column = 0 →
        sourceText lines document.root ≠ sourceText lines' document'.root →
        versionText lines document.root ≠ versionText lines' document'.root)) := by
  intro lines lines'
  have version := version_of_readDocument read
  have version' := version_of_readDocument read'
  rw [SourceFile.ofText] at version version'
  refine ⟨version, version', versionText_eq_iff .., ?_⟩
  intro column
  have parts (same : versionText lines document.root = versionText lines' document'.root) :
      sourceText lines document.root = sourceText lines' document'.root ↔
        lastPart lines document.root = lastPart lines' document'.root :=
    sourceText_eq_iff ((versionText_eq_iff ..).1 same) column
  refine ⟨parts, ?_⟩
  intro stops stops' differ same
  apply differ
  rw [parts same, lastPart_of_column_eq_zero stops, lastPart_of_column_eq_zero stops']

/-- Two documents that end without a break: the same text is digested, and their texts differ in the last part. -/
theorem versionText_readDocument_noBreak :
    ∃ manifest manifest' next next' T T', firstReading "a: 1\nb: 2" = (.ok (some manifest, next), T) ∧
      firstReading "a: 1\nb: 3" = (.ok (some manifest', next'), T') ∧
      manifest.version = Digest.md5Hex "a: 1\n" ∧ manifest'.version = Digest.md5Hex "a: 1\n" ∧
      sourceText (Text.lines "a: 1\nb: 2" true) (firstDocument "a: 1\nb: 2").root ≠
        sourceText (Text.lines "a: 1\nb: 3" true) (firstDocument "a: 1\nb: 3").root := by
  obtain ⟨manifest, next, T, read⟩ := exists_manifest_of_isSome (r := firstReading "a: 1\nb: 2") (by decide +kernel)
  obtain ⟨manifest', next', T', read'⟩ := exists_manifest_of_isSome (r := firstReading "a: 1\nb: 3") (by decide +kernel)
  obtain ⟨version, version', digest, text⟩ := versionText_readDocument read read'
  have digested : versionText (Text.lines "a: 1\nb: 2" true) (firstDocument "a: 1\nb: 2").root = "a: 1\n" := by
    decide +kernel
  have digested' : versionText (Text.lines "a: 1\nb: 3" true) (firstDocument "a: 1\nb: 3").root = "a: 1\n" := by
    decide +kernel
  rw [digested] at version
  rw [digested'] at version'
  refine ⟨manifest, manifest', next, next', T, T', read, read', version, version', ?_⟩
  rw [ne_eq, (text fun _ => by decide +kernel).1 (digest.2 (by decide +kernel))]
  decide +kernel

/-- Two documents on one line each have one version, though their texts differ. -/
theorem same_version_different_text :
    let file := SourceFile.ofText "\x7ba: 1\x7d\n---\n\x7ba: 2\x7d\n" true
    ((Manifests.read file []).run #[{}]).1.documents.map (·.map Manifest.version) =
        [some (Digest.md5Hex ""), some (Digest.md5Hex "")] ∧
      (Yaml.DocumentStream.ofText file.text.toList).documents.map (fun d => sourceText file.lines d.root) =
        ["\x7ba: 1\x7d".toList, "\x7ba: 2\x7d".toList] := by
  decide +kernel

end ManifestLens
