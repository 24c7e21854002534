import ManifestLens.Outline.Ranges
import ManifestLens.Proofs.Manifest.Derivation

/-!
# Ranges of the parts of an outline

The parts of an outline are placed from the anchor of their document, and their ranges are found again from there.  A
place comes back as it was exactly if it is below the line of the anchor, or the document starts in the first column
(`Position.absolute_relativeTo_iff`).  So it is for the tokens of scalars on one line, and for all blocks.
-/

namespace ManifestLens

open Yaml (Mark Node)

namespace Position

/-- The place is told by its distance from the anchor: on the anchor's own line only if that is its first column. -/
def ToldFrom (p anchor : Position) : Prop :=
  anchor.line < p.line ∨ anchor.character = 0

instance (p anchor : Position) : Decidable (p.ToldFrom anchor) :=
  inferInstanceAs (Decidable (_ ∨ _))

/-- A place at or after an anchor, or one further on in its line, comes back from the distance exactly if it is told by
it. -/
theorem absolute_relativeTo_add_iff {p q anchor : Position} (after : anchor.line ≤ p.line) (line : p.line = q.line) :
    (p.relativeTo anchor).absolute anchor (q.character - p.character) = q ↔ p.ToldFrom anchor := by
  obtain ⟨l, c⟩ := q
  rw [relativeTo, absolute, ToldFrom, mk.injEq]
  dsimp only at line ⊢
  split <;> omega

theorem absolute_relativeTo_iff {p anchor : Position} (after : anchor.line ≤ p.line) :
    (p.relativeTo anchor).absolute anchor 0 = p ↔ p.ToldFrom anchor := by
  rw [← absolute_relativeTo_add_iff after rfl, Int.sub_self]

end Position

namespace Piece

/-- The marks of the node that the piece is made of. -/
def start : Piece → Mark
  | .scalar r _ => r.start
  | .block n _ => n.start

def stop : Piece → Mark
  | .scalar r _ => r.stop
  | .block n _ => n.stop

private theorem mem_preorderAll_block {localKey indexKey localKey' indexKey' : Option String} {range range' : Range}
    {tokens : List Token} {children : Option (List Outline)}
    (mem : .block localKey indexKey range children ∈
      Outline.preorderAll [.block localKey' indexKey' range' (some (tokens.map fun t => .token t none))]) :
    range = range' := by
  rw [Outline.preorderAll_block_tokens, List.mem_cons] at mem
  rcases mem with same | mem
  · cases same
    rfl
  · obtain ⟨t, _, same⟩ := List.mem_map.1 mem
    cases same

/-- The block of a scalar, if it has one, covers the scalar. -/
private theorem exists_range {r : ScalarReading} {found : Outlined} (made : r.outlined = .ok found) :
    (∃ t, found.1 = [.token t none]) ∨ ∃ localKey indexKey, ∃ tokens : List Token,
      found.1 = [.block localKey indexKey (r.page.range r.start r.stop)
        (some (tokens.map fun t => .token t none))] := by
  rcases ScalarReading.outlined_cases made with ⟨_, tokens, form, _⟩ | ⟨_, _, _, _, first, others, _, _, form⟩
  · exact .inr ⟨none, none, tokens, form⟩
  · rw [form]
    split
    · exact .inl ⟨first, rfl⟩
    · exact .inr ⟨_, _, first :: others, rfl⟩

/-- A block of an outline covers the node that it is made of. -/
private theorem Made.range_of_block {page : Page} {piece : Piece} (h : piece.Made page)
    {localKey indexKey : Option String} {range : Range} {children : Option (List Outline)}
    (mem : .block localKey indexKey range children ∈ piece.parts) :
    range = page.range piece.start piece.stop := by
  cases h with
  | value onPage notKey made =>
    subst onPage
    rw [parts] at mem
    rcases exists_range made with ⟨t, form⟩ | ⟨localKey', indexKey', tokens, form⟩
    · rw [form, Outline.preorderAll, Outline.preorder, Outline.preorderAll, List.append_nil, List.mem_singleton] at mem
      cases mem
    · rw [form] at mem
      exact mem_preorderAll_block mem
  | key onPage isKey made =>
    subst onPage
    rw [parts] at mem
    rcases exists_range made with ⟨t, form⟩ | ⟨localKey', indexKey', tokens, form⟩
    · rw [form] at mem
      cases List.mem_singleton.1 mem
    · rw [form] at mem
      cases List.mem_singleton.1 mem
      rfl
  | block =>
    rw [parts, List.mem_singleton] at mem
    cases mem
    rfl

/-- A scalar on one line that is no expression is one token, which starts and ends with the scalar. -/
private theorem Made.parts_of_line {page : Page} {r : ScalarReading} {parts : List Outline}
    (h : (Piece.scalar r parts).Made page) (plain : r.isExpression = false) (line : r.start.line = r.stop.line) :
    ∃ t children, parts = [.token t children] ∧ t.place = r.start.position.relativeTo page.anchor ∧
      t.length = (r.stop.column : Int) - r.start.column := by
  have form : ∀ {found : Outlined}, r.outlined = .ok found → ∃ t, found.1 = [.token t none] ∧
      t.place = r.start.position.relativeTo r.page.anchor ∧ t.length = (r.stop.column : Int) - r.start.column := by
    intro found made
    rcases ScalarReading.outlined_cases made with
      ⟨expression, _⟩ | ⟨_, length, _, _, first, others, hlength, isFirst, form⟩
    · rw [plain] at expression
      cases expression
    · rw [if_pos (by omega)] at form
      rw [Page.firstLength, if_pos (beq_iff_eq.2 line)] at hlength
      cases hlength
      refine ⟨first, form, ?_, ?_⟩ <;> rw [isFirst] <;> rfl
  cases h with
  | value onPage notKey made =>
    subst onPage
    obtain ⟨t, form, place, length⟩ := form made
    exact ⟨t, none, by rw [form]; rfl, place, length⟩
  | key onPage isKey made =>
    subst onPage
    obtain ⟨t, form, place, length⟩ := form made
    exact ⟨t, some _, by rw [form]; rfl, place, length⟩

end Piece

/-- A place at or after an anchor comes back exactly if it is told by its distance.  So in every document that is read,
the scalars on one line that are no expressions are tokens whose ranges start and end with them exactly if their starts
are told from the anchor, and the blocks have ranges that start and end with their nodes exactly if the starts and the
ends of these are told from the anchor. -/
theorem absoluteRange_readDocument_iff {file : SourceFile} {kinds : List (String × Slot)} {state next : FileReading}
    {document : Yaml.Document} {S T : Schema} {manifest : Manifest}
    (read : (readDocument file kinds state document).runFrom S = (.ok (some manifest, next), T)) :
    (∀ p anchor : Position, anchor ≤ p → ((p.relativeTo anchor).absolute anchor 0 = p ↔ p.ToldFrom anchor)) ∧
    ∃ page slot root pieces, Reads page (.root slot root) S state.last pieces (manifest.anchor.parts, next.last) T ∧
      manifest.anchor.absolute = root.start.position ∧
      (scalarsOf pieces).map ScalarReading.source = root.scalars ∧
      Outline.preorderAll manifest.anchor.parts = pieces.flatMap Piece.parts ∧
      (∀ r parts, .scalar r parts ∈ pieces → r.isExpression = false → r.start.line = r.stop.line →
        manifest.anchor.absolute ≤ r.start.position →
        ∃ t children, parts = [.token t children] ∧
          ((Outline.absoluteRange manifest.anchor.absolute (.token t children)).start = r.start.position ↔
            r.start.position.ToldFrom manifest.anchor.absolute) ∧
          ((Outline.absoluteRange manifest.anchor.absolute (.token t children)).stop = r.stop.position ↔
            r.start.position.ToldFrom manifest.anchor.absolute)) ∧
      (∀ piece ∈ pieces, ∀ localKey indexKey range children, .block localKey indexKey range children ∈ piece.parts →
        manifest.anchor.absolute ≤ piece.start.position → manifest.anchor.absolute ≤ piece.stop.position →
        ((Outline.absoluteRange manifest.anchor.absolute (.block localKey indexKey range children)).start =
            piece.start.position ↔ piece.start.position.ToldFrom manifest.anchor.absolute) ∧
        ((Outline.absoluteRange manifest.anchor.absolute (.block localKey indexKey range children)).stop =
            piece.stop.position ↔ piece.stop.position.ToldFrom manifest.anchor.absolute)) := by
  refine ⟨fun p anchor after => Position.absolute_relativeTo_iff (Position.line_le after), ?_⟩
  obtain ⟨root, _, _, slot, pieces, _, rfl, anchor, reads⟩ := exists_reads_of_readDocument read
  rw [anchor]
  refine ⟨_, slot, root, pieces, reads, rfl, reads.map_source_scalarsOf, reads.preorderAll_eq, ?_, ?_⟩
  · intro r parts mem plain line after
    obtain ⟨t, children, form, place, length⟩ := (reads.forall_made _ mem).parts_of_line plain line
    -- the range of a token is its start and a length, so both its ends come back or none
    have onLine : r.start.position.line = r.stop.position.line := congrArg Int.ofNat line
    refine ⟨t, children, form, ?_, ?_⟩
    · rw [Outline.absoluteRange, place]
      exact Position.absolute_relativeTo_iff (Position.line_le after)
    · rw [Outline.absoluteRange, place, length]
      exact Position.absolute_relativeTo_add_iff (Position.line_le after) onLine
  · intro piece mem localKey indexKey range children block afterStart afterStop
    cases (reads.forall_made _ mem).range_of_block block
    exact ⟨Position.absolute_relativeTo_iff (Position.line_le afterStart),
      Position.absolute_relativeTo_iff (Position.line_le afterStop)⟩

/-- The reading of a document that starts in the fifth column, on the line of its only pair. -/
private def readFlow : Reading (Option Manifest × FileReading) :=
  let letter (text : String) (column : Nat) : Node :=
    .scalar (Yaml.Tag.standard "str") text ⟨column, 0, column⟩ ⟨column + 1, 0, column + 1⟩
  let root : Node := .mapping (Yaml.Tag.standard "map") [(letter "a" 5, letter "b" 8)] ⟨4, 0, 4⟩ ⟨10, 0, 10⟩
  readDocument ⟨"", ["--- \x7ba: b\x7d"]⟩ [] ⟨0, .origin⟩ ⟨root, false⟩

theorem absoluteRange_readFlow :
    ∃ manifest next T, readFlow.runFrom #[{}] = (.ok (some manifest, next), T) ∧
      ∃ page slot root pieces, Reads page (.root slot root) #[{}] .origin pieces (manifest.anchor.parts, next.last) T ∧
        manifest.anchor.absolute = root.start.position ∧
        Outline.preorderAll manifest.anchor.parts = pieces.flatMap Piece.parts := by
  obtain ⟨manifest, next, T, h⟩ := exists_manifest_of_isSome (r := readFlow.runFrom #[{}]) (by decide +kernel)
  obtain ⟨_, page, slot, root, pieces, reads, anchor, _, parts, _⟩ := absoluteRange_readDocument_iff h
  exact ⟨manifest, next, T, h, page, slot, root, pieces, reads, anchor, parts⟩

/-- The key of the pair stands in the sixth column, but its range is in the second. -/
theorem absoluteRange_key_readFlow :
    ((readFlow.runFrom #[{}]).1.toOption.bind (·.1)).map
        (fun manifest => manifest.anchor.parts.map (Outline.absoluteRange manifest.anchor.absolute)) =
      some [⟨⟨0, 1⟩, ⟨0, 2⟩⟩] := by
  decide +kernel

end ManifestLens
