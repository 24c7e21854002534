import ManifestLens.Proofs.Manifest.Decoding
import ManifestLens.Proofs.Manifest.FirstDocument
import ManifestLens.Proofs.Manifest.Placement

/-!
# Highlighting and ranges

A token is found in two ways: by following the distances from one token to the next, and as the start of its range.  In
a document that starts in the first column the two agree for expressions and for first lines.  The range of a further
line of any other scalar starts in the first column, where the distances lead to the first character that is no blank
(`ScalarReading.places_eq_rangeStarts_iff`).
-/

namespace ManifestLens

open Yaml (Mark Node)

/-- Seen from a document that starts in the first column, every place comes back as it was. -/
private theorem Position.absolute_relativeTo {p anchor : Position} (column : anchor.character = 0) :
    (p.relativeTo anchor).absolute anchor 0 = p := by
  rw [relativeTo, absolute, column]
  obtain ⟨line, character⟩ := p
  rw [mk.injEq]
  dsimp only
  split <;> omega

/-- Where the range of a token starts, in a document at an anchor. -/
def Token.rangeStart (anchor : Position) (t : Token) : Position :=
  (Outline.absoluteRange anchor (.token t none)).start

/-- The first columns of the lines from a line on. -/
def lineStarts (line count : Nat) : List Position :=
  (List.range' line count).map fun n : Nat => ⟨n, 0⟩

/-- The ranges of further tokens start with their lines. -/
private theorem Page.map_rangeStart_furtherTokens {page : Page} {first : Token} {line count : Nat} {tokens : List Token}
    (h : page.furtherTokens first line count = .ok tokens) (column : page.anchor.character = 0) :
    tokens.map (Token.rangeStart page.anchor) = lineStarts line count := by
  obtain ⟨-, rfl⟩ := furtherTokens_eq_ok_iff.1 h
  rw [List.map_map]
  exact List.map_congr_left fun n _ => Position.absolute_relativeTo column

namespace ScalarReading

variable {r : ScalarReading} {found : Outlined}

/-- Where the ranges of the tokens of a scalar start: for an expression where the tokens stand, and for any other scalar
at its start mark and with its further lines. -/
def rangeStarts (r : ScalarReading) : List Position :=
  if r.isExpression then r.places
  else r.start.position :: lineStarts (r.start.line + 1) (r.stop.line - r.start.line - 1)

private theorem map_rangeStart_scalar
    (made : r.page.scalar r.entry r.text r.start r.stop r.last r.remark = .ok found)
    (column : r.page.anchor.character = 0) :
    (Outline.flattenAll found.1).map (Token.rangeStart r.page.anchor) =
      r.start.position :: lineStarts (r.start.line + 1) (r.stop.line - r.start.line - 1) := by
  obtain ⟨first, others, ⟨length, localKey, indexKey, _, _, _, rfl⟩, madeOthers, rfl⟩ := Page.scalar_eq_ok made
  have starts := Page.map_rangeStart_furtherTokens madeOthers column
  generalize r.stop.line - r.start.line - 1 = more at madeOthers starts ⊢
  have isFirst : ∀ t : Token, t.place = r.start.position.relativeTo r.page.anchor →
      t.rangeStart r.page.anchor = r.start.position := by
    intro t place
    rw [Token.rangeStart, Outline.absoluteRange, place]
    exact Position.absolute_relativeTo column
  cases more with
  | zero => exact congrArg (· :: []) (isFirst _ rfl)
  | succ more =>
    rw [if_neg (Nat.succ_ne_zero more), flattenAll_block, List.map_cons, starts, isFirst _ rfl]

private theorem map_rangeStart_expression
    (made : r.page.expression r.text r.start r.stop r.last r.entry.modifiers r.remark = .ok found)
    (column : r.page.anchor.character = 0) (isExpression : r.isExpression = true) :
    (Outline.flattenAll found.1).map (Token.rangeStart r.page.anchor) = r.places := by
  obtain ⟨tokens, _, madeTokens, _, rfl⟩ := Page.expression_eq_ok made
  rw [flattenAll_block, places, if_pos isExpression]
  by_cases oneLine : r.start.line = r.stop.line
  · rw [if_pos oneLine] at madeTokens ⊢
    exact Page.map_absolute_lineExpression madeTokens
  · rw [if_neg oneLine] at madeTokens ⊢
    have placed := Page.map_absolute_blockExpression madeTokens
    obtain ⟨line, lexed, _, _, rfl⟩ := Page.blockExpression_eq_ok madeTokens
    rw [List.map_cons, ← placed]
    exact congrArg (· :: _) (Position.absolute_relativeTo column)

private theorem map_rangeStart_tokens (made : r.outlined = .ok found) (column : r.page.anchor.character = 0) :
    r.tokens.map (Token.rangeStart r.page.anchor) = r.rangeStarts := by
  rw [tokens_eq made, rangeStarts]
  rw [outlined] at made
  cases isExpression : r.isExpression with
  | true =>
    rw [isExpression] at made
    exact map_rangeStart_expression made column isExpression
  | false =>
    rw [isExpression] at made
    exact map_rangeStart_scalar made column

private theorem length_places_eq : r.places.length = r.rangeStarts.length := by
  rw [rangeStarts]
  split
  · rfl
  · next plain =>
    rw [places, if_neg plain, List.length_cons, List.length_cons, Page.furtherPlaces, lineStarts, List.length_map,
      List.length_map]

/-- A scalar stands where its ranges start exactly if it is an expression, or all its lines between the first and the
last start in the first column. -/
theorem places_eq_rangeStarts_iff :
    r.places = r.rangeStarts ↔
      (r.isExpression = false → ∀ n, r.start.line < n → n < r.stop.line → r.page.indent n = 0) := by
  rw [rangeStarts]
  cases isExpression : r.isExpression with
  | true =>
    rw [if_pos rfl]
    exact ⟨fun _ plain => Bool.noConfusion plain, fun _ => rfl⟩
  | false =>
    rw [places, isExpression, if_neg Bool.false_ne_true, if_neg Bool.false_ne_true, List.cons.injEq, eq_self, true_and,
      Page.furtherPlaces, lineStarts, List.map_inj_left]
    simp only [List.mem_range'_1, Position.mk.injEq, true_and, Int.natCast_eq_zero]
    constructor
    · intro flush _ n after before
      exact flush n (by omega)
    · intro flush n inside
      exact flush trivial n (by omega) (by omega)

end ScalarReading

/-- Two lists made of parts of equal lengths are equal exactly if their parts are. -/
private theorem flatMap_eq_flatMap_iff {α β : Type} {f g : α → List β} {l : List α}
    (lengths : ∀ a ∈ l, (f a).length = (g a).length) : l.flatMap f = l.flatMap g ↔ ∀ a ∈ l, f a = g a := by
  constructor
  · intro same
    induction l with
    | nil => exact fun _ h => absurd h List.not_mem_nil
    | cons a l ih =>
      rw [List.flatMap_cons, List.flatMap_cons] at same
      obtain ⟨here, there⟩ := List.append_inj same (lengths a List.mem_cons_self)
      exact List.forall_mem_cons.2 ⟨here, ih (fun b hb => lengths b (List.mem_cons_of_mem a hb)) there⟩
  · exact List.flatMap_congr

/-- A document starts in the first column, its scalars stand in the text one after the other, and every key stands on
one line and is no expression.  Then the distances lead to the starts of the ranges of all tokens exactly if no scalar
but expressions has a line, between its first and its last, that starts with a blank. -/
theorem decodeDeltas_eq_rangeStarts_iff {file : SourceFile} {kinds : List (String × Slot)} {state next : FileReading}
    {document : Yaml.Document} {root : Node} {value : Value} {S T : Schema} {manifest : Manifest}
    (read : (readDocument file kinds state document).runFrom S = (.ok (some manifest, next), T))
    (isRoot : Yaml.valueOf file.text.toList document.root = .ok (root, value))
    (column : root.start.column = 0) (order : InOrder state.last root.scalars)
    (lines : ∀ s ∈ root.scalars, s.isKey = true → s.start.line = s.stop.line) :
    ∃ page slot pieces, Reads page (.root slot root) S state.last pieces (manifest.anchor.parts, next.last) T ∧
      page.lines = file.lines.map String.toList ∧ (scalarsOf pieces).map ScalarReading.source = root.scalars ∧
      ((∀ r ∈ scalarsOf pieces, r.isKey = true → r.isExpression = false) →
        let tokens := Outline.flattenAll manifest.anchor.parts
        let decoded := decodeDeltas state.last (tokens.map (·.delta))
        let starts := tokens.map (Token.rangeStart manifest.anchor.absolute)
        decoded = (scalarsOf pieces).flatMap ScalarReading.places ∧
        starts = (scalarsOf pieces).flatMap ScalarReading.rangeStarts ∧
        (decoded = starts ↔ ∀ r ∈ scalarsOf pieces, r.isExpression = false →
          ∀ n, r.start.line < n → n < r.stop.line → page.indent n = 0)) := by
  obtain ⟨root', _, page, slot, pieces, isRoot', isPage, anchor, reads⟩ := exists_reads_of_readDocument read
  obtain ⟨rfl, -⟩ := Prod.mk.inj (Except.ok.inj (isRoot.symm.trans isRoot'))
  have first : page.anchor.character = 0 := by
    rw [isPage]
    exact congrArg Int.ofNat column
  rw [anchor]
  have sources : (scalarsOf pieces).map ScalarReading.source = root.scalars := reads.map_source_scalarsOf
  refine ⟨page, slot, pieces, reads, by rw [isPage], sources, ?_⟩
  intro plain
  obtain ⟨isTokens, decoded, _⟩ := reads.decodes order fun r hr isKey => by
    have line : r.start.line = r.stop.line := lines r.source (sources ▸ List.mem_map_of_mem hr) isKey
    exact ⟨by omega, plain r hr isKey⟩
  have starts : (Outline.flattenAll manifest.anchor.parts).map (Token.rangeStart page.anchor) =
      (scalarsOf pieces).flatMap ScalarReading.rangeStarts := by
    rw [isTokens, List.map_flatMap]
    apply List.flatMap_congr
    intro r hr
    obtain ⟨found, made⟩ := reads.handedOn.exists_outlined r hr
    rw [← reads.forall_page r hr] at first ⊢
    exact ScalarReading.map_rangeStart_tokens made first
  refine ⟨decoded, starts, ?_⟩
  rw [decoded, starts, flatMap_eq_flatMap_iff fun r _ => ScalarReading.length_places_eq]
  refine forall₂_congr fun r hr => ?_
  rw [ScalarReading.places_eq_rangeStarts_iff, reads.forall_page r hr]

/-- A scalar on three lines that all start in the first column, before an expression. -/
private def flush : String := "a: 'x\ny\nz'\nb: =1 + c\n"

private def flushScalars : List ScalarNode :=
  [ ⟨true, "a", ⟨0, 0, 0⟩, ⟨1, 0, 1⟩⟩, ⟨false, "x y z", ⟨3, 0, 3⟩, ⟨10, 2, 2⟩⟩,
    ⟨true, "b", ⟨11, 3, 0⟩, ⟨12, 3, 1⟩⟩, ⟨false, "=1 + c", ⟨14, 3, 3⟩, ⟨20, 3, 9⟩⟩ ]

theorem decodeDeltas_eq_rangeStarts_flush :
    ∃ manifest next T, firstReading flush = (.ok (some manifest, next), T) ∧
      let tokens := Outline.flattenAll manifest.anchor.parts
      decodeDeltas .origin (tokens.map (·.delta)) = tokens.map (Token.rangeStart manifest.anchor.absolute) := by
  have order : InOrder .origin flushScalars := by decide +kernel
  have lines : ∀ s ∈ flushScalars, s.isKey = true → s.start.line = s.stop.line := by decide +kernel
  have heads : ∀ s ∈ flushScalars, s.isKey = true → s.text.toList.head? ≠ some '=' := by decide +kernel
  have inFirstColumn : ∀ s ∈ flushScalars, ∀ n < s.stop.line, s.start.line < n →
      Page.indent ⟨(Text.lines flush true).map String.toList, .origin⟩ n = 0 := by
    decide +kernel
  have isTree : (Yaml.valueOf flush.toList (firstDocument flush).root).toOption.any (fun found =>
      decide (found.1.start.column = 0 ∧ found.1.scalars = flushScalars)) = true := by
    decide +kernel
  obtain ⟨⟨root, value⟩, isRoot, isTree⟩ := (Option.any_eq_true ..).1 isTree
  obtain ⟨column, isScalars⟩ := of_decide_eq_true isTree
  obtain ⟨manifest, next, T, read⟩ := exists_manifest_of_isSome (r := firstReading flush) (by decide +kernel)
  obtain ⟨page, slot, pieces, reads, isPage, sources, agree⟩ := decodeDeltas_eq_rangeStarts_iff read
    (except_eq_ok_of_toOption isRoot) column (isScalars ▸ order) (isScalars ▸ lines)
  rw [isScalars] at sources
  have mem : ∀ r ∈ scalarsOf pieces, r.source ∈ flushScalars := fun r hr => sources ▸ List.mem_map_of_mem hr
  obtain ⟨_, _, agree⟩ := agree fun r hr isKey =>
    ScalarReading.isExpression_eq_false (heads r.source (mem r hr) isKey)
  refine ⟨manifest, next, T, read, agree.2 fun r hr _ n after before => ?_⟩
  rw [Page.indent, isPage]
  exact inFirstColumn r.source (mem r hr) n before after

/-- A scalar on two lines that are indented. -/
private def indented : String := "a: |\n  x\n  y\n"

/-- The distances lead to the first characters of the lines, and the ranges start before their indentations. -/
theorem decodeDeltas_ne_rangeStarts_indented :
    (∃ scalars, firstScalars indented = some scalars ∧ InOrder .origin scalars ∧
      ∀ s ∈ scalars, s.isKey = true → s.start.line = s.stop.line) ∧
    ((firstReading indented).1.toOption.bind (·.1)).map (fun manifest =>
        let tokens := Outline.flattenAll manifest.anchor.parts
        (manifest.anchor.absolute, decodeDeltas .origin (tokens.map (·.delta)),
          tokens.map (Token.rangeStart manifest.anchor.absolute))) =
      some (⟨0, 0⟩, [⟨0, 0⟩, ⟨0, 3⟩, ⟨1, 2⟩, ⟨2, 2⟩], [⟨0, 0⟩, ⟨0, 3⟩, ⟨1, 0⟩, ⟨2, 0⟩]) := by
  refine ⟨⟨[⟨true, "a", ⟨0, 0, 0⟩, ⟨1, 0, 1⟩⟩, ⟨false, "x\ny\n", ⟨3, 0, 3⟩, ⟨13, 3, 0⟩⟩], ?_⟩, ?_⟩
  · decide +kernel
  · decide +kernel

end ManifestLens
