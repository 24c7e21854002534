import ManifestLens.Proofs.Expression.Lossless
import ManifestLens.Proofs.Manifest.Agreement
import ManifestLens.Proofs.Manifest.Pointing

/-!
# Tokens inside their lines

The scalars of a file start and end within its lines, so the token of a scalar on one line lies inside the text of the
line.  The first token of a scalar on several lines goes up to the end of its line and takes the break with it, and the
tokens of an expression are laid over the line from an equals sign on, however long the rest of the line is.  So the
tokens of a document lie inside their lines exactly if all its scalars are on one line and its expressions do not run
over theirs (`ScalarReading.fits_iff`).
-/

namespace ManifestLens

open Yaml (Mark Node Origin TokenStream ScalarStyle)

/-- What stands on a line of the file, without the break; nothing on a line after the last. -/
def Page.content (page : Page) (n : Nat) : List Char :=
  Text.dropBreak ((page.lines[n]?).getD [])

/-- From a place on, a stretch of the given length lies inside the text of its line. -/
def Page.Fits (page : Page) (p : Position) (length : Int) : Prop :=
  0 ≤ p.line ∧ 0 ≤ p.character ∧ p.character + length ≤ (page.content p.line.toNat).length

private theorem Page.fits_add_iff {page : Page} {line character offset length : Nat} :
    page.Fits ⟨line, character + offset⟩ length ↔ character + offset + length ≤ (page.content line).length := by
  simp only [Fits, Int.toNat_natCast]
  omega

instance (page : Page) (p : Position) (length : Int) : Decidable (page.Fits p length) :=
  inferInstanceAs (Decidable (_ ∧ _))

/-- Two lists made of parts of equal lengths are paired part by part. -/
private theorem zip_flatMap {α β γ : Type} {f : α → List β} {g : α → List γ} {l : List α}
    (lengths : ∀ a ∈ l, (f a).length = (g a).length) :
    (l.flatMap f).zip (l.flatMap g) = l.flatMap fun a => (f a).zip (g a) := by
  induction l with
  | nil => rfl
  | cons a l ih =>
    obtain ⟨here, there⟩ := List.forall_mem_cons.1 lengths
    rw [List.flatMap_cons, List.flatMap_cons, List.flatMap_cons, List.zip_append here, ih there]

/-- A span of a line ends with the line at the latest. -/
private theorem Expression.add_length_le_of_mem_spans {line : List Char} {s : Nat × List Char} (h : s ∈ spans line) :
    s.1 + s.2.length ≤ line.length := by
  cases lexed : lexemes line with
  | error bad => simp [spans, lexed] at h
  | ok found =>
    obtain ⟨-, some, part⟩ := (tiles_spans lexed).text_of_mem s h
    have shorter := part.length_le
    have longer := List.length_pos_iff.2 some
    rw [List.length_drop] at shorter
    omega

namespace ScalarReading

variable {r : ScalarReading} {found : Outlined}

/-- The scalar is on one line, and if it is an expression its tokens do not run over the line. -/
def Inline (r : ScalarReading) : Prop :=
  r.start.line = r.stop.line ∧ (r.isExpression = true → ∀ s ∈ Expression.spans r.text.toList,
    r.page.equalsColumn r.start + s.1 + s.2.length ≤ (r.page.content r.start.line).length)

/-- The first token of a scalar on several lines goes up to the end of its line, with the break. -/
private theorem exists_first (made : r.outlined = .ok found) (several : r.start.line ≠ r.stop.line) :
    ∃ line places t tokens, r.page.lines[r.start.line]? = some line ∧ r.places = r.start.position :: places ∧
      r.tokens = t :: tokens ∧ t.length = line.length - r.start.column := by
  rw [tokens_eq made, places]
  rw [outlined] at made
  cases isExpression : r.isExpression with
  | true =>
    rw [isExpression] at made
    obtain ⟨tokens, _, madeTokens, _, rfl⟩ := Page.expression_eq_ok made
    rw [if_neg several] at madeTokens ⊢
    obtain ⟨line, lexed, hline, _, rfl⟩ := Page.blockExpression_eq_ok madeTokens
    exact ⟨line, _, _, _, Page.getElem?_of_line hline, rfl, flattenAll_block .., rfl⟩
  | false =>
    rw [isExpression] at made
    obtain ⟨first, others, ⟨length, _, _, hlength, _, _, rfl⟩, _, rfl⟩ := Page.scalar_eq_ok made
    obtain ⟨-, line, isLine, isLength⟩ := (Page.firstLength_eq_ok hlength).resolve_left fun h => several h.1
    by_cases two : r.stop.line - r.start.line - 1 = 0
    · rw [if_pos two]
      exact ⟨line, _, _, [], isLine, rfl, rfl, isLength⟩
    · rw [if_neg two]
      exact ⟨line, _, _, others, isLine, rfl, flattenAll_block .., isLength⟩

/-- A scalar on one line that is no expression is one token, from mark to mark. -/
private theorem map_length_of_plain (made : r.outlined = .ok found) (plain : r.isExpression = false)
    (oneLine : r.start.line = r.stop.line) :
    r.places = [r.start.position] ∧ r.tokens.map (·.length) = [(r.stop.column : Int) - r.start.column] := by
  rw [tokens_eq made, places, plain]
  rw [outlined, plain] at made
  obtain ⟨first, others, ⟨length, _, _, hlength, _, _, rfl⟩, _, rfl⟩ := Page.scalar_eq_ok made
  obtain ⟨-, rfl⟩ := (Page.firstLength_eq_ok hlength).resolve_right fun h => h.1 oneLine
  have more : r.stop.line - r.start.line - 1 = 0 := by omega
  rw [if_pos more, more]
  exact ⟨rfl, rfl⟩

/-- The tokens of a scalar that stands within the lines of its file lie inside the texts of their lines exactly if the
scalar is on one line and does not run over it. -/
theorem fits_iff (made : r.outlined = .ok found) (within : r.stop.Within r.page.lines)
    (ordered : r.start.line ≤ r.stop.line) :
    (∀ t ∈ r.places.zip (r.tokens.map (·.length)), r.page.Fits t.1 t.2) ↔ r.Inline := by
  rw [Inline]
  by_cases oneLine : r.start.line = r.stop.line
  · cases isExpression : r.isExpression with
    | true =>
      have lengths := Page.map_length_lineExpression (lineExpression_of_outlined isExpression oneLine made)
      rw [lengths, places, if_pos isExpression, if_pos oneLine, List.zip_map', List.forall_mem_map]
      simp only [oneLine, true_and, forall_const]
      exact forall₂_congr fun s _ => Page.fits_add_iff
    | false =>
      obtain ⟨place, length⟩ := map_length_of_plain made isExpression oneLine
      rw [place, length]
      refine iff_of_true (List.forall_mem_singleton.2 ?_) ⟨oneLine, fun h => by cases h⟩
      have column := within.column
      rw [← oneLine] at column
      refine ⟨Int.natCast_nonneg _, Int.natCast_nonneg _, ?_⟩
      rw [Mark.position, Page.content]
      dsimp only
      rw [Int.toNat_natCast]
      omega
  · refine iff_of_false (fun fits => ?_) fun inside => oneLine inside.1
    obtain ⟨line, places, t, tokens, isLine, isPlaces, isTokens, length⟩ := exists_first made oneLine
    rw [isPlaces, isTokens, List.map_cons, List.zip_cons_cons] at fits
    -- the break of the first line would have to be inside its text
    obtain ⟨line', isLine', ended⟩ := within.ended r.start.line (by omega)
    obtain rfl := Option.some.inj (isLine.symm.trans isLine')
    obtain ⟨-, -, inside⟩ := fits _ List.mem_cons_self
    rw [length, Mark.position, Page.content] at inside
    dsimp only at inside
    rw [Int.toNat_natCast, isLine, Option.getD_some] at inside
    rw [Yaml.IsEnded] at ended
    omega

/-- The expression stands in its line as it is: nothing in it is escaped, no equals sign is in the tag or the anchor
before it, and no byte order mark moves the columns. -/
def Verbatim (source : String) (r : ScalarReading) : Prop :=
  ∃ line heading t style, r.page.lines[r.start.line]? = some line ∧
    Origin (TokenStream.ofText source.toList).tokens r.text r.start r.stop heading t ∧
    t.lexeme = .scalar r.text style ∧ '\ufeff' ∉ line ∧ '=' ∉ between line r.start.column t.start.column ∧
    isVerbatim style (between line t.start.column t.stop.column) = true

/-- The tokens of an expression that stands in its line as it is end in the expression. -/
theorem Verbatim.ends {source : String} (h : r.Verbatim source) (isScalar : Yaml.IsScalarOf source.toList r.source)
    (onPage : r.page.lines = (Text.lines source true).map String.toList) (expression : r.isExpression = true)
    (oneLine : r.start.line = r.stop.line) {s : Nat × List Char} (mem : s ∈ Expression.spans r.text.toList) :
    r.page.equalsColumn r.start + s.1 + s.2.length ≤ r.stop.column := by
  obtain ⟨line, heading, t, style, isLine, isOrigin, isStyle, noMark, noSign, verbatim⟩ := h
  have isSign := head_of_isExpression expression
  obtain ⟨before, head, after, rest, isText, starts, stops, first⟩ :=
    isOrigin.exists_stands isScalar.hasOrigin.1 oneLine isSign (onPage ▸ isLine) isStyle noMark noSign verbatim
  have split : line.drop r.start.column = head ++ (r.text.toList ++ (after ++ rest)) := by
    rw [isText, ← starts, List.append_assoc, List.drop_left]
    simp
  have column : r.page.equalsColumn r.start = r.start.column + head.length := by
    cases isChars : r.text.toList with
    | nil =>
      rw [isChars] at isSign
      cases isSign
    | cons a text =>
      rw [isChars] at isSign split
      obtain rfl := Option.some.inj isSign
      exact Page.equalsColumn_eq isLine split first
  have upto := Expression.add_length_le_of_mem_spans mem
  have ends : r.start.column + head.length + r.text.toList.length ≤ r.stop.column := by
    rw [← stops, ← starts]
    simp only [List.length_append]
    omega
  omega

/-- An expression that stands in its line as it is does not run over it. -/
private theorem Verbatim.inline {source : String} (h : r.Verbatim source)
    (isScalar : Yaml.IsScalarOf source.toList r.source)
    (onPage : r.page.lines = (Text.lines source true).map String.toList) (within : r.stop.Within r.page.lines)
    (expression : r.isExpression = true) (oneLine : r.start.line = r.stop.line) : r.Inline := by
  refine ⟨oneLine, fun _ s mem => ?_⟩
  have ends := h.ends isScalar onPage expression oneLine mem
  have inside := within.column
  rw [← oneLine] at inside
  rw [Page.content]
  omega

end ScalarReading

/-- The tokens of a manifest as a decoder finds them, from the last token before: where each is and how long. -/
def Manifest.shown (last : Position) (manifest : Manifest) : List (Position × Int) :=
  let tokens := Outline.flattenAll manifest.anchor.parts
  (decodeDeltas last (tokens.map (·.delta))).zip (tokens.map (·.length))

/-- The scalars of a document stand in its text one after the other, and no key is an expression.  If all scalars are
on one line and no expression runs over its line, then each token lies, where the distances lead, inside the text of
its line; and if no key has further lines, only then.  An expression that stands in its line as it is does not run over
it. -/
theorem fits_iff_inline {source : String} {kinds : List (String × Slot)} {state next : FileReading}
    {document : Yaml.Document} {root : Node} {value : Value} {S T : Schema} {manifest : Manifest}
    (read : (readDocument (.ofText source true) kinds state document).runFrom S = (.ok (some manifest, next), T))
    (isDocument : document ∈ (Yaml.DocumentStream.ofText source.toList).documents)
    (isRoot : Yaml.valueOf source.toList document.root = .ok (root, value))
    (order : InOrder state.last root.scalars) :
    ∃ page slot pieces, Reads page (.root slot root) S state.last pieces (manifest.anchor.parts, next.last) T ∧
      page.lines = Text.keptLines source.toList ∧ (scalarsOf pieces).map ScalarReading.source = root.scalars ∧
      (∀ r ∈ scalarsOf pieces, r.isExpression = true → r.start.line = r.stop.line → r.Verbatim source → r.Inline) ∧
      ((∀ r ∈ scalarsOf pieces, r.isKey = true → r.isExpression = false) →
        ((∀ r ∈ scalarsOf pieces, r.Inline) → ∀ t ∈ manifest.shown state.last, page.Fits t.1 t.2) ∧
        ((∀ s ∈ root.scalars, s.isKey = true → s.stop.line ≤ s.start.line + 1) →
          (∀ t ∈ manifest.shown state.last, page.Fits t.1 t.2) → ∀ r ∈ scalarsOf pieces, r.Inline)) := by
  obtain ⟨root', _, page, slot, pieces, isRoot', isPage, _, reads⟩ := exists_reads_of_readDocument read
  obtain ⟨rfl, -⟩ := Prod.mk.inj (Except.ok.inj (isRoot.symm.trans isRoot'))
  have sources : (scalarsOf pieces).map ScalarReading.source = root.scalars := reads.map_source_scalarsOf
  have onPage : page.lines = (Text.lines source true).map String.toList := by rw [isPage]; rfl
  have kept : page.lines = Text.keptLines source.toList := by
    rw [onPage, Text.lines, List.map_map]
    simp
  have isScalar : ∀ r ∈ scalarsOf pieces, Yaml.IsScalarOf source.toList r.source := fun r hr =>
    ⟨document, isDocument, root, value, isRoot, sources ▸ List.mem_map_of_mem hr⟩
  have within : ∀ r ∈ scalarsOf pieces, r.stop.Within r.page.lines := by
    intro r hr
    rw [reads.forall_page r hr, kept]
    exact (isScalar r hr).within.2
  refine ⟨page, slot, pieces, reads, kept, sources, ?_, ?_⟩
  · intro r hr expression oneLine verbatim
    exact verbatim.inline (isScalar r hr) (reads.forall_page r hr ▸ onPage) (within r hr) expression oneLine
  · intro plain
    -- if keys have no further lines, the tokens are those of the scalars, each with its place and length
    have fits (lines : ∀ s ∈ root.scalars, s.isKey = true → s.stop.line ≤ s.start.line + 1) :
        (∀ t ∈ manifest.shown state.last, page.Fits t.1 t.2) ↔ ∀ r ∈ scalarsOf pieces, r.Inline := by
      obtain ⟨isTokens, decoded, lengths⟩ := reads.decodes order fun r hr isKey =>
        ⟨lines r.source (sources ▸ List.mem_map_of_mem hr) isKey, plain r hr isKey⟩
      have isShown : manifest.shown state.last =
          (scalarsOf pieces).flatMap fun r => r.places.zip (r.tokens.map (·.length)) := by
        rw [Manifest.shown, decoded, isTokens, List.map_flatMap]
        exact zip_flatMap fun r hr => by rw [List.length_map, lengths r hr]
      rw [isShown, List.forall_mem_flatMap]
      refine forall₂_congr fun r hr => ?_
      obtain ⟨found, made⟩ := reads.handedOn.exists_outlined r hr
      rw [← reads.forall_page r hr]
      exact ScalarReading.fits_iff made (within r hr) (order.line_le r.source (sources ▸ List.mem_map_of_mem hr))
    refine ⟨fun inline => (fits ?_).2 inline, fun lines => (fits lines).1⟩
    intro s hs isKey
    rw [← sources, List.mem_map] at hs
    obtain ⟨r, hr, rfl⟩ := hs
    exact (inline r hr).1 ▸ Nat.le_succ _

/-- A document with a sequence and an anchor, of which all scalars are on one line. -/
private def inlined : String := "a: 'x'\nb: &n '=1 + c'\r\nd:\n- e\n"

private def inlinedScalars : List ScalarNode :=
  [ ⟨true, "a", ⟨0, 0, 0⟩, ⟨1, 0, 1⟩⟩, ⟨false, "x", ⟨3, 0, 3⟩, ⟨6, 0, 6⟩⟩, ⟨true, "b", ⟨7, 1, 0⟩, ⟨8, 1, 1⟩⟩,
    ⟨false, "=1 + c", ⟨10, 1, 3⟩, ⟨21, 1, 14⟩⟩, ⟨true, "d", ⟨23, 2, 0⟩, ⟨24, 2, 1⟩⟩,
    ⟨false, "e", ⟨28, 3, 2⟩, ⟨29, 3, 3⟩⟩ ]

theorem fits_inlined :
    ∃ manifest next T, firstReading inlined = (.ok (some manifest, next), T) ∧
      ∀ t ∈ manifest.shown .origin, Page.Fits ⟨Text.keptLines inlined.toList, .origin⟩ t.1 t.2 := by
  have order : InOrder .origin inlinedScalars := by decide +kernel
  have heads : ∀ s ∈ inlinedScalars, s.isKey = true → s.text.toList.head? ≠ some '=' := by decide +kernel
  have inline : ∀ s ∈ inlinedScalars, s.start.line = s.stop.line ∧ (s.text.toList.head? = some '=' →
      ∀ p ∈ Expression.spans s.text.toList,
        Page.equalsColumn ⟨Text.keptLines inlined.toList, .origin⟩ s.start + p.1 + p.2.length ≤
          (Page.content ⟨Text.keptLines inlined.toList, .origin⟩ s.start.line).length) := by
    decide +kernel
  have isDocument : firstDocument inlined ∈ (Yaml.DocumentStream.ofText inlined.toList).documents :=
    firstDocument_mem (by decide +kernel)
  have isScalars : firstScalars inlined = some inlinedScalars := by decide +kernel
  obtain ⟨⟨root, value⟩, isRoot, isScalars⟩ := Option.map_eq_some_iff.1 isScalars
  obtain ⟨manifest, next, T, read⟩ := exists_manifest_of_isSome (r := firstReading inlined) (by decide +kernel)
  obtain ⟨page, slot, pieces, reads, lines, sources, _, fits⟩ :=
    fits_iff_inline read isDocument (except_eq_ok_of_toOption isRoot) (isScalars ▸ order)
  have mem : ∀ r ∈ scalarsOf pieces, r.source ∈ inlinedScalars := fun r hr =>
    isScalars ▸ sources ▸ List.mem_map_of_mem hr
  obtain ⟨inside, _⟩ := fits fun r hr isKey =>
    ScalarReading.isExpression_eq_false (heads r.source (mem r hr) isKey)
  refine ⟨manifest, next, T, read, ?_⟩
  rw [← lines]
  refine inside fun r hr => ?_
  obtain ⟨oneLine, upto⟩ := inline r.source (mem r hr)
  refine ⟨oneLine, fun expression => ?_⟩
  rw [← lines] at upto
  rw [reads.forall_page r hr]
  exact upto (ScalarReading.head_of_isExpression expression)

/-- A scalar on three lines: its first token takes the break with it. -/
private def headed : String := "a: |\n  x\n  y\n"

/-- An expression of which the equals sign is escaped: its tokens are laid over the comment. -/
private def commented : String := "a: \"\\x3d1 + 2\" # =\n"

/-- Tokens that run over their lines. -/
theorem not_fits_headed :
    ((firstReading headed).1.toOption.bind (·.1)).map (Manifest.shown .origin) =
        some [(⟨0, 0⟩, 1), (⟨0, 3⟩, 2), (⟨1, 2⟩, 1), (⟨2, 2⟩, 1)] ∧
      (firstScalars headed).any (InOrder .origin) = true ∧
      ¬Page.Fits ⟨Text.keptLines headed.toList, .origin⟩ ⟨0, 3⟩ 2 ∧
    ((firstReading commented).1.toOption.bind (·.1)).map (Manifest.shown .origin) =
        some [(⟨0, 0⟩, 1), (⟨0, 17⟩, 1), (⟨0, 18⟩, 1), (⟨0, 20⟩, 1), (⟨0, 22⟩, 1)] ∧
      (firstScalars commented).any (InOrder .origin) = true ∧
      ¬Page.Fits ⟨Text.keptLines commented.toList, .origin⟩ ⟨0, 20⟩ 1 := by
  decide +kernel

end ManifestLens
