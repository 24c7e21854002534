import ManifestLens.Proofs.Expression.Lossless
import ManifestLens.Proofs.Manifest.Pointing

/-!
# The lines that the tokens of an expression cover

An expression on several lines has a token for the mark before it, and its other tokens are those of the lines between
its start and its stop.  They cover each character of these lines once that is not blank
(`Page.tokenises_blockExpression`).  These are the lines of the expression only if it starts on the line of its block
mark, and its last line is blank if no break ends it (`tokenises_content_iff`).
-/

namespace ManifestLens

open Yaml (Mark Origin ScalarStyle TokenStream squeeze)
open Text (isBlank allBlank)

variable {tokens : List Token} {first first' k n stop' : Nat} {line text : List Char}

/-! ### Spans over characters -/

namespace Expression

private theorem not_allBlank {c : Char} (hc : text[k]? = some c) (written : isBlank c = false) :
    ¬allBlank text = true := by
  intro blank
  have := List.all_eq_true.1 blank c (List.mem_of_getElem? hc)
  rw [written] at this
  cases this

/-- A span holds a column. -/
def holds (k : Nat) (s : Nat × List Char) : Bool :=
  s.1 ≤ k && k < s.1 + s.2.length

/-- A character that is not blank stands in one span. -/
private theorem Tiles.countP_holds {whole : List Char} {spans : List (Nat × List Char)} (h : Tiles n whole spans)
    {c : Char} (hc : whole[k]? = some c) (written : isBlank c = false) : spans.countP (holds (n + k)) = 1 := by
  induction h generalizing k with
  | blank isGap => exact absurd isGap (not_allBlank hc written)
  | @span n gap text rest spans isGap some others ih =>
    have after := others.text_of_mem
    by_cases inGap : k < gap.length
    · rw [List.getElem?_append_left inGap] at hc
      exact absurd isGap (not_allBlank hc written)
    · by_cases inText : k < gap.length + text.length
      · -- the spans after this one start after the character
        have none : spans.countP (holds (n + k)) = 0 := by
          refine List.countP_eq_zero.2 fun s mem held => ?_
          have := (after s mem).1
          simp only [holds, Bool.and_eq_true, decide_eq_true_eq] at held
          omega
        have here : holds (n + k) (n + gap.length, text) = true := by
          simp only [holds, Bool.and_eq_true, decide_eq_true_eq]
          omega
        rw [List.countP_cons_of_pos here, none]
      · rw [List.getElem?_append_right (by omega), List.getElem?_append_right (by omega)] at hc
        have further := ih hc
        have same : n + gap.length + text.length + (k - gap.length - text.length) = n + k := by omega
        have notHere : ¬holds (n + k) (n + gap.length, text) = true := by
          simp only [holds, Bool.and_eq_true, decide_eq_true_eq]
          omega
        rw [List.countP_cons_of_neg notHere, ← further, same]

/-- The spans of lines that hold a column of a line are those of the line. -/
private theorem countP_spansOfLines (p : Nat × List Char → Bool) {texts : List (List Char)}
    (isLine : texts[n]? = some text) :
    (spansOfLines texts).countP (fun m => m.1 == n && p m.2) = (spans text).countP p := by
  induction texts generalizing n with
  | nil => cases isLine
  | cons first rest ih =>
    rw [spansOfLines, List.countP_append, List.countP_map, List.countP_map]
    cases n with
    | zero =>
      cases isLine
      simp [Function.comp_def]
    | succ n =>
      rw [List.getElem?_cons_succ] at isLine
      rw [← ih isLine]
      simp [Function.comp_def]

end Expression

/-! ### The tokens of an expression on several lines -/

namespace Page

variable {page : Page} {start stop : Mark} {last : Position}

/-- A token covers a character of a line. -/
def covers (page : Page) (n k : Nat) (t : Token) : Bool :=
  let place := t.place.absolute page.anchor 0
  place.line == n && place.character ≤ k && k < place.character + t.length

/-- The tokens inside an expression on several lines are placed where their texts stand, and are as long as they. -/
private theorem map_span_blockExpression {modifiers : Option (List Modifier)} {remark : Option Remark}
    (h : page.blockExpression start stop last modifiers remark = .ok tokens) :
    tokens.tail.map (fun t => (t.place.absolute page.anchor 0, t.length)) =
      (Expression.spansOfLines (page.inside start stop)).map fun m =>
        (⟨start.line + 1 + m.1, m.2.1⟩, (m.2.2.length : Int)) := by
  obtain ⟨line, lexed, _, hlexed, rfl⟩ := blockExpression_eq_ok h
  rw [List.tail_cons, Expression.map_classify _ _
    (fun t => (⟨start.line + t.place.line, t.place.character⟩, (t.text.length : Int)))]
  · have placed := congrArg (List.map fun p : Position × List Char =>
      ((⟨start.line + p.1.line, p.1.character⟩ : Position), (p.2.length : Int)))
      (Expression.map_place_text_tokensFrom hlexed)
    rw [List.map_map, List.map_map] at placed
    refine placed.trans (List.map_congr_left fun m _ => ?_)
    have unmoved : Expression.shift (page.inside start stop) 0 0 m.1 = 0 := by simp [Expression.shift]
    simp only [Function.comp_apply, unmoved, Int.zero_add, Int.add_assoc]
  · intro t kind remark
    simp only [Position.absolute, Expression.Token.highlight, Position.relativeTo, Mark.position, Prod.mk.injEq,
      Position.mk.injEq, Int.add_zero, and_true]
    omega

/-- A token stands in a line, which is not blank. -/
def Holds (page : Page) (n : Nat) (t : Token) : Prop :=
  ∃ (k : Nat) (line : List Char), page.lines[n]? = some line ∧ ¬allBlank line = true ∧
    t.place.absolute page.anchor 0 = ⟨n, k⟩ ∧ 0 < t.length ∧ k + t.length ≤ line.length

/-- From one line up to another, the tokens cover each character once that is not blank, and each token stands in one of
these lines. -/
structure Tokenises (page : Page) (tokens : List Token) (first stop : Nat) : Prop where
  once : ∀ (n k : Nat) (text : List Char) (c : Char), first ≤ n → n < stop → page.lines[n]? = some text →
    text[k]? = some c → isBlank c = false → tokens.countP (page.covers n k) = 1
  inside : ∀ t ∈ tokens, ∃ n, first ≤ n ∧ n < stop ∧ page.Holds n t

private theorem getElem?_inside (page : Page) (start stop : Mark) (n : Nat) :
    (page.inside start stop)[n]? =
      if start.line + 1 + n < stop.line then page.lines[start.line + 1 + n]? else none := by
  rw [inside, List.getElem?_take, List.getElem?_drop]
  congr 1
  simp only [eq_iff_iff]
  omega

/-- The tokens inside an expression on several lines cover the lines between its start and its stop. -/
theorem tokenises_blockExpression {modifiers : Option (List Modifier)} {remark : Option Remark}
    (h : page.blockExpression start stop last modifiers remark = .ok tokens) :
    page.Tokenises tokens.tail (start.line + 1) stop.line := by
  have spans := map_span_blockExpression h
  obtain ⟨_, lexed, _, hlexed, rfl⟩ := blockExpression_eq_ok h
  have tiled := Expression.tiles_of_tokensFrom hlexed
  constructor
  · intro n k line c first inStop isLine isChar written
    obtain ⟨i, rfl⟩ : ∃ i, n = start.line + 1 + i := ⟨n - (start.line + 1), by omega⟩
    have isInside : (page.inside start stop)[i]? = some line := by
      rw [getElem?_inside, if_pos inStop, isLine]
    have counted := congrArg (List.countP fun p : Position × Int =>
      p.1.line == ((start.line + 1 + i : Nat) : Int) && p.1.character ≤ k && k < p.1.character + p.2) spans
    rw [List.countP_map, List.countP_map] at counted
    have once := (tiled line (List.mem_of_getElem? isInside)).countP_holds isChar written
    rw [← Expression.countP_spansOfLines _ isInside] at once
    refine counted.trans (Eq.trans (List.countP_congr fun m _ => ?_) once)
    simp only [Function.comp_apply, Expression.holds, Bool.and_eq_true, beq_iff_eq, decide_eq_true_eq]
    omega
  · intro t mem
    have own := List.mem_map_of_mem (f := fun t => (t.place.absolute page.anchor 0, t.length)) mem
    rw [spans] at own
    obtain ⟨⟨i, k, piece⟩, isSpan, same⟩ := List.mem_map.1 own
    obtain ⟨line, isInside, isSpan⟩ := Expression.mem_spansOfLines_iff.1 isSpan
    obtain ⟨_, nonempty, stands⟩ := (tiled line (List.mem_of_getElem? isInside)).text_of_mem _ isSpan
    rw [getElem?_inside] at isInside
    split at isInside
    · next inStop =>
      obtain ⟨place, length⟩ := Prod.mk.inj same
      have fits := stands.length_le
      have some := List.length_pos_iff.2 nonempty
      rw [List.length_drop] at fits
      dsimp only at place length fits some
      refine ⟨start.line + 1 + i, by omega, inStop, k, line, isInside, fun blank => ?_, ?_, by omega, by omega⟩
      · rw [Expression.spans_of_allBlank blank] at isSpan
        cases isSpan
      · rw [← place]
        rfl
    · cases isInside

/-- A line that is not blank is among any lines that the tokens cover. -/
private theorem Tokenises.within {stop : Nat} (h : page.Tokenises tokens first stop)
    (h' : page.Tokenises tokens first' stop') (isLine : page.lines[n]? = some line) (notBlank : ¬allBlank line = true)
    (among : first ≤ n ∧ n < stop) :
    first' ≤ n ∧ n < stop' := by
  obtain ⟨c, mem, written⟩ := List.all_eq_false.1 (Bool.eq_false_iff.2 notBlank)
  obtain ⟨k, isChar⟩ := List.getElem?_of_mem mem
  have once := h.once n k line c among.1 among.2 isLine isChar (Bool.eq_false_iff.2 written)
  obtain ⟨t, mem, covers⟩ := List.countP_pos_iff.1 (by omega : 0 < tokens.countP (page.covers n k))
  obtain ⟨m, lower, upper, _, _, _, _, place, _⟩ := h'.inside t mem
  simp only [Page.covers, place, Bool.and_eq_true, beq_iff_eq] at covers
  omega

/-- Tokens that cover some lines cover others as well exactly if these differ from them by blank lines only. -/
private theorem Tokenises.iff {stop : Nat} (h : page.Tokenises tokens first stop) :
    page.Tokenises tokens first' stop' ↔ ∀ n line, page.lines[n]? = some line →
      (first ≤ n ∧ n < stop ↔ first' ≤ n ∧ n < stop') ∨ allBlank line = true := by
  constructor
  · intro h' n line isLine
    by_cases blank : allBlank line = true
    · exact .inr blank
    · exact .inl ⟨h.within h' isLine blank, h'.within h isLine blank⟩
  · intro differ
    constructor
    · intro n k line c lower upper isLine isChar written
      rcases differ n line isLine with same | blank
      · obtain ⟨lower, upper⟩ := same.2 ⟨lower, upper⟩
        exact h.once n k line c lower upper isLine isChar written
      · exact absurd blank (Expression.not_allBlank isChar written)
    · intro t mem
      obtain ⟨n, lower, upper, holds⟩ := h.inside t mem
      have ⟨_, line, isLine, notBlank, _⟩ := holds
      obtain ⟨lower, upper⟩ := ((differ n line isLine).resolve_right notBlank).1 ⟨lower, upper⟩
      exact ⟨n, lower, upper, holds⟩

end Page

/-! ### The lines of an expression -/

private theorem allBlank_iff_squeeze : allBlank line = true ↔ squeeze line = [] := by
  simp [allBlank, squeeze]

/-- An expression on several lines has a token at its start, and its other tokens cover the lines between its start and
its stop. -/
private theorem ScalarReading.exists_tokens {r : ScalarReading} {found : Outlined} (expression : r.isExpression = true)
    (several : r.start.line ≠ r.stop.line) (made : r.outlined = .ok found) :
    ∃ header tokens, r.tokens = header :: tokens ∧ header.place = r.start.position.relativeTo r.page.anchor ∧
      r.page.Tokenises tokens (r.start.line + 1) r.stop.line := by
  have isTokens := tokens_eq made
  rw [outlined, if_pos expression] at made
  obtain ⟨tokens, last, madeBlock, _, rfl⟩ := Page.expression_eq_ok made
  rw [if_neg several] at madeBlock
  have covers := Page.tokenises_blockExpression madeBlock
  obtain ⟨line, lexed, _, _, rfl⟩ := Page.blockExpression_eq_ok madeBlock
  rw [flattenAll_block] at isTokens
  exact ⟨_, _, isTokens, rfl, covers⟩

/-- The lines between a start and the stop of a block scalar differ from the lines of the scalar by blank lines only,
exactly if the start is on the line of its mark, and the line of the stop is blank if it is one of its lines. -/
private theorem Yaml.SplitAt.differ_iff {lines : List (List Char)} {start mark stop : Mark}
    {above content below : List (List Char)} (h : SplitAt lines text mark stop above content below)
    (starts : start.line ≤ mark.line) (stops : mark.line < stop.line) :
    (∀ n line, lines[n]? = some line → (start.line + 1 ≤ n ∧ n < stop.line ↔
        above.length ≤ n ∧ n < above.length + content.length) ∨ allBlank line = true) ↔
      mark.line = start.line ∧ (0 < stop.column → ∀ line, lines[stop.line]? = some line → allBlank line = true) := by
  have isEnd : contentEnd stop = if 0 < stop.column then stop.line + 1 else stop.line := rfl
  rw [h.last, h.first]
  constructor
  · intro differ
    refine ⟨?_, fun column line isLine => ?_⟩
    · -- the line of the mark is not blank, and not one of the scalar
      obtain ⟨line, isLine, written⟩ := h.header
      have inLines : lines[mark.line]? = some line := by
        rw [h.split, List.append_assoc, List.getElem?_append_left (by rw [h.first]; omega), isLine]
      have := (differ mark.line line inLines).resolve_right fun blank => written (allBlank_iff_squeeze.1 blank)
      omega
    · rw [if_pos column] at isEnd
      refine (differ stop.line line isLine).resolve_left fun same => ?_
      omega
  · rintro ⟨sameLine, blank⟩ n line isLine
    by_cases column : 0 < stop.column
    · rw [if_pos column] at isEnd
      by_cases last : n = stop.line
      · exact .inr (blank column line (last ▸ isLine))
      · exact .inl (by omega)
    · rw [if_neg column] at isEnd
      exact .inl (by omega)

/-- An expression in a block scalar has a token at its start, and its other tokens cover the lines between its start and
its stop.  Its own lines are those below the block mark up to its stop.  The tokens cover just these exactly if the
expression starts on the line of its block mark, so with no tag or anchor on a line above, and nothing is written on its
last line, if no break ends it. -/
theorem tokenises_content_iff {source : String} {keepBreaks : Bool} {r : ScalarReading} {heading : List Yaml.Token}
    {t : Yaml.Token} {style : ScalarStyle} {found : Outlined} (isScalar : Yaml.IsScalarOf source.toList r.source)
    (onPage : r.page.lines = (Text.lines source keepBreaks).map String.toList)
    (origin : Origin (TokenStream.ofText source.toList).tokens r.text r.start r.stop heading t)
    (isStyle : t.lexeme = .scalar r.text style) (isBlock : style = .literal ∨ style = .folded)
    (expression : r.isExpression = true) (made : r.outlined = .ok found) :
    ∃ header tokens above content below, r.tokens = header :: tokens ∧
      header.place = r.start.position.relativeTo r.page.anchor ∧
      Yaml.SplitAt r.page.lines r.text.toList t.start r.stop above content below ∧
      r.page.Tokenises tokens (r.start.line + 1) r.stop.line ∧
      (r.page.Tokenises tokens above.length (above.length + content.length) ↔
        t.start.line = r.start.line ∧
          (0 < r.stop.column → ∀ line, r.page.lines[r.stop.line]? = some line → allBlank line = true)) := by
  obtain ⟨allowed, -⟩ := isScalar.hasOrigin
  have notBlank := squeeze_ne_nil (ScalarReading.head_of_isExpression expression)
  obtain ⟨starts, stops, above, content, below, split⟩ :=
    origin.exists_content allowed isStyle isBlock notBlank keepBreaks
  rw [← onPage] at split
  obtain ⟨header, tokens, isTokens, place, covers⟩ := ScalarReading.exists_tokens expression (by omega) made
  refine ⟨header, tokens, above, content, below, isTokens, place, split, covers, ?_⟩
  rw [covers.iff]
  exact split.differ_iff starts stops

/-- An expression on three lines, one of them empty, before another key. -/
def threeLines : ScalarReading :=
  readingOf "a: |\n  =x +\n\n    'y'\nb: 1\n" "=x +\n\n  'y'\n" ⟨3, 0, 3⟩ ⟨21, 4, 0⟩

theorem tokenises_threeLines :
    ∃ header tokens, threeLines.tokens = header :: tokens ∧ threeLines.page.Tokenises tokens 1 4 := by
  have isScalar : Yaml.IsScalarOf "a: |\n  =x +\n\n    'y'\nb: 1\n".toList threeLines.source := by decide +kernel
  have origin : Origin (TokenStream.ofText "a: |\n  =x +\n\n    'y'\nb: 1\n".toList).tokens threeLines.text
      threeLines.start threeLines.stop [] ⟨.scalar "=x +\n\n  'y'\n" .literal, ⟨3, 0, 3⟩, ⟨21, 4, 0⟩⟩ :=
    ⟨by decide +kernel, by simp, ⟨.literal, rfl⟩, rfl, rfl⟩
  have outlined : threeLines.outlined.toOption.isSome = true := by decide +kernel
  obtain ⟨found, made⟩ := Option.isSome_iff_exists.1 outlined
  obtain ⟨header, tokens, above, content, below, isTokens, _, split, _, covers⟩ :=
    tokenises_content_iff isScalar rfl origin rfl (.inl rfl) (by decide +kernel) (except_eq_ok_of_toOption made)
  have first : above.length = 1 := split.first
  have last : above.length + content.length = 4 := split.last
  rw [last, first] at covers
  refine ⟨header, tokens, isTokens, covers.2 ⟨rfl, fun column => ?_⟩⟩
  exact absurd column (by decide)

/-- An expression whose last line ends the file without a break. -/
def unended : ScalarReading :=
  readingOf "a: |\n  =1 +\n  2" "=1 +\n2" ⟨3, 0, 3⟩ ⟨15, 2, 3⟩

/-- No token covers the last line of an expression that ends the file without a break. -/
theorem not_tokenises_unended :
    Yaml.IsScalarOf "a: |\n  =1 +\n  2".toList unended.source ∧ unended.isExpression = true ∧
      unended.outlined.toOption.isSome = true ∧
      Origin (TokenStream.ofText "a: |\n  =1 +\n  2".toList).tokens unended.text unended.start unended.stop []
        ⟨.scalar "=1 +\n2" .literal, unended.start, unended.stop⟩ ∧
      ¬unended.page.Tokenises unended.tokens.tail (unended.start.line + 1) (Yaml.contentEnd unended.stop) := by
  refine ⟨by decide +kernel, by decide +kernel, by decide +kernel,
    ⟨by decide +kernel, by simp, ⟨.literal, rfl⟩, rfl, rfl⟩, fun h => ?_⟩
  have once := h.once 2 2 "  2".toList '2' (by decide) (by decide) (by decide +kernel) (by decide +kernel) (by decide)
  revert once
  decide +kernel

end ManifestLens
