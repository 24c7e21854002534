import ManifestLens.Proofs.Expression.Spans
import ManifestLens.Proofs.Manifest.Run
import ManifestLens.Proofs.Outline.Preorder

/-!
# The tokens of a scalar and their places

A scalar stands in the text at places that can be told without its tokens: at its start mark and at the first
character of each further line, or, for an expression, where the texts of its tokens stand.  A decoder that is in step
with the position that was handed to the scalar is led to these places by the scalar's tokens, and is in step with the
position that the scalar hands on (`ScalarReading.decodes`).
-/

namespace ManifestLens

open Yaml (Mark Node)

variable {page : Page} {m start stop : Mark} {b d last p q : Position} {found : Outlined} {r : ScalarReading}
  {remark : Option Remark} {modifiers : Option (List Modifier)}

/-! ### Positions in order -/

/-- Positions are ordered by line, then by character. -/
instance : LE Position where
  le p q := p.line < q.line ∨ p.line = q.line ∧ p.character ≤ q.character

theorem Position.le_def : p ≤ q ↔ p.line < q.line ∨ p.line = q.line ∧ p.character ≤ q.character :=
  Iff.rfl

instance (p q : Position) : Decidable (p ≤ q) :=
  decidable_of_iff _ Position.le_def.symm

theorem Position.line_le (h : p ≤ q) : p.line ≤ q.line := by
  rcases h with h | h <;> omega

/-- A decoder at `d` is in step with the position `p` that was handed on, when the text is read up to `b`: it is on the
same line, and at the same character unless the text goes on below that line. -/
structure InStep (d p b : Position) : Prop where
  line : d.line = p.line
  before : p.line ≤ b.line
  character : d.character = p.character ∨ p.line < b.line

theorem InStep.refl (p : Position) : InStep p p p :=
  ⟨rfl, Int.le_refl _, .inl rfl⟩

/-- A decoder in step is led to a mark by the distance from what was handed on. -/
private theorem InStep.advance_deltaTo (h : InStep d p b) (hm : b ≤ m.position) :
    d.advance (Page.deltaTo m p) = m.position := by
  obtain ⟨line, before, character⟩ := h
  have hb : b.line ≤ m.line := Position.line_le hm
  rw [Page.deltaTo, Position.advance, Mark.position]
  by_cases same : (m.line : Int) - p.line = 0
  · rw [if_pos same, if_neg (by omega), Position.mk.injEq]
    dsimp only
    omega
  · rw [if_neg same, if_pos (by omega), Position.mk.injEq]
    dsimp only
    omega

private theorem relativeTo_eq_deltaTo (m : Mark) (p : Position) : m.position.relativeTo p = Page.deltaTo m p := by
  rw [Position.relativeTo, Page.deltaTo, Mark.position]
  by_cases later : (m.line : Int) > p.line
  · rw [if_pos later, if_pos (Int.sub_pos.2 later)]
  · rw [if_neg later, if_neg fun h => later (Int.sub_pos.1 h)]

/-! ### Plain scalars -/

namespace Page

/-- How far a line is indented. -/
def indent (page : Page) (n : Nat) : Nat :=
  (((page.lines[n]?).getD []).takeWhile Text.isBlank).length

/-- The first characters of the lines from a line on that are not blanks. -/
def furtherPlaces (page : Page) (line count : Nat) : List Position :=
  (List.range' line count).map fun n : Nat => ⟨n, page.indent n⟩

/-- The first token of a scalar. -/
def firstToken (page : Page) (entry : Entry) (start : Mark) (last : Position) (length : Int)
    (localKey indexKey : Option String) (remark : Option Remark) : Token :=
  { delta := deltaTo start last
    place := start.position.relativeTo page.anchor
    length, localKey, indexKey
    kind := entry.kind
    modifiers := entry.modifiers
    remark }

theorem getElem?_of_line {n : Nat} {text : List Char} (h : page.line n = .ok text) : page.lines[n]? = some text := by
  rw [line] at h
  split at h
  · next found =>
    cases h
    exact found
  · cases h

/-- The first line of a scalar goes from mark to mark, or up to the end of the line. -/
theorem firstLength_eq_ok {length : Int} (h : page.firstLength start stop = .ok length) :
    start.line = stop.line ∧ length = stop.column - start.column ∨
      start.line ≠ stop.line ∧ ∃ text, page.lines[start.line]? = some text ∧ length = text.length - start.column := by
  rw [firstLength] at h
  by_cases single : start.line = stop.line
  · rw [if_pos (beq_iff_eq.2 single)] at h
    cases h
    exact .inl ⟨single, rfl⟩
  · rw [if_neg (fun same => single (beq_iff_eq.1 same))] at h
    cases isLine : page.line start.line with
    | error fault =>
      rw [isLine] at h
      cases h
    | ok text =>
      rw [isLine] at h
      cases h
      exact .inr ⟨single, text, getElem?_of_line isLine, rfl⟩

/-- What the outline of a scalar is made of. -/
theorem scalar_eq_ok {entry : Entry} {text : String} (h : page.scalar entry text start stop last remark = .ok found) :
    ∃ first others, (∃ length localKey indexKey, page.firstLength start stop = .ok length ∧
        ruledKey entry.localKey (.text text) = .ok localKey ∧ ruledKey entry.indexKey (.text text) = .ok indexKey ∧
        first = page.firstToken entry start last length localKey indexKey remark) ∧
      page.furtherTokens first (start.line + 1) (stop.line - start.line - 1) = .ok others ∧
      found = if stop.line - start.line - 1 = 0 then ([.token first none], start.position)
        else
          ([.block first.localKey first.indexKey (page.range start stop)
              (some ((first :: others).map fun t => .token t none))],
            ⟨start.line + (stop.line - start.line - 1 : Nat), 0⟩) := by
  rw [scalar] at h
  obtain ⟨length, hlength, h⟩ := except_bind_eq_ok_iff.1 h
  obtain ⟨localKey, hlocal, h⟩ := except_bind_eq_ok_iff.1 h
  obtain ⟨indexKey, hindex, h⟩ := except_bind_eq_ok_iff.1 h
  refine ⟨page.firstToken entry start last length localKey indexKey remark, ?_⟩
  generalize stop.line - start.line - 1 = more at h ⊢
  cases more with
  | zero =>
    cases h
    exact ⟨[], ⟨length, localKey, indexKey, hlength, hlocal, hindex, rfl⟩, rfl, rfl⟩
  | succ more =>
    obtain ⟨others, hothers, h⟩ := except_bind_eq_ok_iff.1 h
    cases h
    exact ⟨others, ⟨length, localKey, indexKey, hlength, hlocal, hindex, rfl⟩, hothers, rfl⟩

/-- A scalar that has tokens has an outline. -/
theorem scalar_of_tokens {entry : Entry} {text : String} {length : Int} {localKey indexKey : Option String}
    {others : List Token} (isLength : page.firstLength start stop = .ok length)
    (isLocal : ruledKey entry.localKey (.text text) = .ok localKey)
    (isIndex : ruledKey entry.indexKey (.text text) = .ok indexKey)
    (made : page.furtherTokens (page.firstToken entry start last length localKey indexKey remark) (start.line + 1)
      (stop.line - start.line - 1) = .ok others) :
    page.scalar entry text start stop last remark =
      .ok (if stop.line - start.line - 1 = 0 then
          ([.token (page.firstToken entry start last length localKey indexKey remark) none], start.position)
        else
          ([.block localKey indexKey (page.range start stop)
              (some ((page.firstToken entry start last length localKey indexKey remark :: others).map
                fun t => .token t none))],
            ⟨start.line + (stop.line - start.line - 1 : Nat), 0⟩)) := by
  rw [scalar]
  refine except_bind_eq_ok_iff.2 ⟨length, isLength, except_bind_eq_ok_iff.2 ⟨localKey, isLocal,
    except_bind_eq_ok_iff.2 ⟨indexKey, isIndex, ?_⟩⟩⟩
  generalize stop.line - start.line - 1 = more at made ⊢
  cases more with
  | zero => rfl
  | succ more => exact except_bind_eq_ok_iff.2 ⟨others, made, rfl⟩

/-- The token of a further line of a scalar. -/
def furtherToken (page : Page) (first : Token) (n : Nat) : Token :=
  let text := (page.lines[n]?).getD []
  { first with
    delta := ⟨1, (text.length : Int) - (Text.dropBlank text).length⟩
    place := Position.relativeTo ⟨n, 0⟩ page.anchor
    length := (Text.trimBlank text).length }

/-- There is a token for each of the further lines, if they are on the page. -/
theorem furtherTokens_eq_ok_iff {first : Token} {line count : Nat} {tokens : List Token} :
    page.furtherTokens first line count = .ok tokens ↔ (∀ n ∈ List.range' line count, n < page.lines.length) ∧
      tokens = (List.range' line count).map (page.furtherToken first) := by
  induction count generalizing line tokens with
  | zero => simp [furtherTokens, eq_comm]
  | succ count ih =>
    rw [furtherTokens, List.range'_succ, List.forall_mem_cons, List.map_cons, furtherToken]
    constructor
    · intro h
      obtain ⟨text, isLine, h⟩ := except_bind_eq_ok_iff.1 h
      obtain ⟨rest, made, h⟩ := except_bind_eq_ok_iff.1 h
      cases h
      obtain ⟨others, rfl⟩ := ih.1 made
      have isLine := getElem?_of_line isLine
      refine ⟨⟨(List.getElem?_eq_some_iff.1 isLine).1, others⟩, ?_⟩
      rw [isLine, Option.getD_some]
    · rintro ⟨⟨lt, others⟩, rfl⟩
      have isLine := List.getElem?_eq_getElem lt
      rw [Page.line, isLine]
      exact except_bind_eq_ok_iff.2 ⟨_, rfl, except_bind_eq_ok_iff.2 ⟨_, ih.2 ⟨others, rfl⟩, rfl⟩⟩

/-- The distances of further tokens lead to the first characters of their lines. -/
private theorem decodeDeltas_furtherTokens {first : Token} {line count : Nat} {tokens : List Token}
    (h : page.furtherTokens first line count = .ok tokens) (hd : d.line + 1 = line) :
    decodeDeltas d (tokens.map (·.delta)) = page.furtherPlaces line count := by
  obtain ⟨-, rfl⟩ := furtherTokens_eq_ok_iff.1 h
  clear h
  induction count generalizing d line with
  | zero => rfl
  | succ count ih =>
    have here : d.advance (page.furtherToken first line).delta = ⟨line, page.indent line⟩ := by
      have cut := congrArg List.length
        (List.takeWhile_append_dropWhile (p := Text.isBlank) (l := (page.lines[line]?).getD []))
      rw [List.length_append] at cut
      have indented : (page.furtherToken first line).delta = ⟨1, page.indent line⟩ := by
        rw [furtherToken, Position.mk.injEq, indent, Text.dropBlank]
        omega
      rw [indented, ← hd]
      rfl
    rw [List.range'_succ, List.map_cons, List.map_cons, decodeDeltas, here, ih (by simp), furtherPlaces, furtherPlaces,
      List.range'_succ, List.map_cons]

/-! ### Expressions -/

/-- The column of the first equals sign at or after a mark. -/
def equalsColumn (page : Page) (m : Mark) : Nat :=
  m.column + (((page.lines[m.line]?).getD []).drop m.column).idxOf '='

/-- The lines of an expression between its first line and its last. -/
def inside (page : Page) (start stop : Mark) : List (List Char) :=
  (page.lines.drop (start.line + 1)).take (stop.line - (start.line + 1))

/-- The token that stands for the mark before an expression on several lines. -/
def headerToken (page : Page) (start : Mark) (last : Position) (length : Int) (modifiers : Option (List Modifier))
    (remark : Option Remark) : Token :=
  { delta := start.position.relativeTo last
    place := start.position.relativeTo page.anchor
    length
    localKey := none, indexKey := none
    kind := .operator
    modifiers, remark }

/-- What the outline of an expression is made of. -/
theorem expression_eq_ok {text : String} (h : page.expression text start stop last modifiers remark = .ok found) :
    ∃ tokens t, (if start.line = stop.line then page.lineExpression text start last
        else page.blockExpression start stop last modifiers remark) = .ok tokens ∧
      tokens.getLast? = some t ∧
      found = ([.block none none (page.range start stop) (some (tokens.map fun t => .token t none))],
        t.place.absolute page.anchor 0) := by
  have same : (start.line == stop.line) = decide (start.line = stop.line) := rfl
  rw [expression, same] at h
  by_cases hl : start.line = stop.line
  all_goals
    simp only [hl, decide_true, decide_false, if_true, Bool.false_eq_true, if_false] at h ⊢
    obtain ⟨tokens, htokens, h⟩ := except_bind_eq_ok_iff.1 h
    split at h
    · cases h
    · next t ht =>
      cases h
      exact ⟨tokens, t, htokens, ht, rfl⟩

/-- An expression that has tokens has an outline. -/
theorem expression_of_tokens {text : String} {tokens : List Token}
    (made : (if start.line = stop.line then page.lineExpression text start last
      else page.blockExpression start stop last modifiers remark) = .ok tokens) (some : tokens ≠ []) :
    page.expression text start stop last modifiers remark =
      .ok ([.block none none (page.range start stop) (.some (tokens.map fun t => .token t none))],
        (tokens.getLast some).place.absolute page.anchor 0) := by
  have same : (start.line == stop.line) = decide (start.line = stop.line) := rfl
  rw [expression, same]
  by_cases hl : start.line = stop.line
  all_goals
    simp only [hl, decide_true, decide_false, if_true, Bool.false_eq_true, if_false] at made ⊢
    refine except_bind_eq_ok_iff.2 ⟨tokens, made, ?_⟩
    rw [List.getLast?_eq_some_getLast some]
    rfl

theorem highlighted_eq_ok {result : Except (List Char) (List Token)} {tokens : List Token}
    (h : highlighted result = .ok tokens) : result = .ok tokens := by
  cases result with
  | error rest => cases h
  | ok found => cases h; rfl

private theorem highlight_eq_ok {lines : List (List Char)} {origin line offset base : Int} {tokens : List Token}
    (h : Expression.highlight lines origin line offset base = .ok tokens) :
    ∃ lexed, Expression.tokensFrom line 0 offset base lines = .ok lexed ∧
      tokens = Expression.classify origin .none lexed := by
  rw [Expression.highlight, Expression.lex] at h
  cases hl : Expression.tokensFrom line 0 offset base lines with
  | error rest => rw [hl] at h; cases h
  | ok lexed => rw [hl] at h; cases h; exact ⟨lexed, rfl, rfl⟩

/-- The tokens of an expression on one line. -/
theorem lineExpression_eq_ok {text : String} {tokens : List Token}
    (h : page.lineExpression text start last = .ok tokens) :
    ∃ found offset, Expression.spans text.toList = Expression.spansFrom 0 found ∧
      offset = (if (start.line : Int) > last.line then (page.equalsColumn start : Int)
        else page.equalsColumn start - last.character) ∧
      tokens = Expression.classify (last.line - page.anchor.line) .none
        (Expression.lineTokens (start.line - last.line) (page.equalsColumn start - offset) ⟨0, 0⟩ offset found) := by
  rw [lineExpression] at h
  obtain ⟨line, hline, h⟩ := except_bind_eq_ok_iff.1 h
  split at h
  · cases h
  · next n hn =>
    have column : (start.column : Int) + n = page.equalsColumn start := by
      rw [equalsColumn, getElem?_of_line hline, Option.getD_some, List.idxOf,
        (List.findIdx?_eq_some_iff_findIdx_eq.1 hn).2]
      omega
    simp only [column] at h
    obtain ⟨lexed, hlexed, rfl⟩ := highlight_eq_ok (highlighted_eq_ok h)
    obtain ⟨found, hfound, rfl⟩ := Expression.tokensFrom_single hlexed
    exact ⟨found, _, hfound, rfl, rfl⟩

/-- The tokens of an expression on several lines. -/
theorem blockExpression_eq_ok {tokens : List Token}
    (h : page.blockExpression start stop last modifiers remark = .ok tokens) :
    ∃ line lexed, page.line start.line = .ok line ∧
      Expression.tokensFrom 1 0 0 0 (page.inside start stop) = .ok lexed ∧
      tokens = page.headerToken start last (line.length - start.column) modifiers remark ::
        Expression.classify (start.position.relativeTo page.anchor).line .none lexed := by
  rw [blockExpression] at h
  obtain ⟨line, hline, h⟩ := except_bind_eq_ok_iff.1 h
  obtain ⟨rest, hrest, h⟩ := except_bind_eq_ok_iff.1 h
  cases h
  obtain ⟨lexed, hlexed, rfl⟩ := highlight_eq_ok (highlighted_eq_ok hrest)
  exact ⟨line, lexed, hline, hlexed, rfl⟩

/-- A decoder in step counts the columns of a line from what was handed on. -/
private theorem aligned_of_inStep (h : InStep d p b) (hm : b ≤ m.position) :
    Expression.Aligned d ⟨0, 0⟩ (m.line - p.line) m.line (if (m.line : Int) > p.line then 0 else p.character) := by
  intro x
  obtain ⟨line, before, character⟩ := h
  have hb : b.line ≤ m.line := Position.line_le hm
  rw [Position.advance]
  by_cases later : (m.line : Int) > p.line
  · rw [if_neg (by dsimp only; omega), if_pos later, Position.mk.injEq]
    dsimp only
    omega
  · rw [if_pos (by dsimp only; omega), if_neg later, Position.mk.injEq]
    dsimp only
    omega

/-- The distances in an expression on one line lead to the spans of its text, from the equals sign on. -/
private theorem decodeDeltas_lineExpression {text : String} {tokens : List Token}
    (h : page.lineExpression text start last = .ok tokens) (step : InStep d last b) (after : b ≤ start.position) :
    decodeDeltas d (tokens.map (·.delta)) =
      (Expression.spans text.toList).map fun s => ⟨start.line, page.equalsColumn start + s.1⟩ := by
  obtain ⟨found, offset, hspans, hoffset, rfl⟩ := lineExpression_eq_ok h
  rw [Expression.map_delta_classify, Expression.decodeDeltas_lineTokens _ _ _ (aligned_of_inStep step after), hspans]
  apply List.map_congr_left
  intro s _
  rw [Position.mk.injEq, hoffset]
  split <;> omega

/-- The tokens of an expression on one line are placed where their texts stand, and are as long as they. -/
theorem map_span_lineExpression {text : String} {tokens : List Token}
    (h : page.lineExpression text start last = .ok tokens) :
    tokens.map (fun t => (t.place.absolute page.anchor 0, t.length)) =
      (Expression.spans text.toList).map fun s =>
        (⟨start.line, page.equalsColumn start + s.1⟩, (s.2.length : Int)) := by
  obtain ⟨found, offset, hspans, hoffset, rfl⟩ := lineExpression_eq_ok h
  rw [Expression.map_classify _ _
    (fun t => (⟨page.anchor.line + (t.place.line + (last.line - page.anchor.line)), t.place.character + 0⟩,
      (t.text.length : Int))) (fun _ _ _ => rfl), hspans]
  have := congrArg (List.map fun p : Position × List Char =>
      ((⟨page.anchor.line + (p.1.line + (last.line - page.anchor.line)), p.1.character + 0⟩ : Position),
        (p.2.length : Int)))
    (Expression.map_place_lineTokens (start.line - last.line) (page.equalsColumn start - offset) offset ⟨0, 0⟩ found)
  rw [List.map_map, List.map_map] at this
  refine this.trans (List.map_congr_left ?_)
  intro s _
  simp only [Function.comp_apply, Prod.mk.injEq, Position.mk.injEq, and_true]
  omega

/-- The tokens of an expression on one line are placed where their texts stand. -/
theorem map_absolute_lineExpression {text : String} {tokens : List Token}
    (h : page.lineExpression text start last = .ok tokens) :
    tokens.map (fun t => t.place.absolute page.anchor 0) =
      (Expression.spans text.toList).map fun s => ⟨start.line, page.equalsColumn start + s.1⟩ := by
  simpa [Function.comp_def] using congrArg (List.map Prod.fst) (map_span_lineExpression h)

/-- The tokens of an expression on one line are as long as their texts. -/
theorem map_length_lineExpression {text : String} {tokens : List Token}
    (h : page.lineExpression text start last = .ok tokens) :
    tokens.map (·.length) = (Expression.spans text.toList).map fun s => (s.2.length : Int) := by
  simpa [Function.comp_def] using congrArg (List.map Prod.snd) (map_span_lineExpression h)

/-- The distances in an expression on several lines lead to its mark, and to the spans of the lines inside. -/
private theorem decodeDeltas_blockExpression {tokens : List Token}
    (h : page.blockExpression start stop last modifiers remark = .ok tokens) (step : InStep d last b)
    (after : b ≤ start.position) :
    decodeDeltas d (tokens.map (·.delta)) =
      start.position :: Expression.placesFrom (start.line + 1) (page.inside start stop) := by
  obtain ⟨line, lexed, _, hlexed, rfl⟩ := blockExpression_eq_ok h
  have first : d.advance (page.headerToken start last (line.length - start.column) modifiers remark).delta =
      start.position := by
    rw [headerToken, relativeTo_eq_deltaTo]
    exact step.advance_deltaTo after
  rw [List.map_cons, decodeDeltas, first, Expression.map_delta_classify,
    Expression.decodeDeltas_tokensFrom hlexed (by decide)]
  rfl

/-- The tokens inside an expression on several lines are placed where they stand. -/
theorem map_absolute_blockExpression {tokens : List Token}
    (h : page.blockExpression start stop last modifiers remark = .ok tokens) :
    tokens.tail.map (fun t => t.place.absolute page.anchor 0) =
      Expression.placesFrom (start.line + 1) (page.inside start stop) := by
  obtain ⟨line, lexed, _, hlexed, rfl⟩ := blockExpression_eq_ok h
  rw [List.tail_cons, Expression.placesFrom_add, ← Expression.map_place_tokensFrom hlexed, List.map_map]
  apply Expression.map_classify
  intro t kind remark
  simp only [Position.absolute, Expression.Token.highlight, Position.relativeTo, Mark.position, Function.comp_apply,
    Position.mk.injEq]
  omega

end Page

/-! ### Scalars as they are read -/

namespace ScalarReading

/-- The tokens of the scalar. -/
def tokens (r : ScalarReading) : List Token :=
  match r.outlined with
  | .ok found => Outline.flattenAll found.1
  | .error _ => []

/-- Where the scalar stands in the text.  An expression on one line stands where the texts of its tokens do, counted
from the first equals sign; on several lines it stands at its start mark and where the texts of its tokens do; any
other scalar stands at its start mark and at the first characters of its further lines. -/
def places (r : ScalarReading) : List Position :=
  if r.isExpression then
    if r.start.line = r.stop.line then
      (Expression.spans r.text.toList).map fun s => ⟨r.start.line, r.page.equalsColumn r.start + s.1⟩
    else r.start.position :: Expression.placesFrom (r.start.line + 1) (r.page.inside r.start r.stop)
  else r.start.position :: r.page.furtherPlaces (r.start.line + 1) (r.stop.line - r.start.line - 1)

theorem tokens_eq (made : r.outlined = .ok found) : r.tokens = Outline.flattenAll found.1 := by
  rw [tokens, made]

/-- The outline of a scalar: a block with the tokens of an expression, a token, or a block with a token for each
line. -/
theorem outlined_cases (made : r.outlined = .ok found) :
    (r.isExpression = true ∧ ∃ tokens : List Token,
      found.1 = [.block none none (r.page.range r.start r.stop) (some (tokens.map fun t => .token t none))] ∧
        (r.start.line ≠ r.stop.line → ∃ t rest, tokens = t :: rest ∧ t.kind = .operator)) ∨
    (r.isExpression = false ∧ ∃ length localKey indexKey first others, r.page.firstLength r.start r.stop = .ok length ∧
      first = r.page.firstToken r.entry r.start r.last length localKey indexKey r.remark ∧
      found.1 = if r.stop.line - r.start.line - 1 = 0 then [.token first none]
        else [.block localKey indexKey (r.page.range r.start r.stop)
          (some ((first :: others).map fun t => .token t none))]) := by
  rw [outlined] at made
  cases he : r.isExpression with
  | true =>
    rw [he] at made
    obtain ⟨tokens, t, htokens, _, rfl⟩ := Page.expression_eq_ok made
    refine .inl ⟨rfl, tokens, rfl, ?_⟩
    intro several
    rw [if_neg several] at htokens
    obtain ⟨line, lexed, _, _, rfl⟩ := Page.blockExpression_eq_ok htokens
    exact ⟨_, _, rfl, rfl⟩
  | false =>
    rw [he] at made
    obtain ⟨first, others, ⟨length, localKey, indexKey, hlength, _, _, rfl⟩, _, rfl⟩ := Page.scalar_eq_ok made
    refine .inr ⟨rfl, length, localKey, indexKey, _, others, hlength, rfl, ?_⟩
    split <;> rfl

/-- A scalar has one outline. -/
theorem outlined_eq_singleton (made : r.outlined = .ok found) : ∃ o, found.1 = [o] := by
  rcases outlined_cases made with ⟨_, tokens, form, _⟩ | ⟨_, _, _, _, first, others, _, _, form⟩
  · exact ⟨_, form⟩
  · rw [form]
    split <;> exact ⟨_, rfl⟩

theorem flattenAll_block (localKey indexKey : Option String) (range : Range) (tokens : List Token) :
    Outline.flattenAll [.block localKey indexKey range (some (tokens.map fun t => .token t none))] = tokens := by
  rw [Outline.flattenAll, Outline.flatten, Outline.flattenAll_map_token]
  exact List.append_nil _

private theorem decodes_plain (made : r.page.scalar r.entry r.text r.start r.stop r.last r.remark = .ok found)
    (step : InStep d r.last b) (after : b ≤ r.start.position) (ordered : r.start.position ≤ r.stop.position) :
    decodeDeltas d ((Outline.flattenAll found.1).map (·.delta)) =
        r.start.position :: r.page.furtherPlaces (r.start.line + 1) (r.stop.line - r.start.line - 1) ∧
      InStep (d.arrival ((Outline.flattenAll found.1).map (·.delta))) found.2 r.stop.position := by
  obtain ⟨first, others, ⟨length, localKey, indexKey, _, _, _, hfirst⟩, hothers, hfound⟩ := Page.scalar_eq_ok made
  have hdelta : d.advance first.delta = r.start.position := by
    rw [hfirst]
    exact step.advance_deltaTo after
  have hlines : (r.start.line : Int) ≤ r.stop.line := Position.line_le ordered
  generalize hmore : r.stop.line - r.start.line - 1 = more at hothers hfound ⊢
  cases more with
  | zero =>
    rw [if_pos rfl] at hfound
    have htokens : Outline.flattenAll found.1 = [first] := by rw [hfound]; rfl
    rw [htokens, Position.arrival_eq_getLastD, List.map_singleton, decodeDeltas, decodeDeltas, hdelta, hfound]
    exact ⟨rfl, rfl, hlines, .inl rfl⟩
  | succ more =>
    rw [if_neg (Nat.succ_ne_zero more)] at hfound
    have htokens : Outline.flattenAll found.1 = first :: others := by
      rw [hfound]
      exact flattenAll_block ..
    have hplaces : decodeDeltas d ((Outline.flattenAll found.1).map (·.delta)) =
        r.start.position :: r.page.furtherPlaces (r.start.line + 1) (more + 1) := by
      rw [htokens, List.map_cons, decodeDeltas, hdelta, Page.decodeDeltas_furtherTokens hothers (by rfl)]
    refine ⟨hplaces, ?_⟩
    -- what is handed on is on the line of the last token, but in the first column
    have hlast : (r.start.position :: r.page.furtherPlaces (r.start.line + 1) (more + 1)).getLastD d =
        ⟨(r.start.line + 1 + more : Nat), r.page.indent (r.start.line + 1 + more)⟩ := by
      rw [List.getLastD_cons, Page.furtherPlaces, List.range'_concat, List.map_append, List.map_singleton,
        List.getLastD_concat, Nat.one_mul]
    rw [Position.arrival_eq_getLastD, hplaces, hlast, hfound]
    refine ⟨?_, ?_, .inr ?_⟩ <;> simp only [Mark.position] <;> omega

private theorem inStep_line {tokens : List Token} {t : Token}
    (made : r.page.lineExpression r.text r.start r.last = .ok tokens) (last : tokens.getLast? = some t)
    (step : InStep d r.last b) (after : b ≤ r.start.position) (ordered : r.start.position ≤ r.stop.position) :
    InStep (d.arrival (tokens.map (·.delta))) (t.place.absolute r.page.anchor 0) r.stop.position := by
  have placed := Page.map_absolute_lineExpression made
  have arrives : d.arrival (tokens.map (·.delta)) = t.place.absolute r.page.anchor 0 :=
    Position.arrival_of_decodeDeltas (f := fun t => t.place.absolute r.page.anchor 0)
      ((Page.decodeDeltas_lineExpression made step after).trans placed.symm) last
  have here : (t.place.absolute r.page.anchor 0).line = r.start.line := by
    have ht := List.mem_map_of_mem (f := fun t => t.place.absolute r.page.anchor 0) (List.mem_of_getLast? last)
    rw [placed] at ht
    obtain ⟨s, _, hs⟩ := List.mem_map.1 ht
    exact (congrArg Position.line hs).symm
  rw [arrives]
  exact ⟨rfl, here ▸ Position.line_le ordered, .inl rfl⟩

private theorem inStep_block {tokens : List Token} {t : Token}
    (made : r.page.blockExpression r.start r.stop r.last r.entry.modifiers r.remark = .ok tokens)
    (last : tokens.getLast? = some t) (step : InStep d r.last b) (after : b ≤ r.start.position)
    (ordered : r.start.position ≤ r.stop.position) (several : r.start.line ≠ r.stop.line) :
    InStep (d.arrival (tokens.map (·.delta))) (t.place.absolute r.page.anchor 0) r.stop.position := by
  have hlines : (r.start.line : Int) ≤ r.stop.line := Position.line_le ordered
  have places := Page.decodeDeltas_blockExpression made step after
  have placed := Page.map_absolute_blockExpression made
  obtain ⟨line, lexed, _, _, htokens⟩ := Page.blockExpression_eq_ok made
  generalize Expression.classify _ _ lexed = rest at htokens
  subst htokens
  rw [List.tail_cons] at placed
  rw [Position.arrival_eq_getLastD, places, List.getLastD_cons, ← placed, List.getLastD_eq_getLast?,
    List.getLast?_map]
  rw [List.getLast?_cons, Option.some.injEq] at last
  cases hr : rest.getLast? with
  | none =>
    -- nothing but the mark before the expression
    rw [hr, Option.getD_none] at last
    rw [← last]
    refine ⟨?_, ?_, .inr ?_⟩ <;>
      simp only [Page.headerToken, Position.absolute, Position.relativeTo, Mark.position, Option.map_none,
        Option.getD_none] <;> omega
  | some t' =>
    rw [hr, Option.getD_some] at last
    have ht := List.mem_map_of_mem (f := fun t => t.place.absolute r.page.anchor 0) (List.mem_of_getLast? hr)
    rw [placed, last] at ht
    have bounds := Expression.line_of_mem_placesFrom ht
    have inner : (r.page.inside r.start r.stop).length ≤ r.stop.line - (r.start.line + 1) := List.length_take_le _ _
    rw [last]
    refine ⟨rfl, ?_, .inr ?_⟩ <;> simp only [Mark.position] <;> omega

/-- The tokens of a scalar lead a decoder in step to the places where the scalar stands, and leave it in step with the
position that is handed on. -/
theorem decodes (made : r.outlined = .ok found) (step : InStep d r.last b) (after : b ≤ r.start.position)
    (ordered : r.start.position ≤ r.stop.position) :
    decodeDeltas d (r.tokens.map (·.delta)) = r.places ∧
      InStep (d.arrival (r.tokens.map (·.delta))) found.2 r.stop.position := by
  rw [tokens_eq made, places]
  rw [outlined] at made
  cases he : r.isExpression with
  | false =>
    rw [he] at made
    exact decodes_plain made step after ordered
  | true =>
    rw [he] at made
    obtain ⟨tokens, t, htokens, ht, rfl⟩ := Page.expression_eq_ok made
    rw [flattenAll_block, if_pos rfl]
    by_cases hl : r.start.line = r.stop.line
    · rw [if_pos hl] at htokens ⊢
      exact ⟨Page.decodeDeltas_lineExpression htokens step after, inStep_line htokens ht step after ordered⟩
    · rw [if_neg hl] at htokens ⊢
      exact ⟨Page.decodeDeltas_blockExpression htokens step after, inStep_block htokens ht step after ordered hl⟩

end ScalarReading

end ManifestLens
