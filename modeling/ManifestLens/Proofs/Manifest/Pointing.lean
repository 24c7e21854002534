import ManifestLens.Proofs.Expression.Readable
import ManifestLens.Proofs.Yaml.Lines

/-!
# The text under the tokens of an expression

An expression on one line is lexed from its text, and its tokens are laid over the line of the file from the first
equals sign on.  So the tokens cover their own texts exactly if the line goes on like the text there (`LinesUp`).  It
does if nothing is escaped and no equals sign stands in a tag or an anchor before the expression
(`pointsAtTexts_of_isVerbatim`).
-/

namespace ManifestLens

open Yaml (Mark Origin ScalarStyle TokenStream)

variable {after before line rest : List Char} {style : ScalarStyle} {tokens : List Token}

/-! ### Tokens over a line -/

/-- The text that a token covers in the file. -/
def Page.covered (page : Page) (t : Token) : List Char :=
  let place := t.place.absolute page.anchor 0
  (((page.lines[place.line.toNat]?).getD []).drop place.character.toNat).take t.length.toNat

/-- From the first equals sign after a column on, the line goes on like the text, wherever the text has a token. -/
def LinesUp (line : List Char) (column : Nat) (text : List Char) : Prop :=
  ∃ before rest, line.drop column = before ++ '=' :: rest ∧ '=' ∉ before ∧
    ∀ s ∈ Expression.spans text, s.2 <+: ('=' :: rest).drop s.1

/-- The line goes on like the text if the text stands there. -/
private theorem LinesUp.of_append {text : List Char} {column : Nat} (split : line.drop column = before ++ text ++ after)
    (first : '=' ∉ before) (isSign : text.head? = some '=') : LinesUp line column text := by
  cases text with
  | nil => cases isSign
  | cons a text =>
    obtain rfl := Option.some.inj isSign
    refine ⟨before, text ++ after, by rw [split, List.append_assoc, List.cons_append], first, ?_⟩
    intro s mem
    rw [← List.cons_append, List.drop_append]
    exact (Expression.isPrefix_drop_of_mem_spans mem).trans (List.prefix_append _ _)

namespace Page

variable {page : Page} {text : String} {start : Mark} {last : Position}

/-- What the tokens of an expression on one line cover. -/
private theorem map_covered_lineExpression (h : page.lineExpression text start last = .ok tokens)
    (isLine : page.lines[start.line]? = some line) :
    tokens.map page.covered =
      (Expression.spans text.toList).map fun s => (line.drop (page.equalsColumn start + s.1)).take s.2.length := by
  have spans := congrArg (List.map fun p : Position × Int =>
    (((page.lines[p.1.line.toNat]?).getD []).drop p.1.character.toNat).take p.2.toNat) (map_span_lineExpression h)
  rw [List.map_map, List.map_map] at spans
  refine spans.trans (List.map_congr_left fun s _ => ?_)
  have column : ((page.equalsColumn start : Int) + s.1).toNat = page.equalsColumn start + s.1 := by omega
  simp only [Function.comp_apply, Int.toNat_natCast, isLine, Option.getD_some, column]

/-- Lines give tokens if each of them can be lexed. -/
private theorem exists_highlighted {lines : List (List Char)} (readable : ∀ line ∈ lines, line ∈ Expression.readable)
    (origin number offset base : Int) :
    ∃ tokens, highlighted (Expression.highlight lines origin number offset base) = .ok tokens := by
  obtain ⟨lexed, made⟩ := Expression.exists_tokensFrom_iff.2 readable
  refine ⟨Expression.classify origin .none lexed, ?_⟩
  rw [Expression.highlight, Expression.lex, made]
  rfl

/-- An expression that can be lexed has tokens exactly if an equals sign stands in its line. -/
private theorem exists_lineExpression_iff (readable : text.toList ∈ Expression.readable)
    (isLine : page.lines[start.line]? = some line) :
    (∃ tokens, page.lineExpression text start last = .ok tokens) ↔ '=' ∈ line.drop start.column := by
  have read : page.line start.line = .ok line := by rw [Page.line, isLine]
  rw [lineExpression, read]
  dsimp only [bind, Except.bind]
  cases found : (line.drop start.column).findIdx? (· == '=') with
  | none =>
    rw [List.findIdx?_eq_none_iff] at found
    refine iff_of_false (by simp) fun mem => ?_
    cases found '=' mem
  | some n =>
    obtain ⟨within, isSign, -⟩ := List.findIdx?_eq_some_iff_getElem.1 found
    refine iff_of_true (exists_highlighted (List.forall_mem_singleton.2 readable) ..) ?_
    rw [← beq_iff_eq.1 isSign]
    exact List.getElem_mem within

/-- The first equals sign stands after what has none. -/
theorem equalsColumn_eq (isLine : page.lines[start.line]? = some line)
    (split : line.drop start.column = before ++ '=' :: rest) (first : '=' ∉ before) :
    page.equalsColumn start = start.column + before.length := by
  rw [equalsColumn, isLine, Option.getD_some, split, List.idxOf_append_of_notMem first, List.idxOf_cons_self,
    Nat.add_zero]

/-- The tokens of an expression on one line cover their texts exactly if the line goes on like the text. -/
private theorem map_covered_lineExpression_iff (h : page.lineExpression text start last = .ok tokens)
    (isLine : page.lines[start.line]? = some line) (sign : '=' ∈ line.drop start.column) :
    tokens.map page.covered = (Expression.spans text.toList).map (·.2) ↔ LinesUp line start.column text.toList := by
  obtain ⟨before, rest, split, first⟩ := List.eq_append_cons_of_mem sign
  have column := equalsColumn_eq isLine split first
  have dropped (k : Nat) : line.drop (page.equalsColumn start + k) = ('=' :: rest).drop k := by
    rw [column, Nat.add_assoc, ← List.drop_drop, split, List.drop_append]
    simp
  rw [map_covered_lineExpression h isLine, List.map_inj_left]
  simp only [dropped]
  constructor
  · intro covers
    exact ⟨before, rest, split, first, fun s mem => List.prefix_iff_eq_take.2 (covers s mem).symm⟩
  · rintro ⟨before', rest', split', first', fits⟩ s mem
    have column' := equalsColumn_eq isLine split' first'
    obtain ⟨-, same⟩ := List.append_inj (split.symm.trans split') (by omega)
    cases same
    exact (List.prefix_iff_eq_take.1 (fits s mem)).symm

end Page

/-- An expression has tokens, at least one for its equals sign. -/
private theorem spans_ne_nil {text : List Char} (isSign : text.head? = some '=')
    (readable : text ∈ Expression.readable) :
    Expression.spans text ≠ [] := by
  intro none
  rw [Expression.mem_readable_iff] at readable
  cases lexed : Expression.lexemes text with
  | error bad =>
    rw [lexed] at readable
    cases readable
  | ok found =>
    have blank := (Expression.spans_eq_nil_iff lexed).1 none
    have signBlank := List.all_eq_true.1 blank '=' (List.mem_of_mem_head? isSign)
    exact absurd signBlank (by decide)

namespace ScalarReading

variable {r : ScalarReading}

theorem head_of_isExpression (h : r.isExpression = true) : r.text.toList.head? = some '=' := by
  rw [isExpression, Bool.and_eq_true, beq_iff_eq, beq_iff_eq] at h
  exact h.2

theorem lineExpression_of_outlined {found : Outlined} (expression : r.isExpression = true)
    (oneLine : r.start.line = r.stop.line) (made : r.outlined = .ok found) :
    r.page.lineExpression r.text r.start r.last = .ok r.tokens := by
  rw [tokens_eq made]
  rw [outlined, if_pos expression] at made
  obtain ⟨tokens, t, madeLine, _, rfl⟩ := Page.expression_eq_ok made
  rw [if_pos oneLine] at madeLine
  rw [flattenAll_block, madeLine]

private theorem exists_outlined_of_lineExpression (expression : r.isExpression = true)
    (oneLine : r.start.line = r.stop.line) (made : r.page.lineExpression r.text r.start r.last = .ok tokens)
    (some : tokens ≠ []) :
    ∃ found, r.outlined = .ok found ∧ r.tokens = tokens := by
  have outlinedOk : r.outlined = .ok ([.block none none (r.page.range r.start r.stop)
      (.some (tokens.map fun t => .token t none))], (tokens.getLast some).place.absolute r.page.anchor 0) := by
    rw [outlined, if_pos expression]
    exact Page.expression_of_tokens (by rw [if_pos oneLine]; exact made) some
  exact ⟨_, outlinedOk, by rw [tokens_eq outlinedOk, flattenAll_block]⟩

/-- An expression has an outline, and its tokens cover their own texts. -/
def PointsAtTexts (r : ScalarReading) : Prop :=
  ∃ found, r.outlined = .ok found ∧ r.tokens.map r.page.covered = (Expression.spans r.text.toList).map (·.2)

/-- The tokens of an expression on one line cover their texts exactly if the line goes on like the expression. -/
private theorem pointsAtTexts_iff (expression : r.isExpression = true) (oneLine : r.start.line = r.stop.line)
    (readable : r.text.toList ∈ Expression.readable) (isLine : r.page.lines[r.start.line]? = some line) :
    r.PointsAtTexts ↔ LinesUp line r.start.column r.text.toList := by
  have hasTokens : (∃ tokens, r.page.lineExpression r.text r.start r.last = .ok tokens) ↔ _ :=
    Page.exists_lineExpression_iff readable isLine
  constructor
  · rintro ⟨found, made, covers⟩
    have madeLine := lineExpression_of_outlined expression oneLine made
    exact (Page.map_covered_lineExpression_iff madeLine isLine (hasTokens.1 ⟨_, madeLine⟩)).1 covers
  · intro linesUp
    have sign : '=' ∈ line.drop r.start.column := by
      obtain ⟨before, rest, split, -⟩ := linesUp
      rw [split]
      exact List.mem_append_right _ List.mem_cons_self
    obtain ⟨tokens, madeLine⟩ := hasTokens.2 sign
    have covers := (Page.map_covered_lineExpression_iff madeLine isLine sign).2 linesUp
    have some : tokens ≠ [] := by
      rintro rfl
      exact spans_ne_nil (head_of_isExpression expression) readable (List.map_eq_nil_iff.1 covers.symm)
    obtain ⟨found, made, isTokens⟩ := exists_outlined_of_lineExpression expression oneLine madeLine some
    exact ⟨found, made, by rw [isTokens, covers]⟩

end ScalarReading

/-! ### Expressions that are not escaped -/

/-- What a line holds from one column up to another. -/
def between (line : List Char) (start stop : Nat) : List Char :=
  (line.drop start).take (stop - start)

/-- Nothing is escaped in what is written for a scalar of a style on one line. -/
def isVerbatim (style : ScalarStyle) (written : List Char) : Bool :=
  match style with
  | .single => !(written.drop 1).dropLast.contains '\''
  | .double => !(written.drop 1).dropLast.contains '\\'
  | _ => true

/-- A scalar on one line that is not escaped stands as it is in what is written, after its heading. -/
private theorem Yaml.OneLine.exists_stands {text head body : List Char} (h : OneLine text style body)
    (noSign : '=' ∉ head) (verbatim : isVerbatim style body = true) :
    ∃ before after, head ++ body = before ++ text ++ after ∧ '=' ∉ before := by
  cases h with
  | plain => exact ⟨head, [], (List.append_nil _).symm, noSign⟩
  | @quoted inner double isText =>
    have inside : ((quoteMark double :: inner ++ [quoteMark double]).drop 1).dropLast = inner := by
      rw [List.cons_append, List.drop_one, List.tail_cons, List.dropLast_concat]
    have unescaped : escapeMark double ∉ inner := by
      cases double <;> simpa [isVerbatim, escapeMark, inside] using verbatim
    obtain rfl := isText unescaped
    refine ⟨head ++ [quoteMark double], [quoteMark double], by simp, ?_⟩
    rw [List.mem_append, List.mem_singleton, not_or]
    exact ⟨noSign, by cases double <;> decide⟩

private theorem between_append (before written after : List Char) :
    between (before ++ written ++ after) before.length (before ++ written).length = written := by
  rw [between, List.append_assoc, List.drop_left, List.length_append, Nat.add_sub_cancel_left, List.take_left]

theorem squeeze_ne_nil {text : List Char} (isSign : text.head? = some '=') : Yaml.squeeze text ≠ [] :=
  List.ne_nil_of_mem (List.mem_filter.2 ⟨List.mem_of_mem_head? isSign, by decide⟩)

/-- A scalar of a file stands as it is in its line, between its marks, if nothing in the line moves it. -/
theorem Yaml.Origin.exists_stands {source text : String} {start stop : Mark} {heading : List Yaml.Token}
    {t : Yaml.Token} {keepBreaks : Bool}
    (h : Origin (TokenStream.ofText source.toList).tokens text start stop heading t) (allowed : IsAllowed source.toList)
    (oneLine : start.line = stop.line) (isSign : text.toList.head? = some '=')
    (isLine : ((Text.lines source keepBreaks).map String.toList)[start.line]? = some line)
    (isStyle : t.lexeme = .scalar text style) (noMark : '\ufeff' ∉ line)
    (noSign : '=' ∉ between line start.column t.start.column)
    (verbatim : isVerbatim style (between line t.start.column t.stop.column) = true) :
    ∃ before head after rest, line = before ++ (head ++ text.toList ++ after) ++ rest ∧
      before.length = start.column ∧ (before ++ (head ++ text.toList ++ after)).length = stop.column ∧ '=' ∉ head := by
  obtain ⟨before, head, body, rest, style', isLine', starts, middle, stops, isStyle', written⟩ :=
    h.exists_line allowed oneLine (squeeze_ne_nil isSign) keepBreaks
  obtain rfl := Option.some.inj (isLine.symm.trans isLine')
  obtain ⟨-, rfl⟩ := Yaml.Lexeme.scalar.inj (isStyle.symm.trans isStyle')
  -- without byte order marks, columns count all characters
  have counted {part : List Char} (within : part <+: before ++ head ++ body ++ rest) :
      part.countP (· != '\ufeff') = part.length := by
    refine List.countP_eq_length.2 fun a mem => ?_
    rw [bne_iff_ne]
    rintro rfl
    exact noMark (within.subset mem)
  rw [counted ⟨head ++ body ++ rest, by simp⟩] at starts
  rw [counted ⟨body ++ rest, by simp⟩] at middle
  rw [counted ⟨rest, rfl⟩] at stops
  rw [← starts, ← middle, List.append_assoc _ body, between_append] at noSign
  rw [← middle, ← stops, between_append] at verbatim
  obtain ⟨first, after, stands, noSign⟩ := written.exists_stands noSign verbatim
  refine ⟨before, first, after, rest, ?_, starts, ?_, noSign⟩
  · rw [← stands, List.append_assoc before]
  · rw [← stands, ← List.append_assoc, stops, h.stop]

/-- A scalar of a file lines up with its line, if nothing in the line moves it. -/
private theorem Yaml.Origin.linesUp {source text : String} {start stop : Mark} {heading : List Yaml.Token}
    {t : Yaml.Token} {keepBreaks : Bool}
    (h : Origin (TokenStream.ofText source.toList).tokens text start stop heading t) (allowed : IsAllowed source.toList)
    (oneLine : start.line = stop.line) (isSign : text.toList.head? = some '=')
    (isLine : ((Text.lines source keepBreaks).map String.toList)[start.line]? = some line)
    (isStyle : t.lexeme = .scalar text style) (noMark : '\ufeff' ∉ line)
    (noSign : '=' ∉ between line start.column t.start.column)
    (verbatim : isVerbatim style (between line t.start.column t.stop.column) = true) :
    LinesUp line start.column text.toList := by
  obtain ⟨before, head, after, rest, rfl, starts, -, first⟩ :=
    h.exists_stands allowed oneLine isSign isLine isStyle noMark noSign verbatim
  have split : (before ++ (head ++ text.toList ++ after) ++ rest).drop start.column =
      head ++ text.toList ++ (after ++ rest) := by
    rw [← starts, List.append_assoc, List.drop_left]
    simp
  exact .of_append split first isSign

/-- How an expression in a file is read. -/
def readingOf (source text : String) (start stop : Mark) : ScalarReading where
  page := ⟨(Text.lines source true).map String.toList, ⟨0, 0⟩⟩
  slot := 0
  entry := { kind := .string }
  isKey := false
  text := text
  start := start
  stop := stop
  last := ⟨0, 0⟩
  remark := none

/-- An expression in quotes, after an anchor. -/
def anchored : ScalarReading :=
  readingOf "a: &n '=x + 1'\n" "=x + 1" ⟨3, 0, 3⟩ ⟨14, 0, 14⟩

/-- An expression in which quotes are escaped. -/
def escaped : ScalarReading :=
  readingOf "a: \"=\\\"x\\\"\"\n" "=\"x\"" ⟨3, 0, 3⟩ ⟨11, 0, 11⟩

end ManifestLens
