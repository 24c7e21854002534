import ManifestLens.Proofs.Yaml.Origins

/-!
# The lines of scalars

A scalar that ends on the line where it starts stands in that line of the file, after its heading
(`Origin.exists_line`).  The lines of a block scalar are those below its header, up to the line where it stops, and that
line only if the scalar ends within it (`Origin.exists_content`).
-/

namespace ManifestLens.Yaml

variable {c e : Cursor} {start stop : Mark} {style : ScalarStyle}

/-! ### Scalars on one line and on several -/

/-- What is written for a text on one line: the text itself, or the text between quotes, unless something is escaped. -/
inductive OneLine (text : List Char) : ScalarStyle → List Char → Prop where
  | plain : OneLine text .plain text
  | quoted {inner : List Char} (double : Bool) (verbatim : escapeMark double ∉ inner → text = inner) :
      OneLine text (if double then .double else .single) (quoteMark double :: inner ++ [quoteMark double])

/-- A block scalar that is not blank has lines below its header. -/
private theorem Spelled.exists_block {text : List Char} (h : Spelled c text e style)
    (isBlock : style = .literal ∨ style = .folded) (notBlank : squeeze text ≠ []) :
    ∃ mark header start body, Text.isBlank mark = false ∧ Passes c (mark :: header) start ∧
      start.mark.line = c.mark.line + 1 ∧ StartsLine (mark :: header) start ∧ Passes start body e ∧
      squeeze text = squeeze body ∧ (StartsLine body e ∨ e.rest = [] ∧ 0 < e.mark.column) := by
  cases h with
  | plain isStyle => simp [isStyle] at isBlock
  | quoted double isStyle => cases double <;> simp [isStyle] at isBlock
  | @block mark header body start _ written heads below passes same ends =>
    have some : body ≠ [] := by
      rintro rfl
      exact notBlank same
    rcases below with whole | ⟨line, starts⟩
    · exact absurd (List.append_eq_nil_iff.1 (passes.rest_eq.symm.trans whole)).1 some
    · exact ⟨mark, header, start, body, written, heads, line, starts, passes, same, ends.resolve_left some⟩

/-- A scalar that is not blank and is spelled on one line does not end with a break. -/
private theorem Spelled.exists_oneLine {text : List Char} (h : Spelled c text e style) (allowed : IsAllowed c.rest)
    (same : e.mark.line = c.mark.line) (notBlank : squeeze text ≠ []) :
    ∃ start a, Passes c (start ++ [a]) e ∧ Text.isLineEnd a = false ∧ OneLine text style (start ++ [a]) := by
  have noBlock : ¬(style = .literal ∨ style = .folded) := by
    intro isBlock
    obtain ⟨_, _, _, _, _, _, line, _, passes, _⟩ := h.exists_block isBlock notBlank
    have := passes.line_le
    omega
  cases h with
  | @plain passed isStyle passes verbatim last =>
    obtain rfl := verbatim same
    subst isStyle
    rcases List.eq_nil_or_concat text with rfl | ⟨start, a, rfl⟩
    · exact absurd rfl notBlank
    · rw [List.concat_eq_append] at passes last ⊢
      have gap := last a List.getLast?_concat
      have mem : a ∈ c.rest := by
        rw [passes.rest_eq]
        simp
      refine ⟨start, a, passes, ?_, .plain⟩
      rw [isLineEnd_eq_isBreak (allowed a mem)]
      simp only [isGap, isSpaceStop, isLineStop, Bool.or_eq_false_iff] at gap
      exact gap.2.2.2
  | @quoted inner double isStyle passes verbatim =>
    subst isStyle
    refine ⟨quoteMark double :: inner, quoteMark double, passes, ?_, .quoted double (verbatim same)⟩
    cases double <;> decide
  | block isStyle => exact absurd isStyle noBlock

/-- A scalar that is not blank and ends on the line where it starts stands in that line of the file, after its
heading. -/
theorem Origin.exists_line {source text : String} {heading : List Token} {t : Token}
    (h : Origin (TokenStream.ofText source.toList).tokens text start stop heading t) (allowed : IsAllowed source.toList)
    (oneLine : start.line = stop.line) (notBlank : squeeze text.toList ≠ []) (keepBreaks : Bool) :
    ∃ before head body after style,
      ((Text.lines source keepBreaks).map String.toList)[start.line]? = some (before ++ head ++ body ++ after) ∧
      before.countP (· != '\ufeff') = start.column ∧ (before ++ head).countP (· != '\ufeff') = t.start.column ∧
      (before ++ head ++ body).countP (· != '\ufeff') = t.stop.column ∧ t.lexeme = .scalar text style ∧
      OneLine text.toList style body := by
  obtain ⟨c, d, e, style, reaches, rfl, ⟨head, heads⟩, starts, stops, lexeme, spelled⟩ := h.exists_spelled allowed
  have whole := h.stop
  subst stops
  obtain ⟨passed, passes⟩ := reaches
  obtain ⟨done, before, atStart, -⟩ := (OnLine.start source.toList).exists_of_passes allowed passes
  have lower := heads.line_le
  have upper : d.mark.line ≤ e.mark.line := spelled.reaches.line_le
  have atText := atStart.of_line_eq allowed heads (by omega)
  obtain ⟨body, a, bodyPasses, inside, oneLine⟩ :=
    spelled.exists_oneLine (atText.allowed_rest allowed) (by omega) notBlank
  have atEnd := atText.of_line_eq allowed bodyPasses (by omega)
  obtain ⟨after, line⟩ := atEnd.exists_line_of_file (List.append_assoc ..).symm inside keepBreaks
  refine ⟨before, head, body ++ [a], after, style, ?_, atStart.column, ?_, ?_, lexeme, oneLine⟩
  · rw [← line]
    congr 1
  · rw [atText.column, starts]
  · rw [atEnd.column, whole]

/-! ### The lines of a block scalar -/

/-- The number of the line after those of a block scalar, which stops at the start of a line or within the last line. -/
def contentEnd (stop : Mark) : Nat :=
  if 0 < stop.column then stop.line + 1 else stop.line

/-- The lines of a text are split at a block scalar: those up to the line of its mark, in which something is written,
the lines of the scalar, and the lines below it. -/
structure SplitAt (lines : List (List Char)) (text : List Char) (start stop : Mark)
    (above content below : List (List Char)) : Prop where
  split : lines = above ++ content ++ below
  header : ∃ line, above[start.line]? = some line ∧ squeeze line ≠ []
  first : above.length = start.line + 1
  last : above.length + content.length = contentEnd stop
  same : squeeze text = squeeze content.flatten
  whole : 0 < stop.column → below = []

/-- What is passed from the start of a line up to the start of another or to the end of the text is made of lines. -/
private theorem OnLine.exists_lines {source body : List Char} {above : List (List Char)} (h : OnLine source c above [])
    (allowed : IsAllowed source) (passes : Passes c body e)
    (ends : StartsLine body e ∨ e.rest = [] ∧ 0 < e.mark.column) :
    ∃ content below, Text.keptLines source = above ++ content ++ below ∧
      above.length + content.length = contentEnd e.mark ∧ body = content.flatten ∧
      (0 < e.mark.column → below = []) := by
  rcases ends with ⟨a, isLast, isBreak, column⟩ | ⟨whole, column⟩
  · obtain ⟨content, atEnd, split⟩ := h.exists_of_break allowed passes isLast isBreak column
    have number := atEnd.number
    rw [List.length_append] at number
    refine ⟨content, _, atEnd.lines, ?_, split, fun more => by omega⟩
    rw [contentEnd, if_neg (by omega), number]
  · obtain ⟨others, current, atEnd, split⟩ := h.exists_of_passes allowed passes
    have number := atEnd.number
    rw [List.length_append] at number
    have some : current ≠ [] := by
      rintro rfl
      have := atEnd.column
      rw [List.countP_nil] at this
      omega
    have lines := atEnd.lines
    rw [whole, Text.linesFrom, if_neg (by simpa using some), List.reverse_reverse, List.append_assoc] at lines
    refine ⟨others ++ [current], [], by rw [lines, List.append_nil], ?_, by simpa using split, fun _ => rfl⟩
    rw [contentEnd, if_pos column, List.length_append, ← Nat.add_assoc, number]
    rfl

/-- Lines may be replaced by others that differ in blanks only. -/
private theorem SplitAt.exists_of_map_squeeze {lines others : List (List Char)} {text : List Char}
    {above content below : List (List Char)} (h : SplitAt lines text start stop above content below)
    (same : others.map squeeze = lines.map squeeze) :
    ∃ above content below, SplitAt others text start stop above content below := by
  rw [h.split, List.map_append, List.map_append] at same
  obtain ⟨_, below', rfl, isUpper, isBelow⟩ := List.map_eq_append_iff.1 same
  obtain ⟨above', content', rfl, isAbove, isContent⟩ := List.map_eq_append_iff.1 isUpper
  have flattened (parts : List (List Char)) : squeeze parts.flatten = (parts.map squeeze).flatten := List.filter_flatten
  have lengthAbove := congrArg List.length isAbove
  have lengthContent := congrArg List.length isContent
  rw [List.length_map, List.length_map] at lengthAbove lengthContent
  refine ⟨above', content', below', rfl, ?_, by rw [lengthAbove, h.first], ?_, ?_, fun column => ?_⟩
  · obtain ⟨line, isLine, written⟩ := h.header
    have mapped := congrArg (·[start.line]?) isAbove
    simp only [List.getElem?_map, isLine, Option.map_some, Option.map_eq_some_iff] at mapped
    obtain ⟨line', isLine', sameLine⟩ := mapped
    exact ⟨line', isLine', by rwa [sameLine]⟩
  · rw [lengthAbove, lengthContent, h.last]
  · rw [h.same, flattened, flattened, isContent]
  · rw [h.whole column] at isBelow
    exact List.map_eq_nil_iff.1 isBelow

private theorem isBlank_of_isLineEnd {a : Char} (h : Text.isLineEnd a = true) : Text.isBlank a = true := by
  simp only [Text.isLineEnd, Text.isBlank, Bool.or_eq_true, Bool.and_eq_true, decide_eq_true_eq, beq_iff_eq] at h ⊢
  omega

private theorem squeeze_dropBreak (line : List Char) : squeeze (Text.dropBreak line) = squeeze line := by
  have parts : line = Text.dropBreak line ++ (line.reverse.takeWhile Text.isLineEnd).reverse := by
    rw [Text.dropBreak, ← List.reverse_append, List.takeWhile_append_dropWhile, List.reverse_reverse]
  have blank : squeeze (line.reverse.takeWhile Text.isLineEnd).reverse = [] := by
    refine squeeze_of_all (fun _ => isBlank_of_isLineEnd) ?_
    rw [List.all_reverse, List.all_takeWhile]
  have whole := congrArg squeeze parts
  rw [squeeze_append, blank, List.append_nil] at whole
  exact whole.symm

/-- With or without their breaks, lines differ in blanks only. -/
private theorem map_squeeze_lines (source : String) (keepBreaks : Bool) :
    ((Text.lines source keepBreaks).map String.toList).map squeeze = (Text.keptLines source.toList).map squeeze := by
  rw [Text.lines, List.map_map, List.map_map]
  refine List.map_congr_left fun line _ => ?_
  cases keepBreaks <;> simp [squeeze_dropBreak]

/-- A block scalar that is not blank splits the lines of its text. -/
theorem Origin.exists_content {source text : String} {heading : List Token} {t : Token}
    (h : Origin (TokenStream.ofText source.toList).tokens text start stop heading t) (allowed : IsAllowed source.toList)
    (isStyle : t.lexeme = .scalar text style) (isBlock : style = .literal ∨ style = .folded)
    (notBlank : squeeze text.toList ≠ []) (keepBreaks : Bool) :
    start.line ≤ t.start.line ∧ t.start.line < stop.line ∧ ∃ above content below,
      SplitAt ((Text.lines source keepBreaks).map String.toList) text.toList t.start stop above content below := by
  obtain ⟨c, d, e, style', reaches, rfl, heads, starts, rfl, isStyle', spelled⟩ := h.exists_spelled allowed
  obtain ⟨-, rfl⟩ := Lexeme.scalar.inj (isStyle.symm.trans isStyle')
  obtain ⟨mark, header, first, body, written, headed, below, atFirst, passes, same, ends⟩ :=
    spelled.exists_block isBlock notBlank
  rw [← starts]
  obtain ⟨passed, leads⟩ := reaches.trans heads
  obtain ⟨before, current, atMark, -⟩ := (OnLine.start source.toList).exists_of_passes allowed leads
  obtain ⟨a, isLast, isBreak, column⟩ := atFirst
  obtain ⟨more, atFirst, isHeader⟩ := atMark.exists_of_break allowed headed isLast isBreak column
  refine ⟨heads.line_le, ?_, ?_⟩
  · have := passes.line_le
    omega
  obtain ⟨content, others, split, last, isBody, whole⟩ := atFirst.exists_lines allowed passes ends
  have number := atMark.number
  have numberFirst := atFirst.number
  rw [List.length_append, below, number] at numberFirst
  obtain ⟨line, rfl⟩ := List.length_eq_one_iff.1 (Nat.add_left_cancel numberFirst)
  have inHeader : squeeze line ≠ [] := by
    rw [List.flatten_singleton] at isHeader
    rw [← isHeader, squeeze, List.filter_append, List.filter_cons_of_pos (by simpa using written)]
    simp
  have splitAt : SplitAt (Text.keptLines source.toList) text.toList d.mark e.mark ([] ++ before ++ [line]) content
      others := by
    refine ⟨split, ⟨line, ?_, inHeader⟩, ?_, last, by rw [same, isBody], whole⟩
    · rw [← number, List.getElem?_append_right (Nat.le_refl _), Nat.sub_self]
      rfl
    · rw [List.length_append, number, List.length_singleton]
  exact splitAt.exists_of_map_squeeze (map_squeeze_lines source keepBreaks)

end ManifestLens.Yaml
