import ManifestLens.Editor.Edit
import ManifestLens.Proofs.Manifest.Fitting
import ManifestLens.Proofs.Manifest.Placement
import ManifestLens.Proofs.Manifest.Reach
import ManifestLens.Proofs.Manifest.Standing

/-!
# What an edit replaces

An edit of the value below a label starts behind the colon and ends with the first piece of the value: with the token
of a scalar, or where a block ends if that is on the line of the label, and otherwise with the start of the line on
which the block ends.  The tokens of a document lie in the order of its scalars (`ScalarReading.Bounds`, `Site`), so an
edit takes nothing from outside the value.  It takes all of the value exactly if the value starts behind the colon and
ends where the edit does (`Labelled.replaces_iff_closes`, `Labelled.start_le_stop_iff`), which fails for collections in
brackets or at the end of a text that end in the middle of a line.
-/

namespace ManifestLens

open Yaml (Mark Node)

variable {page : Page} {base p q : Position}

private theorem Text.length_dropBreak_le (line : List Char) : (Text.dropBreak line).length ≤ line.length := by
  rw [Text.dropBreak, List.length_reverse]
  exact (List.dropWhile_sublist _).length_le.trans_eq List.length_reverse

/-! ### Stretches of text -/

private theorem Position.le_trans {r : Position} (pq : p ≤ q) (qr : q ≤ r) : p ≤ r := by
  simp only [Position.le_def] at pq qr ⊢
  omega

namespace Range

/-- The character after the position is in the stretch. -/
def Holds (r : Range) (p : Position) : Prop :=
  r.start ≤ p ∧ ¬ r.stop ≤ p

/-- There is no character in the stretch. -/
def IsEmpty (r : Range) : Prop :=
  r.stop ≤ r.start

/-- An edit of a stretch that ends after its start replaces all characters of the ranges inside, and none of those of
the ranges outside. -/
structure Replaces (edit : Range) (inside outside : List Range) : Prop where
  ordered : edit.start ≤ edit.stop
  covers : ∀ r ∈ inside, ∀ p, r.Holds p → edit.Holds p
  spares : ∀ r ∈ outside, ∀ p, r.Holds p → ¬ edit.Holds p

variable {r edit : Range}

private theorem forall_holds_iff :
    (∀ p, r.Holds p → edit.Holds p) ↔ r.IsEmpty ∨ edit.start ≤ r.start ∧ r.stop ≤ edit.stop := by
  simp only [Holds, IsEmpty, Position.le_def]
  constructor
  · intro covers
    by_contra outside
    -- the first character, or the one after the end of the edit, is not in it
    have first := covers r.start
    have after := covers edit.stop
    omega
  · intro within p
    omega

private theorem not_holds (apart : r.IsEmpty ∨ r.stop ≤ edit.start ∨ edit.stop ≤ r.start) (mem : r.Holds p) :
    ¬ edit.Holds p := by
  simp only [Holds, IsEmpty, Position.le_def] at apart mem ⊢
  omega

end Range

/-- The characters of a token. -/
def Token.range (base : Position) (t : Token) : Range :=
  Outline.absoluteRange base (.token t none)

private theorem Token.range_eq (base : Position) (t : Token) :
    t.range base = ⟨t.place.absolute base 0, t.place.absolute base t.length⟩ :=
  rfl

/-- In a document that starts in the first column, a place is told by its own column. -/
private theorem Position.relativeTo_of_column (column : base.character = 0) :
    p.relativeTo base = ⟨p.line - base.line, p.character⟩ := by
  rw [relativeTo, mk.injEq]
  split <;> omega

private theorem Position.absolute_of_column {offset : Int} (column : base.character = 0) :
    (p.relativeTo base).absolute base offset = ⟨p.line, p.character + offset⟩ := by
  rw [relativeTo_of_column column, absolute, mk.injEq]
  dsimp only
  omega

/-! ### The tokens of a scalar -/

namespace ScalarReading

variable {r : ScalarReading} {found : Outlined} {t : Token}

/-- If the scalar is an expression on one line, then its tokens end in it. -/
def Contained (r : ScalarReading) : Prop :=
  r.isExpression = true → r.start.line = r.stop.line → ∀ s ∈ Expression.spans r.text.toList,
    r.page.equalsColumn r.start + s.1 + s.2.length ≤ r.stop.column

/-- How a stretch lies to the scalar of which it is a token: not before it, and if the scalar has several lines, above
the last one.  Only tokens of an expression on one line may end behind the scalar. -/
structure Bounds (r : ScalarReading) (range : Range) : Prop where
  start : r.start.position ≤ range.start
  line : range.stop.line ≤ r.stop.line
  above : r.start.line < r.stop.line → range.stop.line < r.stop.line
  stop : r.Contained → range.stop ≤ r.stop.position

private theorem Bounds.isEmpty {range : Range} (h : r.Bounds range) (empty : r.stop ≤ r.start)
    (contained : r.Contained) :
    range.IsEmpty :=
  Position.le_trans (h.stop contained) (Position.le_trans (Mark.position_le_iff.2 empty) h.start)

/-- The first token starts with the scalar; it ends with it, or on a line above its last. -/
private theorem bounds_first (column : r.page.anchor.character = 0)
    (place : t.place = r.start.position.relativeTo r.page.anchor)
    (upto : r.start.line < r.stop.line ∨ r.start.line = r.stop.line ∧ t.length = r.stop.column - r.start.column) :
    r.Bounds (t.range r.page.anchor) := by
  rw [Token.range_eq, place, Position.absolute_of_column column, Position.absolute_of_column column]
  constructor <;> simp only [Position.le_def, Mark.position, true_and] <;> omega

/-- Further tokens stand below the first line of the scalar and above its last. -/
private theorem bounds_further {lines : List Int} (down : GoesDown (r.start.line + 1) (r.stop.line - 1) lines)
    (isLine : (t.rangeStart r.page.anchor).line ∈ lines) : r.Bounds (t.range r.page.anchor) := by
  obtain ⟨below, above⟩ := down.within _ isLine
  have above : (t.range r.page.anchor).stop.line < r.stop.line := Int.le_sub_one_iff.1 above
  exact ⟨.inl (Int.add_one_le_iff.1 below), Int.le_of_lt above, fun _ => above, fun _ => .inl above⟩

private theorem bounds_of_expression (made : r.outlined = .ok found) (isExpression : r.isExpression = true)
    (column : r.page.anchor.character = 0) (ordered : r.start.line ≤ r.stop.line)
    (mem : t ∈ Outline.flattenAll found.1) : r.Bounds (t.range r.page.anchor) := by
  rw [outlined, isExpression] at made
  obtain ⟨tokens, last, madeTokens, _, rfl⟩ := Page.expression_eq_ok made
  rw [flattenAll_block] at mem
  by_cases oneLine : r.start.line = r.stop.line
  · rw [if_pos oneLine] at madeTokens
    have placed := List.mem_map_of_mem (f := fun t => (t.place.absolute r.page.anchor 0, t.length)) mem
    rw [Page.map_span_lineExpression madeTokens] at placed
    obtain ⟨s, isSpan, placed⟩ := List.mem_map.1 placed
    obtain ⟨isStart, isLength⟩ := Prod.mk.inj placed
    have after : r.start.column ≤ r.page.equalsColumn r.start := Nat.le_add_right _ _
    have isStop : (t.range r.page.anchor).stop =
        ⟨r.start.line, r.page.equalsColumn r.start + s.1 + s.2.length⟩ := by
      rw [Position.absolute, Position.mk.injEq] at isStart
      show t.place.absolute r.page.anchor t.length = _
      rw [Position.absolute, ← isLength, Position.mk.injEq]
      omega
    refine ⟨?_, ?_, fun several => absurd oneLine several.ne, fun contained => ?_⟩
    · rw [Token.range_eq, ← isStart]
      simp only [Position.le_def, Mark.position, true_and]
      omega
    · rw [isStop, oneLine]
    · have inside := contained isExpression oneLine s isSpan
      rw [isStop]
      simp only [Position.le_def, Mark.position]
      omega
  · rw [if_neg oneLine] at madeTokens
    have inside := Page.map_absolute_blockExpression madeTokens
    obtain ⟨line, lexed, _, _, rfl⟩ := Page.blockExpression_eq_ok madeTokens
    rcases List.mem_cons.1 mem with rfl | mem
    · exact bounds_first column rfl (.inl (by omega))
    · have short : (r.page.inside r.start r.stop).length ≤ r.stop.line - (r.start.line + 1) := List.length_take_le _ _
      have down : GoesDown (r.start.line + 1) (r.stop.line - 1)
          ((Expression.placesFrom (r.start.line + 1) (r.page.inside r.start r.stop)).map Position.line) :=
        Expression.goesDown_placesFrom (by omega)
      refine bounds_further down ?_
      rw [← inside]
      exact List.mem_map_of_mem (List.mem_map_of_mem mem)

private theorem bounds_of_plain (made : r.outlined = .ok found) (plain : r.isExpression = false)
    (column : r.page.anchor.character = 0) (ordered : r.start.line ≤ r.stop.line)
    (mem : t ∈ Outline.flattenAll found.1) : r.Bounds (t.range r.page.anchor) := by
  rw [outlined, plain] at made
  obtain ⟨token, others, ⟨length, localKey, indexKey, isLength, _, _, rfl⟩, madeOthers, rfl⟩ := Page.scalar_eq_ok made
  have isToken : t ∈ r.page.firstToken r.entry r.start r.last length localKey indexKey r.remark :: others := by
    split at mem
    · exact List.mem_cons.2 (.inl (List.mem_singleton.1 mem))
    · rwa [flattenAll_block] at mem
  rcases List.mem_cons.1 isToken with rfl | mem
  · refine bounds_first column rfl ?_
    rcases Page.firstLength_eq_ok isLength with ⟨oneLine, isLength⟩ | ⟨several, _⟩
    · exact .inr ⟨oneLine, isLength⟩
    · exact .inl (by omega)
  · have several : r.start.line < r.stop.line := by
      by_contra single
      have none : r.stop.line - r.start.line - 1 = 0 := by omega
      rw [none] at madeOthers
      cases madeOthers
      cases mem
    have below : (r.start.line + 1 : Nat) + (r.stop.line - r.start.line - 1 : Nat) ≤ (r.stop.line - 1 : Int) + 1 := by
      omega
    exact bounds_further (Page.goesDown_furtherTokens madeOthers below) (List.mem_map_of_mem mem)

/-- An expression on one line of a text takes a place. -/
private theorem not_stop_le_start {source : String} (isScalar : Yaml.IsScalarOf source.toList r.source)
    (expression : r.isExpression = true) (oneLine : r.start.line = r.stop.line) : ¬ r.stop ≤ r.start := by
  have isSign := head_of_isExpression expression
  obtain ⟨allowed, hasOrigin⟩ := isScalar.hasOrigin
  have written : r.text ≠ "" := by
    intro empty
    rw [empty] at isSign
    cases isSign
  obtain ⟨heading, t, isOrigin⟩ := hasOrigin.resolve_left fun empty => written empty.1
  obtain ⟨before, head, body, after, style, -, starts, -, stops, -, spelled⟩ :=
    isOrigin.exists_line allowed oneLine (squeeze_ne_nil isSign) true
  have takes : 0 < body.countP (· != '\ufeff') := by
    rw [List.countP_pos_iff]
    cases spelled with
    | plain => exact ⟨'=', List.mem_of_mem_head? isSign, rfl⟩
    | quoted double => exact ⟨_, List.mem_cons_self, by cases double <;> rfl⟩
  have isStop : r.stop = t.stop := isOrigin.stop
  have isStart : before.countP (· != '\ufeff') = r.start.column := starts
  rw [List.countP_append, List.countP_append, isStart, ← isStop] at stops
  rw [Mark.le_def]
  omega

end ScalarReading

/-- A scalar is one token, or a block that covers it.  If it is no expression, then it is one token exactly if it has no
line between its first and its last. -/
private theorem ScalarReading.outline_cases {r : ScalarReading} {found : Outlined} (made : r.outlined = .ok found) :
    (∃ t, found.1 = [.token t none] ∧ r.isExpression = false ∧ r.stop.line ≤ r.start.line + 1 ∧
      t.place = r.start.position.relativeTo r.page.anchor ∧ r.page.firstLength r.start r.stop = .ok t.length) ∨
    ∃ localKey indexKey, ∃ tokens : List Token, found.1 = [.block localKey indexKey (r.page.range r.start r.stop)
      (some (tokens.map fun t => .token t none))] ∧ (r.isExpression = false → r.start.line + 1 < r.stop.line) := by
  rcases outlined_cases made with
    ⟨expression, tokens, form, _⟩ | ⟨plain, length, localKey, indexKey, first, others, isLength, isFirst, form⟩
  · exact .inr ⟨none, none, tokens, form, fun plain => absurd (expression.symm.trans plain) Bool.noConfusion⟩
  · rw [form]
    split
    · refine .inl ⟨first, rfl, plain, by omega, ?_, ?_⟩
      · rw [isFirst]
        rfl
      · rw [isLength, isFirst]
        rfl
    · exact .inr ⟨localKey, indexKey, first :: others, rfl, fun _ => by omega⟩

namespace Piece

/-- A token of a piece is one of a scalar. -/
private theorem Made.exists_outlined {piece : Piece} (h : piece.Made page) {t : Token} (mem : t ∈ piece.tokens) :
    ∃ r parts found, piece = .scalar r parts ∧ r.page = page ∧ r.outlined = .ok found ∧
      t ∈ Outline.flattenAll found.1 := by
  cases h with
  | value onPage notKey made =>
    refine ⟨_, _, _, rfl, onPage, made, ?_⟩
    rwa [Outline.flattenAll_eq_filterMap]
  | @key r found children onPage isKey made =>
    refine ⟨r, _, found, rfl, onPage, made, ?_⟩
    obtain ⟨o, isOne⟩ := ScalarReading.outlined_eq_singleton made
    rw [Piece.tokens, Piece.parts, isOne] at mem
    rw [isOne]
    cases o with
    | token isKept children =>
      cases List.mem_singleton.1 mem
      cases children <;> exact List.mem_cons_self
    | block => cases mem
    | anchor => cases mem
  | block => cases mem

/-- The first part of a piece is a token, of a scalar without a line between its first and its last, or a block that
covers the piece. -/
private theorem Made.head_cases {piece : Piece} (h : piece.Made page) :
    (∃ r t children, piece = .scalar r [.token t children] ∧ r.page = page ∧ r.isExpression = false ∧
      r.stop.line ≤ r.start.line + 1 ∧ t.place = r.start.position.relativeTo page.anchor ∧
      page.firstLength r.start r.stop = .ok t.length) ∨
    ∃ localKey indexKey children rest,
      piece.parts = .block localKey indexKey (page.range piece.start piece.stop) children :: rest ∧
        ∀ r parts, piece = .scalar r parts → r.isExpression = false → r.start.line + 1 < r.stop.line := by
  cases h with
  | @value r found onPage notKey made =>
    subst onPage
    rcases ScalarReading.outline_cases made with
      ⟨t, form, plain, short, place, length⟩ | ⟨localKey, indexKey, tokens, form, long⟩
    · exact .inl ⟨r, t, none, by rw [form]; rfl, rfl, plain, short, place, length⟩
    · refine .inr ⟨localKey, indexKey, _, _, by rw [parts, form]; rfl, ?_⟩
      rintro _ _ ⟨⟩
      exact long
  | @key r found children onPage isKey made =>
    subst onPage
    rcases ScalarReading.outline_cases made with
      ⟨t, form, plain, short, place, length⟩ | ⟨localKey, indexKey, tokens, form, long⟩
    · exact .inl ⟨r, t, some children, by rw [form]; rfl, rfl, plain, short, place, length⟩
    · refine .inr ⟨localKey, indexKey, _, _, by rw [parts, form]; rfl, ?_⟩
      rintro _ _ ⟨⟩
      exact long
  | block => exact .inr ⟨_, _, _, [], rfl, fun _ _ h => by cases h⟩

end Piece

/-! ### Where an edit starts and ends -/

/-- The stretch that an edit of the value below a label replaces. -/
def Token.edit (base : Position) (label : Token) (value : Outline) : Range :=
  (TextEdit.extent base (.token label (some [value])) value).2

/-- In a document that starts in the first column, an edit of a block ends where the block does if that is on the line
of the label, and otherwise with the start of its last line. -/
private theorem TextEdit.stop_block (column : page.anchor.character = 0) {start stop : Mark} {line : Nat}
    {localKey indexKey : Option String} {children : Option (List Outline)} :
    TextEdit.stop page.anchor line (.block localKey indexKey (page.range start stop) children) =
      ⟨stop.line, if stop.line = line then stop.column else 0⟩ := by
  rw [TextEdit.stop, Page.range, Position.relativeTo_of_column column, Position.relativeTo_of_column column,
    Position.mk.injEq]
  dsimp only [Mark.position]
  exact ⟨Int.sub_add_cancel _ _, if_congr ((Int.sub_add_cancel _ _).congr_left.trans Int.natCast_inj) rfl rfl⟩

/-- The stretches of the tokens of pieces. -/
def rangesOf (base : Position) (pieces : List Piece) : List Range :=
  (pieces.flatMap Piece.tokens).map (Token.range base)

private theorem Outline.flatten_eq_of_preorder {o : Outline} {pieces : List Piece}
    (h : o.preorder = pieces.flatMap Piece.parts) : o.flatten = pieces.flatMap Piece.tokens := by
  rw [Outline.flatten_eq_filterMap, h, List.filterMap_flatMap]
  rfl

private theorem rangesOf_cons (base : Position) (piece : Piece) (pieces : List Piece) :
    rangesOf base (piece :: pieces) = piece.tokens.map (Token.range base) ++ rangesOf base pieces := by
  rw [rangesOf, List.flatMap_cons, List.map_append, rangesOf]

private theorem rangesOf_append (base : Position) (a b : List Piece) :
    rangesOf base (a ++ b) = rangesOf base a ++ rangesOf base b := by
  rw [rangesOf, List.flatMap_append, List.map_append, rangesOf, rangesOf]

/-- An edit from a line on that ends with the piece, or with the start of its last line, ends behind the ranges.  A
scalar has nothing behind it but what takes no place. -/
def Piece.Closes (line : Nat) (ranges : List Range) : Piece → Prop
  | .scalar _ _ => ∀ range ∈ ranges, range.IsEmpty
  | .block n _ => n.stop.line = line ∨ ∀ range ∈ ranges, range.IsEmpty ∨ range.stop ≤ ⟨n.stop.line, 0⟩

/-- A key on one line with its value below it, among the pieces of a document that starts in the first column: `own` is
the first piece of the value, and no expression. -/
structure Labelled (page : Page) (pieces front : List Piece) (key : ScalarReading) (label : Token) (value : Outline)
    (own : Piece) (below back : List Piece) : Prop where
  split : pieces = front ++ .scalar key [.token label (some [value])] :: (own :: below ++ back)
  isValue : value.preorder = (own :: below).flatMap Piece.parts
  oneLine : key.start.line = key.stop.line
  plain : ∀ r parts, own = .scalar r parts → r.isExpression = false
  column : page.anchor.character = 0
  made : ∀ piece ∈ pieces, piece.Made page
  ordered : ∀ r ∈ scalarsOf pieces, r.start ≤ r.stop
  contained : ∀ r ∈ scalarsOf pieces, r.start.line = key.start.line ∨ r.stop ≤ r.start → r.Contained
  site : Site front key own below back

namespace Labelled

variable {pieces front below back : List Piece} {key : ScalarReading} {label : Token} {value : Outline} {own : Piece}

private theorem mem_key (h : Labelled page pieces front key label value own below back) :
    .scalar key [.token label (some [value])] ∈ pieces := by
  simp [h.split]

private theorem subset (h : Labelled page pieces front key label value own below back) :
    front ⊆ pieces ∧ own :: below ⊆ pieces ∧ back ⊆ pieces := by
  have behind : own :: below ++ back ⊆ pieces := by
    rw [h.split]
    exact List.subset_append_of_subset_right _ (List.subset_cons_self _ _)
  refine ⟨?_, List.Subset.trans (List.subset_append_left _ _) behind,
    List.Subset.trans (List.subset_append_right _ _) behind⟩
  rw [h.split]
  exact List.subset_append_left _ _

private theorem mem_own (h : Labelled page pieces front key label value own below back) : own ∈ pieces :=
  h.subset.2.1 List.mem_cons_self

/-- The tokens of some of the pieces are where their scalars are. -/
private theorem exists_bounds (h : Labelled page pieces front key label value own below back) {some : List Piece}
    (sub : some ⊆ pieces) {range : Range} (mem : range ∈ rangesOf page.anchor some) :
    ∃ r parts, .scalar r parts ∈ some ∧ parts ≠ [] ∧ r.Bounds range := by
  obtain ⟨t, isToken, rfl⟩ := List.mem_map.1 mem
  obtain ⟨piece, isPiece, mem⟩ := List.mem_flatMap.1 isToken
  obtain ⟨r, parts, found, rfl, rfl, made, isToken⟩ := (h.made piece (sub isPiece)).exists_outlined mem
  have ordered := h.ordered r (mem_scalarsOf.2 ⟨parts, sub isPiece⟩)
  rw [Mark.le_def] at ordered
  refine ⟨r, parts, isPiece, ?_, ?_⟩
  · rintro rfl
    cases mem
  · cases isExpression : r.isExpression with
    | true => exact ScalarReading.bounds_of_expression made isExpression h.column (by omega) isToken
    | false => exact ScalarReading.bounds_of_plain made isExpression h.column (by omega) isToken

private theorem label_range (h : Labelled page pieces front key label value own below back) :
    label.range page.anchor = ⟨key.start.position, key.stop.position⟩ := by
  rcases (h.made _ h.mem_key).head_cases with ⟨r, t, children, same, _, _, _, place, length⟩ | ⟨_, _, _, _, form, _⟩
  · cases same
    obtain ⟨-, isLength⟩ := (Page.firstLength_eq_ok length).resolve_right fun several => several.1 h.oneLine
    have line := h.oneLine
    rw [Token.range_eq, place, Position.absolute_of_column h.column, Position.absolute_of_column h.column, isLength]
    simp only [Range.mk.injEq, Position.mk.injEq, Mark.position, true_and]
    omega
  · cases form

/-- An edit starts behind the colon after the label. -/
private theorem edit_start (h : Labelled page pieces front key label value own below back) :
    (label.edit page.anchor value).start = ⟨key.start.line, key.stop.column + 1⟩ := by
  have isStop := congrArg Range.stop h.label_range
  have line := h.oneLine
  simp only [Token.range_eq, Position.absolute, Mark.position, Position.mk.injEq] at isStop
  show label.place.absolute page.anchor (label.length + 1) = _
  rw [Position.absolute, Position.mk.injEq]
  omega

private theorem edit_stop_block (h : Labelled page pieces front key label value own below back) {start stop : Mark}
    {localKey indexKey : Option String} {children : Option (List Outline)}
    (isBlock : value = .block localKey indexKey (page.range start stop) children) :
    (label.edit page.anchor value).stop = ⟨stop.line, if stop.line = key.start.line then stop.column else 0⟩ := by
  rw [← TextEdit.stop_block h.column, ← isBlock]
  have isLine := congrArg Position.line h.edit_start
  dsimp only at isLine
  rw [← isLine]
  rfl

/-- The value is the token of a scalar without a line between its first and its last, with which an edit ends, or a
block that covers the first piece. -/
private theorem value_cases (h : Labelled page pieces front key label value own below back) :
    (∃ r t, (∃ children, own = .scalar r [.token t children]) ∧ r.stop.line ≤ r.start.line + 1 ∧
      t.place = r.start.position.relativeTo page.anchor ∧ page.firstLength r.start r.stop = .ok t.length ∧
      (label.edit page.anchor value).stop = (t.range page.anchor).stop) ∨
    (label.edit page.anchor value).stop =
      ⟨own.stop.line, if own.stop.line = key.start.line then own.stop.column else 0⟩ ∧
      ∀ r parts, own = .scalar r parts → r.start.line + 1 < r.stop.line := by
  obtain ⟨rest, isFirst⟩ := Outline.exists_preorder_eq value
  have isValue := h.isValue
  rw [isFirst, List.flatMap_cons] at isValue
  rcases (h.made own h.mem_own).head_cases with
    ⟨r, t, children, rfl, rfl, _, short, place, length⟩ | ⟨localKey, indexKey, children, others, form, long⟩
  · cases isValue
    exact .inl ⟨r, t, ⟨children, rfl⟩, short, place, length, rfl⟩
  · rw [form] at isValue
    obtain ⟨isBlock, -⟩ := List.cons.inj isValue
    exact .inr ⟨h.edit_stop_block isBlock, fun r parts isScalar => long r parts isScalar (h.plain r parts isScalar)⟩

private theorem edit_stop_of_block {n : Node} {part : Outline}
    (h : Labelled page pieces front key label value (.block n part) below back) :
    (label.edit page.anchor value).stop = ⟨n.stop.line, if n.stop.line = key.start.line then n.stop.column else 0⟩ := by
  rcases h.value_cases with ⟨_, _, ⟨_, ⟨⟩⟩, _⟩ | ⟨isStop, _⟩
  exact isStop

private theorem contained_of_own (h : Labelled page pieces front key label value own below back) {r : ScalarReading}
    {parts : List Outline} (isOwn : own = .scalar r parts) : r.Contained :=
  fun expression => absurd ((h.plain r parts isOwn).symm.trans expression) Bool.noConfusion

private theorem bounds_of_own (h : Labelled page pieces front key label value own below back) {range : Range}
    (mem : range ∈ own.tokens.map (Token.range page.anchor)) : ∃ r parts, own = .scalar r parts ∧ r.Bounds range := by
  have sub : [own] ⊆ pieces := List.cons_subset.2 ⟨h.mem_own, List.nil_subset _⟩
  obtain ⟨r, parts, isOwn, _, bounds⟩ := h.exists_bounds sub (by rwa [rangesOf, List.flatMap_singleton])
  exact ⟨r, parts, (List.mem_singleton.1 isOwn).symm, bounds⟩

/-- An edit does not go beyond the first piece of the value. -/
private theorem edit_stop_le (h : Labelled page pieces front key label value own below back) :
    (label.edit page.anchor value).stop ≤ own.stop.position := by
  rcases h.value_cases with ⟨r, t, ⟨children, isOwn⟩, _, _, _, isStop⟩ | ⟨isStop, _⟩
  · have isRange : t.range page.anchor ∈ own.tokens.map (Token.range page.anchor) := by
      rw [isOwn]
      exact List.mem_singleton.2 rfl
    obtain ⟨s, parts, isScalar, bounds⟩ := h.bounds_of_own isRange
    rw [isStop, isScalar]
    exact bounds.stop (h.contained_of_own isScalar)
  · rw [isStop]
    simp only [Position.le_def, Mark.position, true_and]
    split <;> omega

/-- What stands before the label ends before the edit starts. -/
private theorem stop_le_of_front (h : Labelled page pieces front key label value own below back) {range : Range}
    (mem : range ∈ rangesOf page.anchor front) : range.stop ≤ (label.edit page.anchor value).start := by
  obtain ⟨r, parts, isPiece, _, bounds⟩ := h.exists_bounds h.subset.1 mem
  have mem := mem_scalarsOf.2 ⟨parts, h.subset.1 isPiece⟩
  have before := h.site.front r (mem_scalarsOf.2 ⟨parts, isPiece⟩)
  have ordered := h.ordered r mem
  have oneLine := h.oneLine
  have keyOrdered := h.ordered key (mem_scalarsOf.2 ⟨_, h.mem_key⟩)
  rw [h.edit_start]
  -- only a scalar that started on the line of the key could reach over it
  by_cases onLine : r.start.line = key.start.line
  · have inside := bounds.stop (h.contained r mem (.inl onLine))
    simp only [Position.le_def, Mark.le_def, Mark.position] at *
    omega
  · have line := bounds.line
    have above := bounds.above
    simp only [Position.le_def, Mark.le_def] at *
    omega

/-- What stands after the value starts behind the edit, if it takes a place. -/
private theorem le_start_of_back (h : Labelled page pieces front key label value own below back) {range : Range}
    (mem : range ∈ rangesOf page.anchor back) :
    range.IsEmpty ∨ (label.edit page.anchor value).stop ≤ range.start := by
  obtain ⟨r, parts, isPiece, _, bounds⟩ := h.exists_bounds h.subset.2.2 mem
  rcases h.site.behind r (mem_scalarsOf.2 ⟨parts, isPiece⟩) with empty | behind
  · exact .inl (bounds.isEmpty empty (h.contained r (mem_scalarsOf.2 ⟨parts, h.subset.2.2 isPiece⟩) (.inr empty)))
  · exact .inr (Position.le_trans h.edit_stop_le (Position.le_trans (Mark.position_le_iff.2 behind) bounds.start))

/-- What the value holds starts in the edit, if it takes a place. -/
private theorem start_le_of_inside (h : Labelled page pieces front key label value own below back) {range : Range}
    (mem : range ∈ rangesOf page.anchor (own :: below)) :
    range.IsEmpty ∨ (label.edit page.anchor value).start ≤ range.start := by
  obtain ⟨r, parts, isPiece, _, bounds⟩ := h.exists_bounds h.subset.2.1 mem
  rcases h.site.inside r (mem_scalarsOf.2 ⟨parts, isPiece⟩) with empty | behind
  · exact .inl (bounds.isEmpty empty (h.contained r (mem_scalarsOf.2 ⟨parts, h.subset.2.1 isPiece⟩) (.inr empty)))
  · have line := h.oneLine
    have start := bounds.start
    rw [h.edit_start]
    simp only [Position.le_def, Mark.lt_def, Mark.position] at *
    omega

/-- Where what the value holds has to end for an edit to replace it. -/
private theorem stop_le_iff_closes (h : Labelled page pieces front key label value own below back) :
    (∀ range ∈ rangesOf page.anchor (own :: below),
        range.IsEmpty ∨ range.stop ≤ (label.edit page.anchor value).stop) ↔
      own.Closes key.start.line (rangesOf page.anchor below) := by
  rw [rangesOf_cons, List.forall_mem_append]
  have sub : below ⊆ pieces := List.Subset.trans (List.subset_cons_self _ _) h.subset.2.1
  cases own with
  | scalar r parts =>
    -- an edit ends with the scalar, or with the line above its last; what is below the scalar starts behind it
    have inOwn : ∀ range ∈ (Piece.scalar r parts).tokens.map (Token.range page.anchor),
        range.IsEmpty ∨ range.stop ≤ (label.edit page.anchor value).stop := by
      intro range mem
      refine .inr ?_
      rcases h.value_cases with ⟨s, t, ⟨children, isOwn⟩, _, _, _, isStop⟩ | ⟨isStop, long⟩
      · cases isOwn
        cases List.mem_singleton.1 mem
        rw [isStop]
        exact .inr ⟨rfl, Int.le_refl _⟩
      · obtain ⟨_, _, ⟨⟩, bounds⟩ := h.bounds_of_own mem
        have long := long r parts rfl
        have above := bounds.above (by omega)
        rw [isStop]
        exact .inl above
    refine (and_iff_right inOwn).trans (forall₂_congr fun range mem => ?_)
    refine or_iff_left_of_imp fun upto => ?_
    obtain ⟨s, others, isPiece, _, bounds⟩ := h.exists_bounds sub mem
    have behind := h.site.scalar r parts rfl s (mem_scalarsOf.2 ⟨others, isPiece⟩)
    exact Position.le_trans upto (Position.le_trans h.edit_stop_le
      (Position.le_trans (Mark.position_le_iff.2 behind) bounds.start))
  | block n part =>
    have inOwn : ∀ range ∈ (Piece.block n part).tokens.map (Token.range page.anchor),
        range.IsEmpty ∨ range.stop ≤ (label.edit page.anchor value).stop := by
      intro range mem
      obtain ⟨_, _, ⟨⟩, _⟩ := h.bounds_of_own mem
    rw [and_iff_right inOwn]
    rw [h.edit_stop_of_block]
    by_cases onLine : n.stop.line = key.start.line
    · refine iff_of_true (fun range mem => ?_) (.inl onLine)
      obtain ⟨s, parts, isPiece, some, bounds⟩ := h.exists_bounds sub mem
      have mem := mem_scalarsOf.2 ⟨parts, sub isPiece⟩
      obtain ⟨_, _, upto⟩ := h.site.block n part rfl
      rcases upto s parts isPiece some with empty | upto
      · exact .inl (bounds.isEmpty empty (h.contained s mem (.inr empty)))
      rcases h.site.inside s (mem_scalarsOf.2 ⟨parts, List.mem_cons_of_mem _ isPiece⟩) with empty | behind
      · exact .inl (bounds.isEmpty empty (h.contained s mem (.inr empty)))
      -- the scalar stands between the label and the end of the block, which are on one line
      have oneLine := h.oneLine
      have ordered := h.ordered s mem
      have isLine : s.start.line = key.start.line := by
        rw [Mark.le_def] at upto ordered
        rw [Mark.lt_def] at behind
        omega
      have inside := bounds.stop (h.contained s mem (.inl isLine))
      rw [if_pos onLine]
      exact .inr (Position.le_trans inside (Mark.position_le_iff.2 upto))
    · rw [if_neg onLine]
      exact (or_iff_right onLine).symm

/-- An edit replaces what the value holds, and nothing else, exactly if it does not end before it starts and what the
value holds ends in it. -/
theorem replaces_iff_closes (h : Labelled page pieces front key label value own below back) :
    (label.edit page.anchor value).Replaces (rangesOf page.anchor (own :: below))
        (rangesOf page.anchor (front ++ .scalar key [.token label (some [value])] :: back)) ↔
      (label.edit page.anchor value).start ≤ (label.edit page.anchor value).stop ∧
        own.Closes key.start.line (rangesOf page.anchor below) := by
  rw [← h.stop_le_iff_closes]
  constructor
  · intro replaces
    refine ⟨replaces.ordered, fun range mem => ?_⟩
    exact (Range.forall_holds_iff.1 (replaces.covers range mem)).imp_right And.right
  · rintro ⟨ordered, upto⟩
    refine ⟨ordered, fun range mem => Range.forall_holds_iff.2 ?_, fun range mem p => Range.not_holds ?_⟩
    · exact or_and_left.2 ⟨h.start_le_of_inside mem, upto range mem⟩
    · rw [rangesOf_append, rangesOf_cons, List.mem_append, List.mem_append] at mem
      rcases mem with before | isLabel | behind
      · exact .inr (.inl (h.stop_le_of_front before))
      · rw [List.mem_singleton.1 isLabel, h.label_range, h.edit_start, h.oneLine]
        exact .inr (.inl (.inr ⟨rfl, Int.le_add_one (Int.le_refl _)⟩))
      · exact (h.le_start_of_back behind).imp_right .inr

/-- An edit does not end before it starts exactly if the value starts behind the colon. -/
theorem start_le_stop_iff (h : Labelled page pieces front key label value own below back)
    (filled : ¬ key.stop ≤ key.start) (within : ∀ r ∈ scalarsOf pieces, r.start.Within page.lines) :
    (label.edit page.anchor value).start ≤ (label.edit page.anchor value).stop ↔ key.stop < own.start := by
  have oneLine := h.oneLine
  rw [h.edit_start]
  rcases h.value_cases with ⟨r, t, ⟨children, rfl⟩, _, place, isLength, isStop⟩ | ⟨isStop, long⟩
  · have inside := h.site.inside r (mem_scalarsOf.2 ⟨_, List.mem_cons_self⟩)
    have mem := mem_scalarsOf.2 ⟨_, h.mem_own⟩
    have ordered := h.ordered r mem
    have isRange : (t.range page.anchor).stop = ⟨r.start.line, r.start.column + t.length⟩ := by
      show t.place.absolute page.anchor t.length = _
      rw [place, Position.absolute_of_column h.column]
      rfl
    rw [isStop, isRange]
    simp only [Position.le_def, Mark.le_def, Mark.lt_def, Piece.start] at filled inside ordered ⊢
    rcases Page.firstLength_eq_ok isLength with ⟨sameLine, isLength⟩ | ⟨several, text, isLine, isLength⟩
    · omega
    · -- the token goes up to the end of the line on which the scalar starts
      have column := (within r mem).column
      rw [isLine, Option.getD_some] at column
      have shorter := Text.length_dropBreak_le text
      omega
  · cases own with
    | scalar r parts =>
      have inside := h.site.inside r (mem_scalarsOf.2 ⟨_, List.mem_cons_self⟩)
      have long := long r parts rfl
      rw [isStop]
      simp only [Position.le_def, Mark.le_def, Mark.lt_def, Piece.start, Piece.stop] at inside ⊢
      omega
    | block n part =>
      obtain ⟨ordered, place, _⟩ := h.site.block n part rfl
      have place := place filled
      rw [h.edit_stop_of_block]
      by_cases onLine : n.stop.line = key.start.line
      · rw [if_pos onLine]
        simp only [Position.le_def, Mark.le_def, Mark.lt_def, Piece.start] at ordered place ⊢
        omega
      · rw [if_neg onLine]
        simp only [Position.le_def, Mark.le_def, Mark.lt_def, Piece.start] at ordered place ⊢
        omega

end Labelled

/-! ### Documents -/

/-- A token with children is all there is of a key. -/
private theorem Piece.Made.eq_of_token {piece : Piece} (h : piece.Made page) {t : Token} {children : List Outline}
    (mem : .token t (some children) ∈ piece.parts) : ∃ key, piece = .scalar key [.token t (some children)] := by
  cases h with
  | value onPage notKey made => exact absurd mem (token_not_mem_parts made)
  | @key r found others onPage isKey made =>
    obtain ⟨o, isOne⟩ := ScalarReading.outlined_eq_singleton made
    rw [parts, isOne] at mem
    rw [isOne]
    exact ⟨r, by rw [List.mem_singleton.1 mem]; rfl⟩
  | block => cases List.mem_singleton.1 mem

/-- In a document that starts in the first column, with its scalars in the order of the text and its nodes as they
stand in it, each label with one value below it is a key, and behind it come the pieces of its value, the first of them
`own`.  Let the key be on one line, the value no expression, and let expressions on the line of the key end where they
stand, as they do if nothing in them is escaped.  Then an edit replaces what the value holds and nothing else exactly
if it does not end before it starts, nothing below a scalar takes a place, and nothing of a block that ends on another
line stands on that line.  An edit after a key that takes a place does not end before it starts exactly if the value
starts behind the colon. -/
theorem edit_replaces_value_iff {source : String} {kinds : List (String × Slot)} {state next : FileReading}
    {document : Yaml.Document} {root : Node} {data : Value} {S T : Schema} {manifest : Manifest}
    (read : (readDocument (.ofText source true) kinds state document).runFrom S = (.ok (some manifest, next), T))
    (isDocument : document ∈ (Yaml.DocumentStream.ofText source.toList).documents)
    (isRoot : Yaml.valueOf source.toList document.root = .ok (root, data))
    (stands : root = document.root ∨ root.Stands [] default) (column : root.start.column = 0)
    (order : InOrder .origin root.scalars) :
    ∃ page slot pieces, page = ⟨Text.keptLines source.toList, manifest.anchor.absolute⟩ ∧
      Reads page (.root slot root) S state.last pieces (manifest.anchor.parts, next.last) T ∧
      (∀ r ∈ scalarsOf pieces, r.Verbatim source → r.Contained) ∧
      (∀ label value, .token label (some [value]) ∈ Outline.preorderAll manifest.anchor.parts →
        ∃ front key tail, pieces = front ++ .scalar key [.token label (some [value])] :: tail) ∧
      ∀ front key label value tail, pieces = front ++ .scalar key [.token label (some [value])] :: tail →
        key.start.line = key.stop.line →
        ∃ own below back, tail = own :: below ++ back ∧ value.preorder = (own :: below).flatMap Piece.parts ∧
          ((∀ r parts, own = .scalar r parts → r.isExpression = false) →
            (∀ r ∈ scalarsOf pieces, r.start.line = key.start.line → r.Contained) →
            ((label.edit page.anchor value).Replaces (value.flatten.map (Token.range page.anchor))
                (rangesOf page.anchor (front ++ .scalar key [.token label (some [value])] :: back)) ↔
              (label.edit page.anchor value).start ≤ (label.edit page.anchor value).stop ∧
                own.Closes key.start.line (rangesOf page.anchor below)) ∧
            (¬ key.stop ≤ key.start →
              ((label.edit page.anchor value).start ≤ (label.edit page.anchor value).stop ↔
                key.stop < own.start))) := by
  obtain ⟨root', _, page, slot, pieces, isRoot', isPage, anchor, reads⟩ := exists_reads_of_readDocument read
  obtain ⟨rfl, -⟩ := Prod.mk.inj (Except.ok.inj (isRoot.symm.trans isRoot'))
  have onPage : page.lines = (Text.lines source true).map String.toList := by rw [isPage]; rfl
  have kept : page.lines = Text.keptLines source.toList := by
    rw [onPage, Text.lines, List.map_map]
    simp
  have sources : (scalarsOf pieces).map ScalarReading.source = root.scalars := reads.map_source_scalarsOf
  have isScalar : ∀ r ∈ scalarsOf pieces, Yaml.IsScalarOf source.toList r.source := fun r mem =>
    ⟨document, isDocument, root, data, isRoot, sources ▸ List.mem_map_of_mem mem⟩
  have atStart : page.anchor.character = 0 := by
    rw [isPage]
    exact Int.natCast_eq_zero.2 column
  have ordered : ∀ r ∈ scalarsOf pieces, r.start ≤ r.stop := fun r mem =>
    order.marks.1 r.source (sources ▸ List.mem_map_of_mem mem)
  have stands : root.Stands [] default := by
    rcases stands with rfl | stands
    · exact Yaml.DocumentStream.stands_of_mem_ofText isDocument
    · exact stands
  refine ⟨page, slot, pieces, by rw [← kept, anchor], reads, ?_, ?_, ?_⟩
  · intro r mem verbatim expression oneLine s isSpan
    exact verbatim.ends (isScalar r mem) (reads.forall_page r mem ▸ onPage) expression oneLine isSpan
  · intro label value mem
    rw [reads.preorderAll_eq] at mem
    obtain ⟨piece, isPiece, mem⟩ := List.mem_flatMap.1 mem
    obtain ⟨key, rfl⟩ := (reads.forall_made piece isPiece).eq_of_token mem
    obtain ⟨front, tail, split⟩ := List.append_of_mem isPiece
    exact ⟨front, key, tail, split⟩
  · intro front key label value tail split oneLine
    obtain ⟨own, below, back, rfl, isValue, site⟩ := reads.exists_site stands order split
    refine ⟨own, below, back, rfl, isValue, fun plain contained => ?_⟩
    have inOrEmpty : ∀ r ∈ scalarsOf pieces, r.start.line = key.start.line ∨ r.stop ≤ r.start → r.Contained := by
      rintro r mem (onLine | empty)
      · exact contained r mem onLine
      · intro expression single
        exact absurd empty (ScalarReading.not_stop_le_start (isScalar r mem) expression single)
    have labelled : Labelled page pieces front key label value own below back :=
      ⟨split, isValue, oneLine, plain, atStart, reads.forall_made, ordered, inOrEmpty, site⟩
    rw [Outline.flatten_eq_of_preorder isValue]
    refine ⟨labelled.replaces_iff_closes, fun filled => labelled.start_le_stop_iff filled fun r mem => ?_⟩
    rw [kept]
    exact (isScalar r mem).within.1

/-- The labels of a document that have one value below them. -/
private def Manifest.labels (m : Manifest) : List (Token × Outline) :=
  (Outline.preorderAll m.anchor.parts).filterMap fun
    | .token label (some [value]) => some (label, value)
    | _ => none

private theorem Manifest.mem_of_labels {m : Manifest} {label : Token} {value : Outline}
    (mem : (label, value) ∈ m.labels) :
    .token label (some [value]) ∈ Outline.preorderAll m.anchor.parts := by
  obtain ⟨o, isPart, isLabel⟩ := List.mem_filterMap.1 mem
  split at isLabel
  · cases isLabel
    exact isPart
  · cases isLabel

/-- The lines at which the blocks among outlines end. -/
private def Outline.stopLine? : Outline → Option Int
  | .block _ _ range _ => some range.stop.line
  | _ => none

/-- A value that is a block ends on the line on which its first piece does, which is no plain scalar on one line. -/
private theorem Outline.stop_line_eq {own : Piece} {below : List Piece} {value : Outline} {line : Int}
    (isStop : value.stopLine? = some line) (isValue : value.preorder = (own :: below).flatMap Piece.parts)
    (made : own.Made page) (isOrigin : page.anchor = ⟨0, 0⟩) : own.stop.line = line ∧
      ∀ r parts, own = .scalar r parts → r.isExpression = false → r.start.line ≠ r.stop.line := by
  obtain ⟨rest, isFirst⟩ := Outline.exists_preorder_eq value
  rw [isFirst, List.flatMap_cons] at isValue
  rcases made.head_cases with ⟨r, t, children, rfl, _⟩ | ⟨localKey, indexKey, children, others, form, long⟩
  · cases isValue
    cases isStop
  · rw [form] at isValue
    obtain ⟨rfl, -⟩ := List.cons.inj isValue
    have isLine : (own.stop.position.relativeTo page.anchor).line = line := Option.some.inj isStop
    rw [isOrigin, Position.relativeTo_of_column rfl] at isLine
    refine ⟨(Int.sub_zero _).symm.trans isLine, fun r parts isOwn plain oneLine => ?_⟩
    have long := long r parts isOwn plain
    omega

/-- Inputs in block style, with an expression, and another value behind them. -/
private def laid : String := "kind: FunctionTest\nspec:\n  inputs:\n    a: =x\n  d: 2\n"

theorem edit_replaces_value_laid :
    ∃ manifest next T, knownReading laid = (.ok (some manifest, next), T) ∧
      ∃ label value before after, label.edit manifest.anchor.absolute value = ⟨⟨2, 9⟩, ⟨4, 0⟩⟩ ∧
        Outline.flattenAll manifest.anchor.parts = before ++ label :: (value.flatten ++ after) ∧
        (label.edit manifest.anchor.absolute value).Replaces (value.flatten.map (Token.range manifest.anchor.absolute))
          ((before ++ label :: after).map (Token.range manifest.anchor.absolute)) := by
  have isLabel : ((knownReading laid).1.toOption.bind (·.1)).any (fun m => decide (m.anchor.absolute = ⟨0, 0⟩ ∧
      ∃ p ∈ m.labels, p.1.edit ⟨0, 0⟩ p.2 = ⟨⟨2, 9⟩, ⟨4, 0⟩⟩ ∧ p.2.stopLine? = some 4 ∧
        ∀ t ∈ p.2.flatten, (t.range ⟨0, 0⟩).stop ≤ ⟨4, 0⟩)) = true := by
    decide +kernel
  have isTree : (Yaml.valueOf laid.toList (firstDocument laid).root).toOption.any (fun found =>
      decide (found.1 = (firstDocument laid).root ∧ found.1.start.column = 0 ∧ InOrder .origin found.1.scalars ∧
        ∀ s ∈ found.1.scalars, s.start.line = s.stop.line ∧ (s.text.toList.head? = some '=' → s.start.line = 3 ∧
          ∀ p ∈ Expression.spans s.text.toList,
            Page.equalsColumn ⟨Text.keptLines laid.toList, ⟨0, 0⟩⟩ s.start + p.1 + p.2.length ≤ s.stop.column))) =
        true := by
    decide +kernel
  have isDocument : firstDocument laid ∈ (Yaml.DocumentStream.ofText laid.toList).documents :=
    firstDocument_mem (by decide +kernel)
  obtain ⟨⟨root, data⟩, isRoot, isTree⟩ := (Option.any_eq_true ..).1 isTree
  obtain ⟨whole, column, order, scalars⟩ := of_decide_eq_true isTree
  obtain ⟨manifest, isManifest, isLabel⟩ := (Option.any_eq_true ..).1 isLabel
  obtain ⟨next, T, read⟩ := exists_read_of_manifest isManifest
  obtain ⟨isOrigin, ⟨label, value⟩, mem, isEdit, isStop, upto⟩ := of_decide_eq_true isLabel
  obtain ⟨page, slot, pieces, isPage, reads, _, labelled, replaces⟩ :=
    edit_replaces_value_iff read isDocument (except_eq_ok_of_toOption isRoot) (.inl whole) column order
  rw [isOrigin] at isPage
  have atOrigin : page.anchor = ⟨0, 0⟩ := by rw [isPage]
  have inRoot : ∀ r ∈ scalarsOf pieces, r.source ∈ root.scalars := fun r mem =>
    (show (scalarsOf pieces).map ScalarReading.source = root.scalars from reads.map_source_scalarsOf) ▸
      List.mem_map_of_mem mem
  obtain ⟨front, key, tail, split⟩ := labelled label value (Manifest.mem_of_labels mem)
  have isKey : key ∈ scalarsOf pieces :=
    mem_scalarsOf.2 ⟨[.token label (some [value])], by rw [split]; exact List.mem_append_right _ List.mem_cons_self⟩
  obtain ⟨own, below, back, rfl, isValue, replaces⟩ :=
    replaces front key label value tail split (scalars key.source (inRoot key isKey)).1
  have isOwn : own ∈ pieces := by rw [split]; simp
  obtain ⟨isLine, several⟩ := Outline.stop_line_eq isStop isValue (reads.forall_made own isOwn) atOrigin
  have plain : ∀ r parts, own = .scalar r parts → r.isExpression = false := by
    rintro r parts rfl
    obtain ⟨oneLine, expression⟩ := scalars r.source (inRoot r (mem_scalarsOf.2 ⟨parts, isOwn⟩))
    by_contra notPlain
    have onLine := (expression (ScalarReading.head_of_isExpression (Bool.eq_true_of_not_eq_false notPlain))).1
    have isLine : (r.stop.line : Int) = 4 := isLine
    have oneLine : r.start.line = r.stop.line := oneLine
    have onLine : r.start.line = 3 := onLine
    omega
  have contained : ∀ r ∈ scalarsOf pieces, r.start.line = key.start.line → r.Contained := by
    intro r mem _ isExpression _ s isSpan
    rw [reads.forall_page r mem, isPage]
    exact ((scalars r.source (inRoot r mem)).2 (ScalarReading.head_of_isExpression isExpression)).2 s isSpan
  have closes : own.Closes key.start.line (rangesOf page.anchor below) := by
    cases own with
    | scalar r parts =>
      have oneLine := (scalars r.source (inRoot r (mem_scalarsOf.2 ⟨parts, isOwn⟩))).1
      exact absurd oneLine (several r parts rfl (plain r parts rfl))
    | block n part =>
      have isLine : (n.stop.line : Int) = 4 := isLine
      refine .inr fun range mem => .inr ?_
      obtain ⟨t, isToken, rfl⟩ := List.mem_map.1 mem
      rw [atOrigin, isLine]
      refine upto t ?_
      rw [Outline.flatten_eq_of_preorder isValue]
      exact List.mem_append_right _ isToken
  obtain ⟨replaces, _⟩ := replaces plain contained
  rw [atOrigin] at replaces closes
  refine ⟨manifest, next, T, read, label, value, front.flatMap Piece.tokens, back.flatMap Piece.tokens, ?_, ?_, ?_⟩
  · rw [isOrigin]
    exact isEdit
  · rw [reads.flattenAll_eq, split, Outline.flatten_eq_of_preorder isValue]
    simp [Piece.tokens, Piece.parts, Outline.token?]
  · rw [isOrigin]
    have all := replaces.2 ⟨by rw [isEdit]; decide, closes⟩
    rwa [rangesOf, List.flatMap_append, List.flatMap_cons] at all

/-- The edits of the first document of a file, with the stretches of what their values hold. -/
private def knownEdits (source : String) : List (Range × List Range) :=
  (((knownReading source).1.toOption.bind (·.1)).map fun m => m.labels.map fun p =>
    (p.1.edit m.anchor.absolute p.2, p.2.flatten.map (Token.range m.anchor.absolute))).getD []

/-- Edits of a mapping in braces on two lines, of the last mapping of a file that ends without a break, of a mapping
that is no block of its own, and of a key without a value, with what they should replace. -/
private def misses : List (String × Range × List Range) :=
  [ ("kind: FunctionTest\nspec:\n  inputs: \x7ba: 1,\n    b: 2\x7d\n", ⟨⟨2, 9⟩, ⟨3, 0⟩⟩,
      [⟨⟨2, 11⟩, ⟨2, 12⟩⟩, ⟨⟨2, 14⟩, ⟨2, 15⟩⟩, ⟨⟨3, 4⟩, ⟨3, 5⟩⟩, ⟨⟨3, 7⟩, ⟨3, 8⟩⟩]),
    ("kind: FunctionTest\nspec:\n  inputs:\n    a: 1", ⟨⟨2, 9⟩, ⟨3, 0⟩⟩, [⟨⟨3, 4⟩, ⟨3, 5⟩⟩, ⟨⟨3, 7⟩, ⟨3, 8⟩⟩]),
    ("a:\n  b: c\n", ⟨⟨0, 2⟩, ⟨1, 3⟩⟩, [⟨⟨1, 2⟩, ⟨1, 3⟩⟩, ⟨⟨1, 5⟩, ⟨1, 6⟩⟩]),
    ("a: \x7bb\x7d\n", ⟨⟨0, 6⟩, ⟨0, 5⟩⟩, [⟨⟨0, 5⟩, ⟨0, 5⟩⟩]) ]

theorem not_edit_replaces_misses :
    misses.length = 4 ∧ ∀ m ∈ misses, (firstScalars m.1).any (InOrder .origin) = true ∧ m.2 ∈ knownEdits m.1 ∧
      ∀ outside, ¬ m.2.1.Replaces m.2.2 outside := by
  have missed : ∀ m ∈ misses, (firstScalars m.1).any (InOrder .origin) = true ∧ m.2 ∈ knownEdits m.1 ∧
      ¬ (m.2.1.start ≤ m.2.1.stop ∧
        ∀ r ∈ m.2.2, r.stop ≤ r.start ∨ m.2.1.start ≤ r.start ∧ r.stop ≤ m.2.1.stop) := by
    decide +kernel
  refine ⟨rfl, fun m mem => ?_⟩
  obtain ⟨order, isEdit, missed⟩ := missed m mem
  refine ⟨order, isEdit, fun outside replaces => missed ⟨replaces.ordered, fun r isInside => ?_⟩⟩
  exact Range.forall_holds_iff.1 (replaces.covers r isInside)

end ManifestLens
