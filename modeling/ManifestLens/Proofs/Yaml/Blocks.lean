import ManifestLens.Proofs.Yaml.Spelling

/-!
# How block scalars are spelled

A block scalar has a header, which ends with its line, and is read line by line from there on (`BlockFrom`).  So it ends
at the start of a line or with the text, and its text is that of the lines below its header but for blanks
(`blockScalar_spec`).
-/

namespace ManifestLens.Yaml

open Cursor

variable {after c d e stop : Cursor} {since : Mark} {body breaks last passed run text : List Char}

/-! ### Blanks -/

theorem squeeze_append (a b : List Char) : squeeze (a ++ b) = squeeze a ++ squeeze b :=
  List.filter_append a b

theorem squeeze_of_all {p : Char → Bool} (blank : ∀ a, p a = true → Text.isBlank a = true) (h : text.all p = true) :
    squeeze text = [] := by
  refine List.filter_eq_nil_iff.2 fun a mem => ?_
  simp [blank a (List.all_eq_true.1 h a mem)]

private theorem isBlank_of_isBreak {a : Char} (h : isBreak a = true) : Text.isBlank a = true := by
  simp only [isBreak, Bool.or_eq_true, beq_iff_eq] at h
  rcases h with (((rfl | rfl) | rfl) | rfl) | rfl <;> decide

private theorem isBlank_of_isSpace {a : Char} (h : (a == ' ') = true) : Text.isBlank a = true := by
  rw [beq_iff_eq.1 h]
  decide

/-- What is known of a block scalar that was read from a cursor on: the text so far is what was passed for it but for
blanks, it stops at the start of a line or with the whole text, and only blanks lead up to its next line. -/
structure BlockFrom (c : Cursor) (text : List Char) (lead : Lead) (passed : List Char) (stop : Cursor) : Prop where
  passes : Passes c passed stop
  isStop : stop.mark = lead.stop
  further : ∃ indent, Passes stop indent lead.cursor ∧ squeeze indent = []
  breaks : squeeze lead.breaks = []
  text : squeeze text = squeeze passed
  ends : passed = [] ∨ StartsLine passed stop ∨ stop.rest = [] ∧ 0 < stop.mark.column

namespace BlockFrom

variable {reach : Nat}

/-- Blanks are passed. -/
private theorem indent {e : Cursor} {run : List Char} (h : BlockFrom c text ⟨breaks, reach, since, d⟩ passed stop)
    (passes : Passes d run e) (blank : squeeze run = []) (reach' : Nat) :
    BlockFrom c text ⟨breaks, reach', since, e⟩ passed stop := by
  obtain ⟨indent, further, blanks⟩ := h.further
  exact ⟨h.passes, h.isStop, ⟨_, further.trans passes, by rw [squeeze_append, blanks, blank]; rfl⟩, h.breaks, h.text,
    h.ends⟩

/-- A line is ended. -/
private theorem lineBreak {read : List Char} (h : BlockFrom c text ⟨breaks, reach, since, d⟩ passed stop)
    (ahead : isBreak d.head = true) (isRead : d.lineBreak = (read, e)) :
    ∃ passed, BlockFrom c text ⟨breaks ++ read, reach, e.mark, e⟩ passed e := by
  obtain ⟨indent, further, blanks⟩ := h.further
  obtain ⟨run, a, passes, isBreaks, readBreaks, -, first⟩ := Passes.lineBreak ahead isRead
  refine ⟨passed ++ indent ++ (run ++ [a]), (h.passes.trans further).trans passes, rfl, ⟨[], .here e, rfl⟩, ?_, ?_,
    .inr (.inl ⟨a, by simp, ?_, first⟩)⟩
  · rw [squeeze_append, h.breaks, squeeze_of_all (fun _ => isBlank_of_isBreak) readBreaks]
    rfl
  · rw [squeeze_append, squeeze_append, blanks, squeeze_of_all (fun _ => isBlank_of_isBreak) isBreaks, h.text]
    simp
  · exact List.all_eq_true.1 isBreaks a (by simp)

/-- Blanks are added to the text. -/
private theorem joint {lead : Lead} {joint : List Char} (h : BlockFrom c text lead passed stop)
    (blank : squeeze joint = []) :
    BlockFrom c (text ++ joint) lead passed stop :=
  ⟨h.passes, h.isStop, h.further, h.breaks, by rw [squeeze_append, blank, List.append_nil, h.text], h.ends⟩

end BlockFrom

private theorem freeLead_spec {reach : Nat} (fuel : Nat) (h : BlockFrom c text ⟨breaks, reach, since, d⟩ passed stop) :
    ∃ passed stop, BlockFrom c text (freeLead breaks reach since fuel d) passed stop := by
  induction fuel generalizing breaks reach since d passed stop with
  | zero => exact ⟨passed, stop, h⟩
  | succ fuel ih =>
    rw [freeLead]
    split
    · next blank =>
      obtain ⟨rest, ahead⟩ := d.exists_rest (by rw [beq_iff_eq.1 blank]; decide)
      exact ih (h.indent (.single ahead) (squeeze_of_all (fun _ => isBlank_of_isSpace) (by simpa using blank)) _)
    · split
      · next isBreak =>
        cases read : d.lineBreak with
        | mk lineBreak next =>
          obtain ⟨passed, further⟩ := h.lineBreak isBreak read
          exact ih further
      · exact ⟨passed, stop, h⟩

private theorem skipTo_passes (c : Cursor) (column : Nat) :
    ∃ run, Passes c run (c.skipTo column) ∧ squeeze run = [] := by
  refine ⟨_, Passes.advance c _, squeeze_of_all (fun _ => isBlank_of_isSpace) (List.all_eq_true.2 fun a mem => ?_)⟩
  have within := List.take_subset_take_left c.rest (Nat.min_le_left _ _) mem
  rw [← List.prefix_iff_eq_take.1 (List.takeWhile_prefix _)] at within
  exact List.all_eq_true.1 List.all_takeWhile a within

private theorem indentedLead_spec {reach : Nat} (column fuel : Nat)
    (h : BlockFrom c text ⟨breaks, reach, since, d⟩ passed stop) :
    ∃ passed stop, BlockFrom c text (indentedLead column breaks since fuel d) passed stop := by
  induction fuel generalizing breaks reach since d passed stop with
  | zero => exact ⟨passed, stop, h.indent (.here d) rfl 0⟩
  | succ fuel ih =>
    obtain ⟨run, passes, blank⟩ := skipTo_passes d column
    have indented := h.indent passes blank 0
    rw [indentedLead]
    dsimp only
    split
    · next isBreak =>
      cases read : (d.skipTo column).lineBreak with
      | mk lineBreak next =>
        obtain ⟨passed, further⟩ := indented.lineBreak isBreak read
        exact ih further
    · exact ⟨passed, stop, indented⟩

/-- After a line of a block scalar comes a break or the end of the text. -/
private theorem BlockFrom.line {c stop d e : Cursor} {text passed line read : List Char} {lead : Lead}
    (allowed : IsAllowed c.rest) (h : BlockFrom c text lead passed stop)
    (isLine : lead.cursor.span (fun a => !isLineStop a) = (line, d))
    (inside : 0 < lead.cursor.column) (isRead : d.lineBreak = (read, e)) :
    squeeze read = [] ∧ ∃ passed, BlockFrom c (text ++ lead.breaks ++ line) ⟨[], 0, e.mark, e⟩ passed e := by
  obtain ⟨indent, further, blanks⟩ := h.further
  have start := h.passes.trans further
  obtain ⟨run, inLine, isBreak | ⟨noBreak, done⟩⟩ := Passes.lineStop (start.isAllowed allowed) isLine
  · obtain ⟨before, a, passes, isBreaks, readBreaks, -, first⟩ := Passes.lineBreak isBreak isRead
    have blank := squeeze_of_all (fun _ => isBlank_of_isBreak) isBreaks
    refine ⟨squeeze_of_all (fun _ => isBlank_of_isBreak) readBreaks, passed ++ indent ++ line ++ (before ++ [a]),
      (start.trans run).trans passes, rfl, ⟨[], .here e, rfl⟩, rfl, ?_, .inr (.inl ⟨a, by simp, ?_, first⟩)⟩
    · simp only [squeeze_append] at blank ⊢
      simp only [h.breaks, blanks, h.text, blank, List.append_nil]
    · exact List.all_eq_true.1 isBreaks a (by simp)
  · rw [Cursor.lineBreak_of_not_isBreak noBreak] at isRead
    cases isRead
    obtain ⟨-, column⟩ := run.mark_of_noBreak inLine
    refine ⟨rfl, passed ++ indent ++ line, start.trans run, rfl, ⟨[], .here _, rfl⟩, rfl, ?_, .inr (.inr ⟨done, ?_⟩)⟩
    · simp only [squeeze_append, h.breaks, blanks, h.text]
    · rw [Cursor.column] at inside
      omega

private theorem blockLines_spec {folded : Bool} {column : Nat} {lead : Lead} (allowed : IsAllowed c.rest)
    (inside : 0 < column) (fuel : Nat) (h : BlockFrom c text lead passed stop) (blank : squeeze last = [])
    {found : List Char} {next : Lead} {ending : List Char}
    (isRead : blockLines folded column fuel text lead last = (found, next, ending)) :
    squeeze ending = [] ∧ ∃ passed stop, BlockFrom c found next passed stop := by
  induction fuel generalizing text lead last passed stop with
  | zero =>
    cases isRead
    exact ⟨blank, passed, stop, h⟩
  | succ fuel ih =>
    rw [blockLines] at isRead
    dsimp only at isRead
    split at isRead
    · cases isRead
      exact ⟨blank, passed, stop, h⟩
    · next goesOn =>
      simp only [Bool.or_eq_true, not_or, bne_iff_ne, ne_eq, Decidable.not_not] at goesOn
      cases isLine : lead.cursor.span (fun a => !isLineStop a) with
      | mk line d =>
        cases read : d.lineBreak with
        | mk lineBreak e =>
          obtain ⟨broken, passed, here⟩ := h.line allowed isLine (by omega) read
          obtain ⟨passed, stop, further⟩ := indentedLead_spec column (e.rest.length + 1) here
          simp only [isLine, read] at isRead
          split at isRead
          · cases isRead
            exact ⟨broken, passed, stop, further⟩
          · refine ih (further.joint ?_) broken isRead
            split
            · split <;> decide
            · exact broken

/-- An indentation indicator is a digit other than zero. -/
private theorem increment_spec {n : Option Nat} (h : c.increment since = .ok (n, after)) :
    (∃ run, Passes c run after ∧ run.any isBreak = false) ∧ ∀ k, n = some k → 0 < k := by
  rw [increment] at h
  split at h
  · cases h
  · next zero =>
    split at h
    · next digit =>
      cases h
      have other (a : Char) (isOther : a.isDigit = false) : c.head ≠ a := by
        rintro rfl
        rw [isOther] at digit
        cases digit
      obtain ⟨rest, ahead⟩ := c.exists_rest (other _ rfl)
      refine ⟨⟨[c.head], .single ahead, ?_⟩, ?_⟩
      · simp [isBreak, other '\r' rfl, other '\n' rfl, other '\x85' rfl, other '\u2028' rfl, other '\u2029' rfl]
      · rintro k ⟨⟩
        simp only [beq_iff_eq, ← Char.toNat_inj, Char.reduceToNat] at zero
        simp only [Char.isDigit, Bool.and_eq_true, decide_eq_true_eq, ge_iff_le, UInt32.le_iff_toNat_le] at digit
        have : '0'.val.toNat ≤ c.head.toNat := digit.1
        have : '0'.val.toNat = 48 := rfl
        omega
    · cases h
      exact ⟨⟨[], .here _, rfl⟩, fun _ none => by cases none⟩

private theorem passes_of_chomping {chomping : Chomping} (h : chomping? c.head = some chomping) :
    Passes c [c.head] c.next ∧ [c.head].any isBreak = false := by
  have one : c.head = '+' ∨ c.head = '-' := by
    by_contra other
    rw [not_or] at other
    simp [chomping?, other] at h
  obtain ⟨rest, ahead⟩ := c.exists_rest (by rcases one with one | one <;> rw [one] <;> decide)
  refine ⟨.single ahead, ?_⟩
  rcases one with one | one <;> rw [one] <;> decide

private theorem blockHeader_spec {header : BlockHeader} (h : c.blockHeader since = .ok (header, after)) :
    (∃ run, Passes c run after ∧ run.any isBreak = false) ∧ ∀ k, header.increment = some k → 0 < k := by
  have join {d e : Cursor} {run more : List Char} (first : Passes c run d ∧ run.any isBreak = false)
      (second : Passes d more e ∧ more.any isBreak = false) : ∃ run, Passes c run e ∧ run.any isBreak = false :=
    ⟨run ++ more, first.1.trans second.1, by rw [List.any_append, first.2, second.2]; rfl⟩
  -- what was read is the result, if nothing but the end of the header follows
  have last {header' : BlockHeader} {d : Cursor}
      (h : (if isSpaceStop d.head then pure (header', d) else d.fails .blockScalar since (.expectedIndicators d.head)) =
        Except.ok (header, after)) : header' = header ∧ d = after := by
    split at h <;> cases h
    exact ⟨rfl, rfl⟩
  rw [blockHeader] at h
  split at h
  · next chomping found =>
    obtain ⟨⟨n, d⟩, digit, h⟩ := except_bind_eq_ok_iff.1 h
    obtain ⟨⟨run, second⟩, positive⟩ := increment_spec digit
    obtain ⟨rfl, rfl⟩ := last h
    exact ⟨join (passes_of_chomping found) second, positive⟩
  · obtain ⟨⟨n, d⟩, digit, h⟩ := except_bind_eq_ok_iff.1 h
    obtain ⟨⟨run, first⟩, positive⟩ := increment_spec digit
    dsimp only at h
    split at h
    · next chomping _ found =>
      obtain ⟨rfl, rfl⟩ := last h
      exact ⟨join first (passes_of_chomping found), positive⟩
    · obtain ⟨rfl, rfl⟩ := last h
      exact ⟨⟨run, first⟩, positive⟩

theorem skipComment_passes (c : Cursor) : ∃ run, Passes c run c.skipComment ∧ run.any isBreak = false := by
  obtain ⟨blanks, passes, blank, -⟩ := Passes.skip c (· == ' ')
  have plain : blanks.any isBreak = false := by
    rw [List.any_eq_false]
    intro a mem
    rw [beq_iff_eq.1 (List.all_eq_true.1 blank a mem)]
    decide
  rw [skipComment]
  split
  · obtain ⟨comment, further, inside, -⟩ := Passes.skip (c.skip (· == ' ')) fun a => !isLineStop a
    refine ⟨_, passes.trans further, ?_⟩
    rw [List.any_append, plain, Bool.false_or, List.any_eq_false]
    intro a mem
    have := List.all_eq_true.1 inside a mem
    simp only [isLineStop, Bool.not_eq_true', Bool.or_eq_false_iff] at this
    simp [this]
  · exact ⟨blanks, passes, plain⟩

/-- The rest of a line is passed with its break, unless the text ends. -/
private theorem endLine_spec {task : Task} (allowed : IsAllowed c.rest) (h : c.endLine task since = .ok after) :
    ∃ passed, Passes c passed after ∧
      (after.rest = [] ∨ after.mark.line = c.mark.line + 1 ∧ StartsLine passed after) := by
  obtain ⟨run, passes, plain⟩ := skipComment_passes c
  obtain ⟨line, -⟩ := passes.mark_of_noBreak plain
  rw [endLine] at h
  split at h
  · next stop =>
    cases h
    by_cases isBreak : isBreak c.skipComment.head = true
    · obtain ⟨before, a, further, isBreaks, -, below, first⟩ := Passes.lineBreak isBreak (Prod.eta _).symm
      refine ⟨_, passes.trans further, .inr ⟨by rw [below, line], a, by simp, ?_, first⟩⟩
      exact List.all_eq_true.1 isBreaks a (by simp)
    · rw [Cursor.lineBreak_of_not_isBreak (Bool.eq_false_iff.2 isBreak)]
      simp only [isLineStop, Bool.or_eq_true, beq_iff_eq] at stop
      exact ⟨run, passes, .inl (Cursor.rest_eq_nil (passes.isAllowed allowed) (stop.resolve_right isBreak))⟩
  · cases h

/-- The header of a block scalar is passed up to the next line or to the end of the text. -/
private theorem headerLine_spec {header : BlockHeader} (allowed : IsAllowed c.rest) (mark : c.head ≠ '\x00')
    (written : Text.isBlank c.head = false) (isHeader : c.next.blockHeader c.mark = .ok (header, d))
    (isEnd : d.endLine .blockScalar c.mark = .ok e) :
    ∃ run, Passes c (c.head :: run) e ∧
      (e.rest = [] ∨ e.mark.line = c.mark.line + 1 ∧ StartsLine (c.head :: run) e) ∧
      ∀ n, header.increment = some n → 0 < n := by
  have noBreak : isBreak c.head = false := by
    refine Bool.eq_false_iff.2 fun isBreak => ?_
    rw [isBlank_of_isBreak isBreak] at written
    cases written
  obtain ⟨rest, ahead⟩ := c.exists_rest mark
  obtain ⟨⟨run, first, plain⟩, positive⟩ := blockHeader_spec isHeader
  have heads : Passes c (c.head :: run) d := (Passes.single ahead).trans first
  obtain ⟨line, -⟩ := heads.mark_of_noBreak (by rw [List.any_cons, noBreak, plain]; rfl)
  obtain ⟨ended, second, below⟩ := endLine_spec (heads.isAllowed allowed) isEnd
  refine ⟨run ++ ended, heads.trans second, below.imp_right ?_, positive⟩
  rintro ⟨next, a, last, starts⟩
  exact ⟨by rw [next, line], a, by rw [← List.cons_append, List.getLast?_append, last]; rfl, starts⟩

private theorem BlockFrom.scalarAt {mark : Char} {lead : Lead} (block : BlockFrom e text lead body stop)
    (written : Text.isBlank mark = false) (heads : Passes c (mark :: run) e)
    (below : e.rest = [] ∨ e.mark.line = c.mark.line + 1 ∧ StartsLine (mark :: run) e) (folded : Bool) :
    ScalarAt c ⟨.scalar (String.ofList text) (if folded then .folded else .literal), c.mark, lead.stop⟩
      lead.cursor := by
  obtain ⟨indent, further, -⟩ := block.further
  have isStyle : (if folded then ScalarStyle.folded else .literal) = .literal ∨
      (if folded then ScalarStyle.folded else .literal) = .folded := by
    cases folded
    · exact .inl rfl
    · exact .inr rfl
  exact ⟨rfl, text, _, stop, indent, rfl, .block isStyle written heads below block.passes block.text block.ends,
    block.isStop, further⟩

theorem blockScalar_spec {t : Token} {folded : Bool} {indent : Int} (allowed : IsAllowed c.rest)
    (mark : c.head ≠ '\x00') (written : Text.isBlank c.head = false)
    (h : c.blockScalar folded indent = .ok (t, after)) :
    ScalarAt c t after := by
  rw [blockScalar] at h
  obtain ⟨⟨header, d⟩, isHeader, h⟩ := except_bind_eq_ok_iff.1 h
  obtain ⟨e, isEnd, h⟩ := except_bind_eq_ok_iff.1 h
  obtain ⟨run, heads, below, positive⟩ := headerLine_spec allowed mark written isHeader isEnd
  have least : 0 < (max (indent + 1) 1).toNat := by omega
  have start : BlockFrom e [] ⟨[], 0, e.mark, e⟩ [] e :=
    ⟨.here e, rfl, ⟨[], .here e, rfl⟩, rfl, rfl, .inl rfl⟩
  have lines {column : Nat} {lead : Lead} {passed : List Char} {stop : Cursor} (inside : 0 < column)
      (isLead : BlockFrom e [] lead passed stop) {found last tail : List Char} {next : Lead}
      (isRead : blockLines folded column (e.rest.length + 1) [] lead [] = (found, next, last))
      (isTail : tail = [] ∨ tail = last ∨ tail = last ++ next.breaks) :
      ScalarAt c ⟨.scalar (String.ofList (found ++ tail)) (if folded then .folded else .literal), c.mark, next.stop⟩
        next.cursor := by
    obtain ⟨blank, body, stop, block⟩ := blockLines_spec (heads.isAllowed allowed) inside _ isLead rfl isRead
    refine (block.joint ?_).scalarAt written heads below folded
    rcases isTail with rfl | rfl | rfl
    · rfl
    · exact blank
    · rw [squeeze_append, blank, block.breaks]
      rfl
  -- the lead up to the first line depends on the header
  cases increment : header.increment with
  | none =>
    rw [increment] at h
    cases h
    obtain ⟨passed, stop, lead⟩ := freeLead_spec (e.rest.length + 1) start
    refine lines (Nat.lt_of_lt_of_le least (Nat.le_max_left _ _)) lead (Prod.eta _).symm ?_
    cases header.chomping with
    | strip => exact .inl rfl
    | clip => exact .inr (.inl rfl)
    | keep => exact .inr (.inr rfl)
  | some n =>
    rw [increment] at h
    cases h
    obtain ⟨passed, stop, lead⟩ := indentedLead_spec _ (e.rest.length + 1) start
    have := positive n increment
    refine lines (by omega) lead (Prod.eta _).symm ?_
    cases header.chomping with
    | strip => exact .inl rfl
    | clip => exact .inr (.inl rfl)
    | keep => exact .inr (.inr rfl)

end ManifestLens.Yaml
