import ManifestLens.Proofs.Manifest.Run
import ManifestLens.Proofs.Yaml.Cursors

/-!
# How scalars are spelled

What a scalar is read from is told by the characters that are passed while it is read (`Spelled`).  A plain scalar on
one line is its own text (`plainScalar_spec`), and so is what stands between the quotes of a quoted scalar on one line,
if nothing is escaped there (`quotedScalar_spec`).
-/

namespace ManifestLens.Yaml

open Cursor

variable {after c d e stop : Cursor} {fuel : Nat} {since : Mark} {broken double inFlow : Bool}
  {added breaks joint passed step text : List Char}

/-! ### Texts and what they are read from -/

/-- The character by which others are escaped between double or single quotes. -/
def escapeMark (double : Bool) : Char :=
  if double then '\\' else '\''

/-- Double or single quotes. -/
def quoteMark (double : Bool) : Char :=
  if double then '"' else '\''

/-- A text without its blanks. -/
def squeeze (text : List Char) : List Char :=
  text.filter fun a => !Text.isBlank a

/-- A break was passed last, so that a line starts at the cursor. -/
def StartsLine (passed : List Char) (c : Cursor) : Prop :=
  ∃ a, passed.getLast? = some a ∧ isBreak a = true ∧ c.mark.column = 0

/-- How a text is spelled between two cursors as a scalar of a style. -/
inductive Spelled (c : Cursor) (text : List Char) (stop : Cursor) (style : ScalarStyle) : Prop where
  /-- On one line, a plain scalar is its own text; it does not end with a gap. -/
  | plain {passed : List Char} (isStyle : style = .plain) (passes : Passes c passed stop)
      (verbatim : stop.mark.line = c.mark.line → text = passed)
      (last : ∀ a, passed.getLast? = some a → isGap a = false)
  /-- On one line, what stands between quotes is its own text if nothing is escaped there. -/
  | quoted {inner : List Char} (double : Bool) (isStyle : style = if double then .double else .single)
      (passes : Passes c (quoteMark double :: inner ++ [quoteMark double]) stop)
      (verbatim : stop.mark.line = c.mark.line → escapeMark double ∉ inner → text = inner)
  /-- The text of a block scalar is that of the lines below its header, but for blanks.  The header is written, and the
  scalar stops at the start of a line or with the whole text. -/
  | block {mark : Char} {header body : List Char} {start : Cursor} (isStyle : style = .literal ∨ style = .folded)
      (written : Text.isBlank mark = false) (heads : Passes c (mark :: header) start)
      (below : start.rest = [] ∨ start.mark.line = c.mark.line + 1 ∧ StartsLine (mark :: header) start)
      (passes : Passes start body stop) (same : squeeze text = squeeze body)
      (ends : body = [] ∨ StartsLine body stop ∨ stop.rest = [] ∧ 0 < stop.mark.column)

/-- The token is a scalar that is read from one cursor up to another. -/
def ScalarAt (c : Cursor) (t : Token) (after : Cursor) : Prop :=
  t.start = c.mark ∧ ∃ text style stop space, t.lexeme = .scalar (String.ofList text) style ∧
    Spelled c text stop style ∧ stop.mark = t.stop ∧ Passes stop space after

/-! ### Plain scalars -/

private theorem isStart_plainRun (inFlow : Bool) (rest : List Char) : plainRun inFlow rest <+: rest := by
  induction rest with
  | nil => exact List.nil_prefix
  | cons a rest ih =>
    rw [plainRun]
    split
    · exact List.nil_prefix
    · exact (List.prefix_cons_inj a).2 ih

private theorem isGap_of_mem_plainRun (inFlow : Bool) (rest : List Char) :
    ∀ a ∈ plainRun inFlow rest, isGap a = false := by
  induction rest with
  | nil => exact List.forall_mem_nil _
  | cons a rest ih =>
    rw [plainRun]
    split
    · exact List.forall_mem_nil _
    · next goesOn =>
      refine List.forall_mem_cons.2 ⟨?_, ih⟩
      simp only [endsPlain, Bool.or_eq_true, not_or] at goesOn
      exact Bool.not_eq_true _ ▸ goesOn.1.1

theorem Passes.run {c : Cursor} {run : List Char} (h : run <+: c.rest) : Passes c run (c.advance run.length) := by
  have passes := advance c run.length
  rwa [← List.prefix_iff_eq_take.1 h] at passes

private theorem reaches_of_plainBreaks {found : Option (List Char)} (h : plainBreaks breaks fuel c = (found, after)) :
    Reaches c after := by
  induction fuel generalizing breaks c with
  | zero =>
    cases h
    exact .refl _
  | succ fuel ih =>
    rw [plainBreaks] at h
    split at h
    · exact (Reaches.next c).trans (ih h)
    · split at h
      · dsimp only at h
        split at h
        · cases h
          exact .lineBreak c
        · exact (Reaches.lineBreak c).trans (ih h)
      · cases h
        exact .refl _

/-- Between two runs of a plain scalar, a line is ended or the blanks between them are kept. -/
private theorem plainSpace_spec {space : Option (List Char)} (h : c.plainSpace = (space, broken, after)) :
    ∃ passed, Passes c passed after ∧
      (c.mark.line < after.mark.line ∨ ∀ joint, space = some joint → joint = passed) := by
  rw [plainSpace] at h
  cases blanks : c.span (· == ' ') with
  | mk run d =>
    obtain ⟨passes, -, -⟩ := Passes.span blanks
    rw [blanks] at h
    dsimp only at h
    split at h
    · next isBreak =>
      cases read : d.lineBreak with
      | mk lineBreak next =>
        obtain ⟨before, a, further, _, _, below, _⟩ := Passes.lineBreak isBreak read
        have lines := passes.line_le
        rw [read] at h
        dsimp only at h
        split at h
        · cases h
          exact ⟨_, passes.trans further, .inl (by omega)⟩
        · cases more : plainBreaks [] (next.rest.length + 1) next with
          | mk found last =>
            obtain ⟨others, furtherOn⟩ := reaches_of_plainBreaks more
            have := furtherOn.line_le
            rw [more] at h
            cases found <;> cases h <;> exact ⟨_, (passes.trans further).trans furtherOn, .inl (by omega)⟩
    · split at h
      · cases h
        exact ⟨run, passes, .inr (fun _ none => by cases none)⟩
      · cases h
        exact ⟨run, passes, .inr (fun _ same => (Option.some.inj same).symm)⟩

/-- What is known of a plain scalar that was read from a cursor on: it stops after what was passed for it, which does
not end with a gap, and on one line its text is what was passed. -/
structure PlainFrom (c : Cursor) (p : Plain) (passed : List Char) (stop : Cursor) (space : List Char) : Prop where
  passes : Passes c passed stop
  isStop : stop.mark = p.stop
  further : Passes stop space p.cursor
  text : p.stop.line = c.mark.line → p.text = passed
  last : ∀ a, passed.getLast? = some a → isGap a = false

private theorem plainRuns_spec {space : List Char} {p : Plain} (inFlow : Bool) (indent : Int) (fuel : Nat)
    (h : PlainFrom c p passed stop space) (joins : p.cursor.mark.line = c.mark.line → joint = space) :
    ∃ passed stop space, PlainFrom c (plainRuns inFlow indent joint fuel p) passed stop space := by
  induction fuel generalizing joint passed stop space p with
  | zero => exact ⟨passed, stop, space, h⟩
  | succ fuel ih =>
    rw [plainRuns]
    split
    · exact ⟨passed, stop, space, h⟩
    · dsimp only
      split
      · exact ⟨passed, stop, space, h⟩
      · next some =>
        have run := Passes.run (isStart_plainRun inFlow p.cursor.rest)
        have plain := isGap_of_mem_plainRun inFlow p.cursor.rest
        generalize plainRun inFlow p.cursor.rest = word at *
        generalize p.cursor.advance word.length = next at *
        cases between : next.plainSpace with
        | mk joint' after =>
          obtain ⟨broken, after⟩ := after
          obtain ⟨space', further, kept⟩ := plainSpace_spec between
          have whole := (h.passes.trans h.further).trans run
          -- on one line, the joint before the run is what stands there
          have read : PlainFrom c ⟨p.text ++ joint ++ word, next.mark, after, broken⟩ (passed ++ space ++ word) next
              space' := by
            refine ⟨whole, rfl, further, fun line => ?_, fun a last => ?_⟩
            · have lower := (h.passes.trans h.further).line_le
              have upper := run.line_le
              have middle := h.passes.line_le
              have before := h.further.line_le
              dsimp only at line
              rw [h.text (by rw [← h.isStop]; omega), joins (by omega)]
            · rw [List.getLast?_append, List.getLast?_eq_some_getLast (by simpa using some), Option.some_or] at last
              exact plain a (Option.some.inj last ▸ List.getLast_mem _)
          dsimp only
          cases joint' with
          | none => exact ⟨_, _, _, read⟩
          | some joint' =>
            dsimp only
            split
            · exact ⟨_, _, _, read⟩
            · refine ih read fun line => ?_
              rcases kept with below | kept
              · have := whole.line_le
                dsimp only at line
                omega
              · exact kept joint' rfl

theorem plainScalar_spec {indent : Int} {t : Token} (h : c.plainScalar inFlow indent = (t, broken, after)) :
    ScalarAt c t after := by
  cases h
  have start : PlainFrom c ⟨[], c.mark, c, false⟩ [] c [] :=
    ⟨.here c, rfl, .here c, fun _ => rfl, fun _ none => by cases none⟩
  obtain ⟨passed, stop, space, h⟩ := plainRuns_spec inFlow (indent + 1) (c.rest.length + 1) start fun _ => rfl
  refine ⟨rfl, _, _, stop, space, rfl, .plain rfl h.passes (fun line => h.text ?_) h.last, h.isStop, h.further⟩
  rw [← h.isStop, line]

/-! ### Quoted scalars -/

private theorem reaches_of_foldedBreaks {found : List Char}
    (h : foldedBreaks since breaks fuel c = .ok (found, after)) :
    Reaches c after := by
  induction fuel generalizing breaks c with
  | zero =>
    cases h
    exact .refl _
  | succ fuel ih =>
    rw [foldedBreaks] at h
    split at h
    · cases h
    · have blanks := Reaches.skip c isIndent
      dsimp only at h
      split at h
      · exact (blanks.trans (.lineBreak _)).trans (ih h)
      · cases h
        exact blanks

private theorem reaches_of_codeEscape {width : Nat} {a : Char} (h : c.codeEscape since width = .ok (a, after)) :
    Reaches c after := by
  rw [codeEscape] at h
  dsimp only at h
  split at h
  · cases h
  · split at h
    · cases h
      exact .advance c width
    · cases h

/-- For a part of a quoted scalar the given characters are passed.  On one line they are the text that they spell, if
none of them is escaped. -/
structure Spells (double : Bool) (c : Cursor) (passed text : List Char) (d : Cursor) : Prop where
  passes : Passes c passed d
  verbatim : d.mark.line = c.mark.line → escapeMark double ∉ passed → text = passed

namespace Spells

variable {more others : List Char}

private theorem trans (h : Spells double c passed text d) (further : Spells double d more others e) :
    Spells double c (passed ++ more) (text ++ others) e := by
  refine ⟨h.passes.trans further.passes, fun line plain => ?_⟩
  have before := h.passes.line_le
  have after := further.passes.line_le
  rw [List.mem_append, not_or] at plain
  rw [h.verbatim (by omega) plain.1, further.verbatim (by omega) plain.2]

private theorem escape (h : Passes c passed d) (isEscaped : escapeMark double ∈ passed) (text : List Char) :
    Spells double c passed text d :=
  ⟨h, fun _ plain => absurd isEscaped plain⟩

private theorem self (h : Passes c passed d) : Spells double c passed passed d :=
  ⟨h, fun _ _ => rfl⟩

end Spells

private theorem Passes.length_le (h : Passes c passed d) : c.rest.length = passed.length + d.rest.length := by
  rw [h.rest_eq, List.length_append]

/-- A quoted scalar goes on, with the given text so far, by a step that passes something. -/
private theorem quotedWord_step {found run : List Char} (start : Passes c run d) (here : Spells double d step added e)
    (moves : step ≠ [])
    (h : ∃ passed others, Spells double e passed others after ∧ found = (text ++ run ++ added) ++ others ∧
      (e.rest.length < fuel → isGap after.head = true ∨ after.head = quoteMark double)) :
    ∃ passed others, Spells double c passed others after ∧ found = text ++ others ∧
      (c.rest.length < fuel + 1 → isGap after.head = true ∨ after.head = quoteMark double) := by
  obtain ⟨passed, others, spells, rfl, ends⟩ := h
  refine ⟨_, _, ((Spells.self start).trans here).trans spells, by simp only [List.append_assoc], fun less => ends ?_⟩
  have := start.length_le
  have := here.passes.length_le
  have := List.length_pos_iff.2 moves
  omega

/-- A character that ends a run of a quoted scalar, and stands neither for itself nor for an escape, is a gap or the
closing quote. -/
private theorem isGap_or_eq_quoteMark {a : Char} (special : isQuotedPlain a = false)
    (noSelf : ¬((double && a == '\'') || (!double && (a == '"' || a == '\\'))) = true)
    (noEscape : ¬(double && a == '\\') = true) : isGap a = true ∨ a = quoteMark double := by
  simp only [isQuotedPlain, Bool.not_eq_false', Bool.or_eq_true, beq_iff_eq] at special
  rcases special with ((isSingle | isDouble) | isBackslash) | gap
  · cases double <;> simp_all [quoteMark]
  · cases double <;> simp_all [quoteMark]
  · cases double <;> simp_all
  · exact .inl gap

/-- A part of a quoted scalar goes on up to a gap or the closing quote. -/
private theorem quotedWord_spec {found : List Char} (h : quotedWord double since text fuel c = .ok (found, after)) :
    ∃ passed added, Spells double c passed added after ∧ found = text ++ added ∧
      (c.rest.length < fuel → isGap after.head = true ∨ after.head = quoteMark double) := by
  induction fuel generalizing text c with
  | zero =>
    cases h
    exact ⟨[], [], .self (.here _), by simp, fun less => by omega⟩
  | succ fuel ih =>
    rw [quotedWord] at h
    cases read : c.span isQuotedPlain with
    | mk run d =>
      obtain ⟨run, -, ends⟩ := Passes.span read
      rw [read] at h
      dsimp only at h
      split at h
      · next pair =>
        simp only [Bool.and_eq_true, Bool.not_eq_true', beq_iff_eq] at pair
        obtain ⟨rest, ahead⟩ := d.exists_rest (by rw [pair.1.2]; decide)
        refine quotedWord_step run (.escape (.advance d 2) ?_ ['\'']) ?_ (ih h)
        · simp [ahead, pair, escapeMark]
        · simp [ahead]
      · split at h
        · next self =>
          have other : d.head ≠ '\x00' := by
            rintro none
            simp [none] at self
          obtain ⟨rest, ahead⟩ := d.exists_rest other
          exact quotedWord_step run (.self (.single ahead)) (List.cons_ne_nil _ _) (ih h)
        · split at h
          · next isEscape =>
            simp only [Bool.and_eq_true, beq_iff_eq] at isEscape
            obtain ⟨rest, ahead⟩ := d.exists_rest (by rw [isEscape.2]; decide)
            have first : Passes d [d.head] d.next := .single ahead
            -- all that follows the mark of the escape is passed, whatever it stands for
            have goesOn {added escaped : List Char} {e : Cursor} (further : Passes d.next escaped e)
                (h : quotedWord double since (text ++ _ ++ added) fuel e = .ok (found, after)) :=
              quotedWord_step run (.escape (first.trans further) (by simp [isEscape, escapeMark]) added)
                (List.cons_ne_nil _ _) (ih h)
            split at h
            · exact goesOn (.next _) h
            · obtain ⟨⟨a, e⟩, code, h⟩ := except_bind_eq_ok_iff.1 h
              obtain ⟨escaped, further⟩ := reaches_of_codeEscape code
              exact goesOn ((Passes.next _).trans further) h
            · split at h
              · obtain ⟨⟨breaks, e⟩, folded, h⟩ := except_bind_eq_ok_iff.1 h
                obtain ⟨before, lineBreak⟩ := Reaches.lineBreak d.next
                obtain ⟨escaped, further⟩ := reaches_of_foldedBreaks folded
                exact goesOn (lineBreak.trans further) h
              · cases h
          · next noPair noSelf noEscape =>
            cases h
            refine ⟨_, _, .self run, rfl, fun _ => ?_⟩
            rcases ends with done | special
            · rw [head, done]
              exact .inl rfl
            · exact isGap_or_eq_quoteMark special noSelf noEscape

/-- Between two parts of a quoted scalar, a line is ended or the blanks between them are kept. -/
private theorem quotedSpace_spec (double : Bool) {space : List Char} (h : c.quotedSpace since = .ok (space, after)) :
    ∃ passed, Spells double c passed space after ∧ (isGap c.head = true → passed ≠ []) := by
  rw [quotedSpace] at h
  cases blanks : c.span isIndent with
  | mk run d =>
    obtain ⟨passes, -, ends⟩ := Passes.span blanks
    rw [blanks] at h
    dsimp only at h
    split at h
    · cases h
    · next more =>
      split at h
      · next isBreak =>
        cases read : d.lineBreak with
        | mk lineBreak next =>
          obtain ⟨before, a, further, -, -, below, -⟩ := Passes.lineBreak isBreak read
          rw [read] at h
          obtain ⟨⟨breaks, e⟩, folded, h⟩ := except_bind_eq_ok_iff.1 h
          cases h
          obtain ⟨others, furtherOn⟩ := reaches_of_foldedBreaks folded
          refine ⟨_, ⟨(passes.trans further).trans furtherOn, fun line _ => ?_⟩, fun _ => by simp⟩
          have : e.mark.line = c.mark.line := line
          have := passes.line_le
          have : next.mark.line ≤ e.mark.line := furtherOn.line_le
          omega
      · next inside =>
        cases h
        refine ⟨_, .self passes, fun gap none => ?_⟩
        -- a gap is a blank, a break or the end of the text
        rw [none] at passes
        cases passes
        rcases ends with done | other
        · exact more (by rw [head, done]; rfl)
        · simp_all [isGap, isSpaceStop, isLineStop, isIndent]

/-- The parts of a quoted scalar go on up to the closing quote. -/
private theorem quotedParts_spec {found : List Char}
    (h : quotedParts (quoteMark double) since text fuel c = .ok (found, after))
    (atEnd : isGap c.head = true ∨ c.head = quoteMark double) (enough : c.rest.length < fuel) :
    ∃ passed added, Spells double c passed added after ∧ found = text ++ added ∧ after.head = quoteMark double := by
  induction fuel generalizing text c with
  | zero => omega
  | succ fuel ih =>
    rw [quotedParts] at h
    split at h
    · next closing =>
      cases h
      exact ⟨[], [], .self (.here _), by simp, beq_iff_eq.1 closing⟩
    · next goesOn =>
      obtain ⟨⟨space, d⟩, between, h⟩ := except_bind_eq_ok_iff.1 h
      obtain ⟨⟨word, e⟩, part, h⟩ := except_bind_eq_ok_iff.1 h
      have isDouble : (quoteMark double == '"') = double := by cases double <;> rfl
      rw [isDouble] at part
      obtain ⟨blanks, spaced, moves⟩ := quotedSpace_spec double between
      obtain ⟨run, added, spelled, rfl, ends⟩ := quotedWord_spec part
      have some := List.length_pos_iff.2 (moves (atEnd.resolve_right (by simpa using goesOn)))
      have := spaced.passes.length_le
      have := spelled.passes.length_le
      obtain ⟨passed, others, rest, rfl, closing⟩ := ih h (ends (by omega)) (by omega)
      exact ⟨_, _, (spaced.trans spelled).trans rest, by simp, closing⟩

theorem quotedScalar_spec {t : Token} (double : Bool) (quote : c.head = quoteMark double)
    (h : c.quotedScalar = .ok (t, after)) : ScalarAt c t after := by
  have isDouble : (quoteMark double == '"') = double := by cases double <;> rfl
  rw [quotedScalar, quote, isDouble] at h
  obtain ⟨rest, ahead⟩ := c.exists_rest (by rw [quote]; cases double <;> decide)
  have opening : Passes c [quoteMark double] c.next := .single (quote ▸ ahead)
  obtain ⟨⟨word, d⟩, part, h⟩ := except_bind_eq_ok_iff.1 h
  obtain ⟨⟨text, e⟩, parts, h⟩ := except_bind_eq_ok_iff.1 h
  cases h
  obtain ⟨run, added, spelled, rfl, ends⟩ := quotedWord_spec part
  have := opening.length_le
  have := spelled.passes.length_le
  obtain ⟨passed, others, goesOn, rfl, closing⟩ := quotedParts_spec parts (ends (by omega)) (by omega)
  obtain ⟨rest', ahead'⟩ := e.exists_rest (by rw [closing]; cases double <;> decide)
  have closed : Passes e [quoteMark double] e.next := .single (closing ▸ ahead')
  have inside := spelled.trans goesOn
  refine ⟨rfl, _, _, e.next, [], rfl, .quoted double rfl ((opening.trans inside.passes).trans closed)
    (fun line => inside.verbatim ?_), rfl, .here _⟩
  have before := opening.line_le
  have middle := inside.passes.line_le
  have after := closed.line_le
  omega

end ManifestLens.Yaml
