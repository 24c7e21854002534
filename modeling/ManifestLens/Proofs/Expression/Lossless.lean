import ManifestLens.Proofs.Expression.Spans

/-!
# Nothing of an expression is lost

The spans of a line tile it (`Tiles`): they are pieces of the line that are not empty, one after the other, and only
blanks are between them.  The tokens of an expression are the spans of its lines, with lines and columns counted from
where the expression stands (`map_columns_lex`).  So the tokens stand in the lines in order, none over another, and
each character that no token holds is a blank (`lex_lossless`).
-/

namespace ManifestLens.Expression

open Text (isBlank isWord allBlank)

variable {texts : List (List Char)} {base offset previousLine : Int} {text : List Char} {tokens : List Token}

/-! ### Lexemes -/

/-- Blanks are blank, and words and operators are not empty. -/
def Lexeme.IsProper : Lexeme → Prop
  | .blank text => text.all isBlank = true
  | .quoted _ _ => True
  | .word text => text ≠ []
  | .operator text => text ≠ []

private theorem Lexeme.Fits.isProper {lexeme : Lexeme} (h : lexeme.Fits) : lexeme.IsProper := by
  cases lexeme with
  | blank text => exact List.all_eq_true.2 h.2
  | quoted quote text => trivial
  | word text => exact h.1
  | operator text =>
    rcases h with rfl | ⟨c, rfl, _⟩ <;> simp [Lexeme.IsProper]

/-! ### Tiles -/

/-- A text from offset `n` on is made of the texts of spans, which are not empty, with blanks before, between and after
them. -/
inductive Tiles : Nat → List Char → List (Nat × List Char) → Prop where
  | blank {n : Nat} {gap : List Char} (isGap : gap.all isBlank = true) : Tiles n gap []
  | span {n : Nat} {gap text rest : List Char} {spans : List (Nat × List Char)} (isGap : gap.all isBlank = true)
      (some : text ≠ []) (others : Tiles (n + gap.length + text.length) rest spans) :
      Tiles n (gap ++ (text ++ rest)) ((n + gap.length, text) :: spans)

namespace Tiles

variable {n : Nat} {whole : List Char} {spans : List (Nat × List Char)}

private theorem after_blank {gap : List Char} (isGap : gap.all isBlank = true)
    (h : Tiles (n + gap.length) whole spans) :
    Tiles n (gap ++ whole) spans := by
  have joined {more : List Char} (isMore : more.all isBlank = true) : (gap ++ more).all isBlank = true := by
    rw [List.all_append, isGap, isMore, Bool.and_self]
  cases h with
  | blank isMore => exact .blank (joined isMore)
  | @span _ more text rest spans isMore some others =>
    have together : Tiles n (gap ++ more ++ (text ++ rest)) ((n + (gap ++ more).length, text) :: spans) := by
      refine .span (joined isMore) some ?_
      rwa [List.length_append, ← Nat.add_assoc]
    rwa [List.length_append, ← Nat.add_assoc, List.append_assoc] at together

private theorem after_span (some : text ≠ []) (h : Tiles (n + text.length) whole spans) :
    Tiles n (text ++ whole) ((n, text) :: spans) :=
  .span (rfl : ([] : List Char).all isBlank = true) some h

/-- The text of a span is not empty and stands at its offset. -/
theorem text_of_mem (h : Tiles n whole spans) : ∀ s ∈ spans, n ≤ s.1 ∧ s.2 ≠ [] ∧ s.2 <+: whole.drop (s.1 - n) := by
  induction h with
  | blank isGap => simp
  | @span n gap text rest spans isGap some others ih =>
    refine List.forall_mem_cons.2 ⟨⟨by omega, some, ?_⟩, fun s mem => ?_⟩
    · rw [Nat.add_sub_cancel_left, List.drop_left]
      exact List.prefix_append text rest
    · obtain ⟨after, nonempty, stands⟩ := ih s mem
      refine ⟨by omega, nonempty, ?_⟩
      have split : s.1 - n = gap.length + (text.length + (s.1 - (n + gap.length + text.length))) := by omega
      rwa [split, List.drop_length_add_append, List.drop_length_add_append]

/-- The spans come one after the other, none over another. -/
private theorem pairwise (h : Tiles n whole spans) : spans.Pairwise fun s t => s.1 + s.2.length ≤ t.1 := by
  induction h with
  | blank isGap => exact .nil
  | span isGap some others ih => exact List.pairwise_cons.2 ⟨fun s mem => (others.text_of_mem s mem).1, ih⟩

/-- Each character is a blank or stands in a span. -/
theorem covers (h : Tiles n whole spans) {k : Nat} {c : Char} (hc : whole[k]? = some c) :
    isBlank c = true ∨ ∃ s ∈ spans, s.1 ≤ n + k ∧ n + k < s.1 + s.2.length := by
  induction h generalizing k with
  | blank isGap => exact .inl (List.all_eq_true.1 isGap c (List.mem_of_getElem? hc))
  | @span n gap text rest spans isGap some others ih =>
    by_cases inGap : k < gap.length
    · rw [List.getElem?_append_left inGap] at hc
      exact .inl (List.all_eq_true.1 isGap c (List.mem_of_getElem? hc))
    · by_cases inText : k < gap.length + text.length
      · exact .inr ⟨_, List.mem_cons_self, by dsimp only; omega⟩
      · rw [List.getElem?_append_right (by omega), List.getElem?_append_right (by omega)] at hc
        rcases ih hc with blank | ⟨s, mem, starts, ends⟩
        · exact .inl blank
        · exact .inr ⟨s, List.mem_cons_of_mem _ mem, by omega, by omega⟩

end Tiles

private theorem tiles_spansFrom (n : Nat) {found : List Lexeme} (proper : ∀ lexeme ∈ found, lexeme.IsProper) :
    Tiles n (found.map Lexeme.written).flatten (spansFrom n found) := by
  induction found generalizing n with
  | nil => exact .blank rfl
  | cons lexeme found ih =>
    obtain ⟨here, later⟩ := List.forall_mem_cons.1 proper
    rw [List.map_cons, List.flatten_cons]
    cases lexeme with
    | blank text => exact (ih (n + text.length) later).after_blank here
    | word text => exact (ih (n + text.length) later).after_span here
    | operator text => exact (ih (n + text.length) later).after_span here
    | quoted quote text =>
      have closing : Tiles (n + 1 + text.length) ([quote] ++ (found.map Lexeme.written).flatten)
          ((n + 1 + text.length, [quote]) :: spansFrom (n + 2 + text.length) found) := by
        have others := ih (n + 2 + text.length) later
        rw [show n + 2 + text.length = n + 1 + text.length + [quote].length by simp; omega] at others ⊢
        exact others.after_span (by simp)
      have opening : Lexeme.written (.quoted quote text) ++ (found.map Lexeme.written).flatten =
          [quote] ++ (text ++ ([quote] ++ (found.map Lexeme.written).flatten)) := by
        simp [Lexeme.written]
      rw [opening, spansFrom]
      refine Tiles.after_span (by simp) ?_
      by_cases empty : text = []
      · subst empty
        exact closing
      · rw [if_neg (by simpa using empty)]
        exact closing.after_span empty

/-- The spans of a line that can be lexed tile it. -/
theorem tiles_spans {line : List Char} {found : List Lexeme} (h : lexemes line = .ok found) :
    Tiles 0 line (spans line) := by
  have tiles := tiles_spansFrom 0 fun lexeme mem => (fits_of_mem_lexemes h lexeme mem).isProper
  rwa [flatten_written h, ← spans_of_lexemes h] at tiles

/-! ### The lines of an expression -/

/-- The spans of lines, each with the number of its line. -/
def spansOfLines : List (List Char) → List (Nat × Nat × List Char)
  | [] => []
  | text :: rest => (spans text).map (fun s => (0, s)) ++ (spansOfLines rest).map fun m => (m.1 + 1, m.2)

theorem mem_spansOfLines_iff {n : Nat} {s : Nat × List Char} :
    (n, s) ∈ spansOfLines texts ↔ ∃ text, texts[n]? = some text ∧ s ∈ spans text := by
  induction texts generalizing n with
  | nil => simp [spansOfLines]
  | cons text rest ih => cases n with
    | zero => simp [spansOfLines]
    | succ n => simp [spansOfLines, ih]

/-- Spans of earlier lines come first, and spans of one line one after the other. -/
theorem pairwise_spansOfLines (h : ∀ text ∈ texts, Tiles 0 text (spans text)) :
    (spansOfLines texts).Pairwise fun l m => l.1 < m.1 ∨ l.1 = m.1 ∧ l.2.1 + l.2.2.length ≤ m.2.1 := by
  induction texts with
  | nil => exact .nil
  | cons text rest ih =>
    obtain ⟨here, later⟩ := List.forall_mem_cons.1 h
    refine List.pairwise_append.2 ⟨?_, ?_, ?_⟩
    · exact List.pairwise_map.2 (here.pairwise.imp fun h => .inr ⟨rfl, h⟩)
    · exact List.pairwise_map.2 ((ih later).imp fun h => by dsimp only; omega)
    · intro l first m second
      obtain ⟨_, _, rfl⟩ := List.mem_map.1 first
      obtain ⟨_, _, rfl⟩ := List.mem_map.1 second
      exact .inl (Nat.succ_pos _)

theorem tiles_of_tokensFrom {line : Int} (h : tokensFrom line previousLine offset base texts = .ok tokens) :
    ∀ text ∈ texts, Tiles 0 text (spans text) := by
  refine tokensFrom_induction (List.forall_mem_nil _) (fun isBlank ih => ?_) (fun _ _ _ _ hfound ih => ?_) h
  · refine List.forall_mem_cons.2 ⟨?_, ih⟩
    rw [spans_of_allBlank isBlank]
    exact .blank isBlank
  · exact List.forall_mem_cons.2 ⟨tiles_spans hfound, ih⟩

/-! ### Columns -/

/-- The number of the first line that is not blank. -/
def firstWritten (texts : List (List Char)) : Nat :=
  texts.findIdx fun text => !allBlank text

/-- How far the columns of a line are moved: by the offset if it is the first line, and by the base if it is the first
line that is not blank. -/
def shift (texts : List (List Char)) (offset base : Int) (n : Nat) : Int :=
  (if n = 0 then offset else 0) + if n = firstWritten texts then base else 0

theorem shift_blank (isBlank : allBlank text = true) (rest : List (List Char)) (offset base : Int) (n : Nat) :
    shift (text :: rest) offset base (n + 1) = shift rest 0 base n := by
  have first : firstWritten (text :: rest) = firstWritten rest + 1 := by
    simp [firstWritten, List.findIdx_cons, isBlank]
  rw [shift, shift, first]
  by_cases here : n = firstWritten rest <;> simp [here]

theorem shift_written (written : ¬allBlank text = true) (rest : List (List Char)) (offset base : Int) (n : Nat) :
    shift (text :: rest) offset base 0 = offset + base ∧
      shift (text :: rest) offset base (n + 1) = shift rest 0 0 n := by
  have first : firstWritten (text :: rest) = 0 := by
    simp [firstWritten, List.findIdx_cons, written]
  simp [shift, first]

/-- The tokens are the spans of the lines, from where the lines start. -/
theorem map_place_text_tokensFrom {line : Int} (h : tokensFrom line previousLine offset base texts = .ok tokens) :
    tokens.map (fun t => (t.place, t.text)) =
      (spansOfLines texts).map fun m => (⟨line + m.1, shift texts offset base m.1 + m.2.1⟩, m.2.2) := by
  induction texts generalizing line previousLine offset base tokens with
  | nil =>
    cases h
    rfl
  | cons text rest ih =>
    rw [spansOfLines, List.map_append, List.map_map, List.map_map]
    obtain ⟨isBlank, h⟩ | ⟨written, found, others, hfound, hr, rfl⟩ := tokensFrom_cons_eq_ok h
    · rw [ih h, spans_of_allBlank isBlank, List.map_nil, List.nil_append]
      refine List.map_congr_left fun m _ => ?_
      simp only [Function.comp_apply, shift_blank isBlank, Prod.mk.injEq, Position.mk.injEq, and_true, Int.natCast_add]
      omega
    · have moved := shift_written written rest offset base
      rw [List.map_append, map_place_lineTokens, ih hr, spans_of_lexemes hfound]
      congr 1
      · refine List.map_congr_left fun s _ => ?_
        simp only [Function.comp_apply, (moved 0).1, Prod.mk.injEq, Position.mk.injEq, and_true]
        omega
      · refine List.map_congr_left fun m _ => ?_
        simp only [Function.comp_apply, (moved m.1).2, Prod.mk.injEq, Position.mk.injEq, and_true, Int.natCast_add]
        omega

/-- The column of a token in its own line: its character, less the base if it is on the first line that is not blank,
and less the offset if it is on the first line. -/
def column (texts : List (List Char)) (line offset base : Int) (t : Token) : Int :=
  t.place.character - (if t.place.line - line = firstWritten texts then base else 0) -
    if t.place.line - line = 0 then offset else 0

/-- The lines, columns and texts of the tokens are the spans of the lines. -/
theorem map_columns_lex {line : Int} (h : lex texts line offset base = .ok tokens) :
    tokens.map (fun t => (t.place.line - line, column texts line offset base t, t.text)) =
      (spansOfLines texts).map fun m => ((m.1 : Int), (m.2.1 : Int), m.2.2) := by
  have placed := congrArg (List.map fun p : Position × List Char =>
    (p.1.line - line, p.1.character - (if p.1.line - line = firstWritten texts then base else 0) -
      (if p.1.line - line = 0 then offset else 0), p.2)) (map_place_text_tokensFrom h)
  rw [List.map_map, List.map_map] at placed
  refine placed.trans (List.map_congr_left fun m _ => ?_)
  have number : line + (m.1 : Int) - line = m.1 := by omega
  simp only [Function.comp_apply, number, shift, Int.natCast_inj, Prod.mk.injEq, true_and, and_true,
    Int.natCast_eq_zero]
  omega

/-- Each token of an expression is a piece of one of its lines that is not empty.  Tokens of earlier lines come before
those of later ones, and those of a line stand one after the other, none over another.  Each character that no token
holds is a blank. -/
theorem lex_lossless {texts : List (List Char)} {line offset base : Int} {tokens : List Token}
    (h : lex texts line offset base = .ok tokens) :
    (∀ t ∈ tokens, ∃ (n k : Nat) (text : List Char), texts[n]? = some text ∧ t.place.line - line = n ∧
      column texts line offset base t = k ∧ t.text ≠ [] ∧ t.text <+: text.drop k) ∧
    (tokens.Pairwise fun s t => s.place.line < t.place.line ∨ s.place.line = t.place.line ∧
      column texts line offset base s + s.text.length ≤ column texts line offset base t) ∧
    ∀ (n k : Nat) (text : List Char) (c : Char), texts[n]? = some text → text[k]? = some c →
      isBlank c = true ∨ ∃ t ∈ tokens, t.place.line - line = n ∧ column texts line offset base t ≤ k ∧
        k < column texts line offset base t + t.text.length := by
  have seen := map_columns_lex h
  have tiled := tiles_of_tokensFrom h
  refine ⟨fun t mem => ?_, ?_, fun n k text c hn hc => ?_⟩
  · have own := List.mem_map_of_mem (f := fun t => (t.place.line - line, column texts line offset base t, t.text)) mem
    rw [seen] at own
    obtain ⟨⟨n, k, text⟩, isSpan, same⟩ := List.mem_map.1 own
    simp only [Prod.mk.injEq] at same
    obtain ⟨onLine, atColumn, rfl⟩ := same
    obtain ⟨whole, hn, isSpan⟩ := mem_spansOfLines_iff.1 isSpan
    obtain ⟨_, nonempty, stands⟩ := (tiled whole (List.mem_of_getElem? hn)).text_of_mem _ isSpan
    exact ⟨n, k, whole, hn, onLine.symm, atColumn.symm, nonempty, stands⟩
  · have ordered := pairwise_spansOfLines tiled
    have moved : ((spansOfLines texts).map fun m => ((m.1 : Int), (m.2.1 : Int), m.2.2)).Pairwise fun l m =>
        l.1 < m.1 ∨ l.1 = m.1 ∧ l.2.1 + (l.2.2.length : Int) ≤ m.2.1 :=
      List.pairwise_map.2 (ordered.imp fun h => by dsimp only; omega)
    rw [← seen] at moved
    exact (List.pairwise_map.1 moved).imp fun h => by dsimp only at h; omega
  · rcases (tiled text (List.mem_of_getElem? hn)).covers hc with blank | ⟨⟨start, piece⟩, isSpan, starts, ends⟩
    · exact .inl blank
    · dsimp only at starts ends
      have own := List.mem_map_of_mem (f := fun m : Nat × Nat × List Char => ((m.1 : Int), (m.2.1 : Int), m.2.2))
        (mem_spansOfLines_iff.2 ⟨text, hn, isSpan⟩)
      rw [← seen] at own
      obtain ⟨t, mem, same⟩ := List.mem_map.1 own
      simp only [Prod.mk.injEq] at same
      obtain ⟨onLine, atColumn, rfl⟩ := same
      refine .inr ⟨t, mem, onLine, ?_, ?_⟩ <;> rw [atColumn] <;> omega

/-- An expression whose first line is blank, with a quoted literal and an empty one. -/
private def fourLines : List (List Char) :=
  ["  ", "=size + 'a b'", "", "  ? \"\" : x"].map String.toList

theorem lex_lossless_fourLines : ∃ tokens, lex fourLines 3 4 7 = .ok tokens ∧
    tokens.map (fun t => (t.place.line, column fourLines 3 4 7 t, String.ofList t.text)) =
      [(4, 0, "="), (4, 1, "size"), (4, 6, "+"), (4, 8, "'"), (4, 9, "a b"), (4, 12, "'"), (6, 2, "?"), (6, 4, "\""),
        (6, 5, "\""), (6, 7, ":"), (6, 9, "x")] ∧
    ∀ t ∈ tokens, ∃ (n k : Nat) (text : List Char), fourLines[n]? = some text ∧ t.place.line - 3 = n ∧
      column fourLines 3 4 7 t = k ∧ t.text ≠ [] ∧ t.text <+: text.drop k := by
  have texts : ((lex fourLines 3 4 7).toOption.map fun tokens =>
      tokens.map fun t => (t.place.line, column fourLines 3 4 7 t, String.ofList t.text)) =
        some [(4, 0, "="), (4, 1, "size"), (4, 6, "+"), (4, 8, "'"), (4, 9, "a b"), (4, 12, "'"), (6, 2, "?"),
          (6, 4, "\""), (6, 5, "\""), (6, 7, ":"), (6, 9, "x")] := by
    decide +kernel
  cases h : lex fourLines 3 4 7 with
  | error rest =>
    rw [h] at texts
    cases texts
  | ok tokens =>
    rw [h] at texts
    exact ⟨tokens, rfl, Option.some.inj texts, (lex_lossless h).1⟩

end ManifestLens.Expression
