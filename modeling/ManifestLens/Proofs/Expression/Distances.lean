import ManifestLens.Proofs.Expression.Lossless

/-!
# Distances and places agree

A token of an expression has its place twice: as the distance from the token before, and as a line and column.  Both
are told by the spans of the lines: the distances lead to the spans, moved by the offset on the first line
(`decodeDeltas_eq_spansOfLines`), and the places are these moved by the base as well.  So a decoder that starts at the
origin comes to the line of each token and to its column less the base (`decodeDeltas_lex`).
-/

namespace ManifestLens.Expression

open Text (allBlank)

/-- The place of a token, with the base taken off its column if it is on the line with the given number; lines are
numbered from line `line`. -/
def Token.offBase (t : Token) (line base : Int) (number : Nat) : Position :=
  ⟨t.place.line, t.place.character - if t.place.line - line = number then base else 0⟩

/-- Where a span stands if the first of the lines is line `line` and starts at the offset. -/
def spanPlace (line offset : Int) (m : Nat × Nat × List Char) : Position :=
  ⟨line + m.1, (if m.1 = 0 then offset else 0) + m.2.1⟩

private theorem spanPlace_zero (line offset : Int) (s : Nat × List Char) :
    spanPlace line offset (0, s) = ⟨line, offset + s.1⟩ := by
  simp [spanPlace]

private theorem spanPlace_succ (line offset : Int) (m : Nat × Nat × List Char) :
    spanPlace line offset (m.1 + 1, m.2) = spanPlace (line + 1) 0 m := by
  simp only [spanPlace, Nat.succ_ne_zero, if_false, ite_self, Position.mk.injEq, and_true, Int.natCast_add]
  omega

private theorem placesFrom_eq_spansOfLines (line : Int) (texts : List (List Char)) :
    placesFrom line texts = (spansOfLines texts).map (spanPlace line 0) := by
  induction texts generalizing line with
  | nil => rfl
  | cons text rest ih =>
    rw [placesFrom, spansOfLines, List.map_append, List.map_map, List.map_map, ih]
    congr 1
    · exact List.map_congr_left fun s _ => by rw [Function.comp_apply, spanPlace_zero, Int.zero_add]
    · exact List.map_congr_left fun m _ => (spanPlace_succ line 0 m).symm

/-- Seen from the start of a line, each line is where it is, be it the same one or not. -/
private theorem aligned_start (previousLine line : Int) :
    Aligned ⟨previousLine, 0⟩ ⟨previousLine, 0⟩ line line 0 := by
  intro x
  simp only [Position.advance]
  split <;> simp only [Position.mk.injEq] <;> omega

/-- The distances between the tokens of lines lead to the spans of the lines. -/
theorem decodeDeltas_eq_spansOfLines {line previousLine offset base : Int} {texts : List (List Char)}
    {tokens : List Token} (h : tokensFrom line previousLine offset base texts = .ok tokens) :
    decodeDeltas ⟨previousLine, 0⟩ (tokens.map (·.delta)) = (spansOfLines texts).map (spanPlace line offset) := by
  -- only the blank lines before the first token are left to the induction: after it the lines start at no offset
  induction texts generalizing line offset tokens with
  | nil =>
    cases h
    rfl
  | cons text rest ih =>
    rw [spansOfLines, List.map_append, List.map_map, List.map_map]
    obtain ⟨isBlank, h⟩ | ⟨notBlank, found, others, hfound, hr, rfl⟩ := tokensFrom_cons_eq_ok h
    · rw [ih h, spans_of_allBlank isBlank, List.map_nil, List.nil_append]
      exact List.map_congr_left fun m _ => (spanPlace_succ line offset m).symm
    · have here := decodeDeltas_lineTokens base offset found (aligned_start previousLine line)
      have arrives := line_arrival_lineTokens base offset hfound notBlank (aligned_start previousLine line)
      have next : line + (line + 1 - line) = line + 1 := by omega
      rw [List.map_append, decodeDeltas_append, here, decodeDeltas_tokensFrom hr (by omega), arrives, next,
        placesFrom_eq_spansOfLines, spans_of_lexemes hfound]
      congr 1
      · exact List.map_congr_left fun s _ => by rw [Function.comp_apply, spanPlace_zero, Int.zero_add]
      · exact List.map_congr_left fun m _ => (spanPlace_succ line offset m).symm

/-- Following the distances between the tokens of an expression from the origin leads to the line of each token, and
to its column less the base if it is on the first line that is not blank. -/
theorem decodeDeltas_lex {texts : List (List Char)} {line offset base : Int} {tokens : List Token}
    (h : lex texts line offset base = .ok tokens) :
    decodeDeltas .origin (tokens.map (·.delta)) = tokens.map (·.offBase line base (firstWritten texts)) := by
  have placed := congrArg
    (List.map fun p : Int × Int × List Char => (⟨line + p.1, (if p.1 = 0 then offset else 0) + p.2.1⟩ : Position))
    (map_columns_lex h)
  rw [List.map_map, List.map_map] at placed
  calc decodeDeltas .origin (tokens.map (·.delta))
    _ = (spansOfLines texts).map (spanPlace line offset) := decodeDeltas_eq_spansOfLines h
    _ = _ := List.map_congr_left fun m _ => by simp [spanPlace]
    _ = _ := placed.symm
    _ = tokens.map (·.offBase line base (firstWritten texts)) := by
      refine List.map_congr_left fun t _ => ?_
      simp only [Function.comp_apply, column, Token.offBase, Position.mk.injEq]
      omega

/-- An expression with blank lines before and between its lines, a quoted literal and an empty one. -/
private def spreadLines : List (List Char) :=
  ["  ", "=size + 'a b'", "", "  ? \"\" : x", " "].map String.toList

-- the lines are counted from -1, so the first token is on line 0, where the decoder starts
theorem decodeDeltas_lex_spreadLines : ∃ tokens, lex spreadLines (-1) 4 7 = .ok tokens ∧
    tokens.map (·.place) =
      [⟨0, 7⟩, ⟨0, 8⟩, ⟨0, 13⟩, ⟨0, 15⟩, ⟨0, 16⟩, ⟨0, 19⟩, ⟨2, 2⟩, ⟨2, 4⟩, ⟨2, 5⟩, ⟨2, 7⟩, ⟨2, 9⟩] ∧
    decodeDeltas .origin (tokens.map (·.delta)) =
      [⟨0, 0⟩, ⟨0, 1⟩, ⟨0, 6⟩, ⟨0, 8⟩, ⟨0, 9⟩, ⟨0, 12⟩, ⟨2, 2⟩, ⟨2, 4⟩, ⟨2, 5⟩, ⟨2, 7⟩, ⟨2, 9⟩] := by
  have places : ((lex spreadLines (-1) 4 7).toOption.map fun tokens => tokens.map (·.place)) =
      some [⟨0, 7⟩, ⟨0, 8⟩, ⟨0, 13⟩, ⟨0, 15⟩, ⟨0, 16⟩, ⟨0, 19⟩, ⟨2, 2⟩, ⟨2, 4⟩, ⟨2, 5⟩, ⟨2, 7⟩, ⟨2, 9⟩] := by
    decide +kernel
  cases h : lex spreadLines (-1) 4 7 with
  | error rest =>
    rw [h] at places
    cases places
  | ok tokens =>
    rw [h] at places
    have placed := Option.some.inj places
    have first : firstWritten spreadLines = 1 := by decide +kernel
    refine ⟨tokens, rfl, placed, ?_⟩
    have moved := congrArg
      (List.map fun p : Position => (⟨p.line, p.character - if p.line - -1 = (1 : Nat) then 7 else 0⟩ : Position))
        placed
    rw [decodeDeltas_lex h, first]
    rw [List.map_map] at moved
    exact moved

end ManifestLens.Expression
