import ManifestLens.Expression.Classify
import ManifestLens.Proofs.Outline.Deltas
import Mathlib.Data.List.TakeWhile

/-!
# Where the tokens of an expression stand

The lexemes of a line join back to the line (`flatten_written`), so every token of a line has an offset at which its
text stands there: its span.  The places of tokens are their spans moved to where the expression is
(`map_place_lineTokens`), and their distances lead to the same places (`decodeDeltas_lineTokens`,
`decodeDeltas_tokensFrom`).
-/

namespace ManifestLens.Expression

open Text (isBlank isWord allBlank)

variable {base here offset origin previousLine : Int} {d previous : Position} {after text : List Char}
  {tokens : List Token} {c quote : Char} {texts : List (List Char)}

/-! ### Lexemes and their line -/

private theorem closeQuote?_written {rest : List Char} {lexeme : Lexeme}
    (h : closeQuote? quote rest = some (lexeme, after)) : lexeme.written ++ after = quote :: rest := by
  unfold closeQuote? at h
  split at h
  · next c tail hd =>
    split at h
    · next hc =>
      cases h
      have hq : c = quote := by simpa using hc
      have cut := List.takeWhile_append_dropWhile (p := isInside quote) (l := rest)
      rw [hd, hq] at cut
      simp [Lexeme.written, cut]
    · cases h
  · cases h

private theorem operator?_written {rest : List Char} {lexeme : Lexeme} (h : operator? c rest = some (lexeme, after)) :
    lexeme.written ++ after = c :: rest := by
  unfold operator? at h
  split at h
  · next hc =>
    cases h
    simp only [Bool.and_eq_true, beq_iff_eq] at hc
    obtain ⟨rfl, hr⟩ := hc
    cases rest with
    | nil => cases hr
    | cons d rest => cases hr; rfl
  · split at h
    · cases h; rfl
    · cases h

theorem first?_written {line rest : List Char} {lexeme : Lexeme} (h : first? line = some (lexeme, rest)) :
    lexeme.written ++ rest = line := by
  cases line with
  | nil => cases h
  | cons c cs =>
    rw [first?] at h
    split at h
    · cases h; simp [Lexeme.written]
    · split at h
      · exact closeQuote?_written h
      · split at h
        · cases h; simp [Lexeme.written]
        · exact operator?_written h

/-- What holds of the empty line, and of a line if it holds of the rest after its first lexeme, holds of all lines
that can be cut into lexemes. -/
@[elab_as_elim]
theorem lexemes_induction {motive : List Char → List Lexeme → Prop} (empty : motive [] [])
    (cons : ∀ {line lexeme rest found}, first? line = some (lexeme, rest) → motive rest found →
      motive line (lexeme :: found))
    {line : List Char} {found : List Lexeme} (h : lexemes line = .ok found) : motive line found := by
  fun_induction lexemes line generalizing found with
  | case1 line isEmpty =>
    cases h
    rwa [List.isEmpty_iff.1 isEmpty]
  | case2 line nonempty none => cases h
  | case3 line nonempty lexeme rest first shorter ih =>
    cases hr : lexemes rest with
    | error bad => rw [hr] at h; cases h
    | ok others =>
      rw [hr] at h
      cases h
      exact cons first (ih hr)

/-- The lexemes of a line join back to the line. -/
theorem flatten_written {line : List Char} {found : List Lexeme} (h : lexemes line = .ok found) :
    (found.map Lexeme.written).flatten = line := by
  refine lexemes_induction rfl (fun first ih => ?_) h
  rw [List.map_cons, List.flatten_cons, ih, first?_written first]

/-! ### What lexemes are made of -/

/-- A lexeme is made of the characters of its kind.  An operator of one character is no word character: digits are
read as words. -/
def Lexeme.Fits : Lexeme → Prop
  | .blank text => text ≠ [] ∧ ∀ c ∈ text, isBlank c = true
  | .quoted quote text => isQuote quote = true ∧ ∀ c ∈ text, isInside quote c = true
  | .word text => text ≠ [] ∧ ∀ c ∈ text, isWord c = true
  | .operator text => text = ['-', '>'] ∨ ∃ c, text = [c] ∧ isOperator c = true ∧ isWord c = false

private theorem forall_mem_cons_takeWhile {p : Char → Bool} (hc : p c = true) (rest : List Char) :
    ∀ d ∈ c :: rest.takeWhile p, p d = true :=
  List.forall_mem_cons.2 ⟨hc, fun _ mem => List.mem_takeWhile_imp mem⟩

private theorem fits_closeQuote? {rest : List Char} {lexeme : Lexeme} (isQ : isQuote quote = true)
    (h : closeQuote? quote rest = some (lexeme, after)) : lexeme.Fits := by
  unfold closeQuote? at h
  split at h
  · split at h
    · cases h
      exact ⟨isQ, fun _ mem => List.mem_takeWhile_imp mem⟩
    · cases h
  · cases h

private theorem fits_operator? {rest : List Char} {lexeme : Lexeme} (noWord : isWord c = false)
    (h : operator? c rest = some (lexeme, after)) : lexeme.Fits := by
  unfold operator? at h
  split at h
  · cases h
    exact .inl rfl
  · split at h
    · next isOp =>
      cases h
      exact .inr ⟨c, rfl, isOp, noWord⟩
    · cases h

theorem fits_first? {line rest : List Char} {lexeme : Lexeme} (h : first? line = some (lexeme, rest)) :
    lexeme.Fits := by
  cases line with
  | nil => cases h
  | cons c cs =>
    rw [first?] at h
    split at h
    · next blank =>
      cases h
      exact ⟨List.cons_ne_nil _ _, forall_mem_cons_takeWhile blank cs⟩
    · split at h
      · next isQ => exact fits_closeQuote? isQ h
      · split at h
        · next word =>
          cases h
          exact ⟨List.cons_ne_nil _ _, forall_mem_cons_takeWhile word cs⟩
        · next noWord => exact fits_operator? (Bool.not_eq_true _ ▸ noWord) h

theorem fits_of_mem_lexemes {line : List Char} {found : List Lexeme} (h : lexemes line = .ok found) :
    ∀ lexeme ∈ found, lexeme.Fits := by
  refine lexemes_induction (List.forall_mem_nil _) (fun first ih => ?_) h
  exact List.forall_mem_cons.2 ⟨fits_first? first, ih⟩

/-! ### Spans -/

/-- The texts of the tokens of a line with their offsets, from the given offset on. -/
def spansFrom (offset : Nat) : List Lexeme → List (Nat × List Char)
  | [] => []
  | .blank text :: rest => spansFrom (offset + text.length) rest
  | .word text :: rest => (offset, text) :: spansFrom (offset + text.length) rest
  | .operator text :: rest => (offset, text) :: spansFrom (offset + text.length) rest
  | .quoted quote text :: rest =>
    (offset, [quote]) :: (if text.isEmpty then [] else [(offset + 1, text)]) ++
      (offset + 1 + text.length, [quote]) :: spansFrom (offset + 2 + text.length) rest

/-- The texts of the tokens of a line with their offsets; a line that cannot be lexed has none. -/
def spans (line : List Char) : List (Nat × List Char) :=
  match lexemes line with
  | .ok found => spansFrom 0 found
  | .error _ => []

theorem spans_of_lexemes {line : List Char} {found : List Lexeme} (h : lexemes line = .ok found) :
    spans line = spansFrom 0 found := by
  rw [spans, h]

private theorem isPrefix_drop_of_mem_spansFrom (start : List Char) {line : List Char} {k : Nat} (found : List Lexeme)
    (hline : line = start ++ (found.map Lexeme.written).flatten) (h : (k, text) ∈ spansFrom start.length found) :
    text <+: line.drop k := by
  induction found generalizing start with
  | nil => cases h
  | cons lexeme found ih =>
    have next : line = (start ++ lexeme.written) ++ (found.map Lexeme.written).flatten := by
      rw [hline, List.map_cons, List.flatten_cons, List.append_assoc]
    have here (a t b : List Char) (e : lexeme.written = a ++ t ++ b) : t <+: line.drop (start.length + a.length) := by
      rw [next, e, ← List.length_append]
      simp
    cases lexeme with
    | blank t => exact ih _ next (by simpa [spansFrom, Lexeme.written] using h)
    | word t =>
      simp only [spansFrom, List.mem_cons, Prod.mk.injEq] at h
      rcases h with ⟨rfl, rfl⟩ | h
      · exact here [] text [] (by simp [Lexeme.written])
      · exact ih _ next (by simpa [Lexeme.written] using h)
    | operator t =>
      simp only [spansFrom, List.mem_cons, Prod.mk.injEq] at h
      rcases h with ⟨rfl, rfl⟩ | h
      · exact here [] text [] (by simp [Lexeme.written])
      · exact ih _ next (by simpa [Lexeme.written] using h)
    | quoted quote t =>
      simp only [spansFrom, List.mem_append, List.mem_cons, Prod.mk.injEq, List.cons_append] at h
      rcases h with ⟨rfl, rfl⟩ | h | ⟨rfl, rfl⟩ | h
      · exact here [] [quote] (t ++ [quote]) (by simp [Lexeme.written])
      · split at h
        · cases h
        · simp only [List.mem_cons, List.not_mem_nil, or_false, Prod.mk.injEq] at h
          obtain ⟨rfl, rfl⟩ := h
          exact here [quote] text [quote] (by simp [Lexeme.written])
      · have := here (quote :: t) [quote] [] (by simp [Lexeme.written])
        simpa [Nat.add_assoc, Nat.add_comm, Nat.add_left_comm] using this
      · exact ih _ next (by simpa [Lexeme.written, Nat.add_assoc, Nat.add_comm, Nat.add_left_comm] using h)

/-- The text of a span stands in the line at its offset. -/
theorem isPrefix_drop_of_mem_spans {line : List Char} {k : Nat} (h : (k, text) ∈ spans line) :
    text <+: line.drop k := by
  cases hl : lexemes line with
  | error bad => simp [spans, hl] at h
  | ok found =>
    rw [spans_of_lexemes hl] at h
    exact isPrefix_drop_of_mem_spansFrom [] found (flatten_written hl).symm h

/-! ### Blank lines -/

private theorem all_isBlank_of_spansFrom {line : List Char} {found : List Lexeme} (h : lexemes line = .ok found) :
    ∀ n, spansFrom n found = [] → line.all isBlank := by
  refine lexemes_induction (fun _ _ => rfl) ?_ h
  intro line lexeme rest found first ih n hs
  cases lexeme with
  | blank text =>
    rw [← first?_written first, List.all_append, Bool.and_eq_true]
    exact ⟨List.all_eq_true.2 (fits_first? first).2, ih _ hs⟩
  | word text => cases hs
  | operator text => cases hs
  | quoted quote text => cases hs

private theorem lexemes_of_allBlank {rest : List Char} (h : allBlank (c :: rest)) :
    lexemes (c :: rest) = .ok [.blank (c :: rest)] := by
  simp only [allBlank, List.all_cons, Bool.and_eq_true, List.all_eq_true] at h
  have first : first? (c :: rest) = some (.blank (c :: rest), []) := by
    rw [first?, if_pos h.1, List.takeWhile_eq_self_iff.2 h.2, List.dropWhile_eq_nil_iff.2 h.2]
  rw [lexemes, if_neg (by simp)]
  split
  · next none => rw [first] at none; cases none
  · next some =>
    rw [first] at some
    cases some
    rw [lexemes]
    rfl

/-- A line that can be lexed has no tokens exactly if it is blank. -/
theorem spans_eq_nil_iff {line : List Char} {found : List Lexeme} (h : lexemes line = .ok found) :
    spans line = [] ↔ allBlank line = true := by
  constructor
  · intro hs
    rw [spans_of_lexemes h] at hs
    exact all_isBlank_of_spansFrom h 0 hs
  · intro hb
    cases line with
    | nil =>
      rw [spans, lexemes]
      rfl
    | cons c rest => rw [spans_of_lexemes (lexemes_of_allBlank hb), spansFrom, spansFrom]

theorem spans_of_allBlank {line : List Char} (h : allBlank line = true) : spans line = [] := by
  cases hl : lexemes line with
  | error bad => rw [spans, hl]
  | ok found => exact (spans_eq_nil_iff hl).2 h

/-! ### The tokens of a line -/

private theorem map_place_lineTokens_from (line base column : Int) (previous : Position) (n : Nat)
    (found : List Lexeme) :
    (lineTokens line base previous (column + n) found).map (fun t => (t.place, t.text)) =
      (spansFrom n found).map fun s => (⟨line, base + (column + s.1)⟩, s.2) := by
  induction found generalizing previous n with
  | nil => rfl
  | cons lexeme found ih =>
    cases lexeme with
    | blank text =>
      have := ih previous (n + text.length)
      simpa [lineTokens, spansFrom, Int.add_assoc] using this
    | word text =>
      have := ih ⟨line, column + n⟩ (n + text.length)
      simpa [lineTokens, spansFrom, Int.add_assoc] using this
    | operator text =>
      have := ih ⟨line, column + n⟩ (n + text.length)
      simpa [lineTokens, spansFrom, Int.add_assoc] using this
    | quoted quote text =>
      have := ih ⟨line, column + n + 1 + text.length⟩ (n + 2 + text.length)
      cases hempty : text.isEmpty <;> simpa [lineTokens, spansFrom, Int.add_assoc, hempty] using this

/-- The tokens of a line are its spans, from the column on at which the line starts. -/
theorem map_place_lineTokens (line base column : Int) (previous : Position) (found : List Lexeme) :
    (lineTokens line base previous column found).map (fun t => (t.place, t.text)) =
      (spansFrom 0 found).map fun s => (⟨line, base + (column + s.1)⟩, s.2) := by
  simpa using map_place_lineTokens_from line base column previous 0 found

/-- Seen from a decoder at `d`, column `x` of a line is at `origin + x` of line `here`, if the token before the line
is at `previous`. -/
def Aligned (d previous : Position) (line here origin : Int) : Prop :=
  ∀ x, d.advance ⟨line - previous.line, x - previous.character⟩ = ⟨here, origin + x⟩

private theorem aligned_same_line (line here origin column : Int) :
    Aligned ⟨here, origin + column⟩ ⟨line, column⟩ line here origin := by
  intro x
  simp only [Position.advance, Int.sub_self, if_true, Position.mk.injEq, true_and]
  omega

private theorem decodeDeltas_lineTokens_from {line : Int} (base column : Int) (n : Nat) (found : List Lexeme)
    (h : Aligned d previous line here origin) :
    decodeDeltas d ((lineTokens line base previous (column + n) found).map (·.delta)) =
      (spansFrom n found).map fun s => ⟨here, origin + (column + s.1)⟩ := by
  induction found generalizing d previous n with
  | nil => rfl
  | cons lexeme found ih =>
    cases lexeme with
    | blank text =>
      have := ih (n + text.length) h
      simpa [lineTokens, spansFrom, Int.add_assoc] using this
    | word text =>
      have := ih (n + text.length) (aligned_same_line line here origin (column + n))
      simpa [lineTokens, spansFrom, decodeDeltas, h (column + n), Int.add_assoc] using this
    | operator text =>
      have := ih (n + text.length) (aligned_same_line line here origin (column + n))
      simpa [lineTokens, spansFrom, decodeDeltas, h (column + n), Int.add_assoc] using this
    | quoted quote text =>
      have := ih (n + 2 + text.length) (aligned_same_line line here origin (column + n + 1 + text.length))
      cases hempty : text.isEmpty with
      | false =>
        simpa [lineTokens, spansFrom, decodeDeltas, h (column + n), Int.add_assoc, hempty] using this
      | true =>
        have none : text = [] := List.isEmpty_iff.1 hempty
        subst none
        simpa [lineTokens, spansFrom, decodeDeltas, h (column + n), Int.add_assoc] using this

/-- The distances between the tokens of a line lead to its spans. -/
theorem decodeDeltas_lineTokens {line : Int} (base column : Int) (found : List Lexeme)
    (h : Aligned d previous line here origin) :
    decodeDeltas d ((lineTokens line base previous column found).map (·.delta)) =
      (spansFrom 0 found).map fun s => ⟨here, origin + (column + s.1)⟩ := by
  simpa using decodeDeltas_lineTokens_from base column 0 found h

/-- After a line that is not blank the decoder is on that line. -/
theorem line_arrival_lineTokens {line : Int} (base column : Int) {found : List Lexeme}
    (hfound : lexemes text = .ok found) (notBlank : ¬allBlank text = true) (h : Aligned d previous line here origin) :
    (d.arrival ((lineTokens line base previous column found).map (·.delta))).line = here := by
  have some : spansFrom 0 found ≠ [] := by
    rw [← spans_of_lexemes hfound]
    exact fun none => notBlank ((spans_eq_nil_iff hfound).1 none)
  rw [Position.arrival_of_decodeDeltas (decodeDeltas_lineTokens base column found h)
    (List.getLast?_eq_some_getLast some)]

/-! ### Expressions over several lines -/

/-- The places of the tokens of lines, the first of which is line `line`. -/
def placesFrom (line : Int) : List (List Char) → List Position
  | [] => []
  | text :: rest => (spans text).map (fun s => ⟨line, s.1⟩) ++ placesFrom (line + 1) rest

private theorem aligned_later_line {line : Int} (h : previousLine < line) :
    Aligned d ⟨previousLine, 0⟩ line (d.line + (line - previousLine)) 0 := by
  intro x
  have : ¬line - previousLine = 0 := by omega
  simp [Position.advance, this]

/-- How the tokens of lines come about: a blank line has none, and after any other line the offset, the base and the
line before are settled. -/
theorem tokensFrom_cons_eq_ok {line : Int} {rest : List (List Char)}
    (h : tokensFrom line previousLine offset base (text :: rest) = .ok tokens) :
    allBlank text = true ∧ tokensFrom (line + 1) previousLine 0 base rest = .ok tokens ∨
      ¬allBlank text = true ∧ ∃ found others, lexemes text = .ok found ∧
        tokensFrom (line + 1) line 0 0 rest = .ok others ∧
        tokens = lineTokens line base ⟨previousLine, 0⟩ offset found ++ others := by
  rw [tokensFrom] at h
  split at h
  · next blank => exact .inl ⟨blank, h⟩
  · next notBlank =>
    split at h
    · cases h
    · next found hfound =>
      cases hr : tokensFrom (line + 1) line 0 0 rest with
      | error bad => rw [hr] at h; cases h
      | ok others =>
        rw [hr] at h
        cases h
        exact .inr ⟨notBlank, found, others, hfound, rfl, rfl⟩

/-- What holds of no lines, and of lines if it holds of those after the first, holds of all lines that have tokens. -/
@[elab_as_elim]
theorem tokensFrom_induction {motive : List (List Char) → List Token → Prop} (empty : motive [] [])
    (blank : ∀ {text rest tokens}, allBlank text = true → motive rest tokens → motive (text :: rest) tokens)
    (written : ∀ {text rest found others} line base previous column, lexemes text = .ok found → motive rest others →
      motive (text :: rest) (lineTokens line base previous column found ++ others)) {line : Int}
    (h : tokensFrom line previousLine offset base texts = .ok tokens) : motive texts tokens := by
  induction texts generalizing line previousLine offset base tokens with
  | nil =>
    cases h
    exact empty
  | cons text rest ih =>
    obtain ⟨isBlank, h⟩ | ⟨-, found, others, hfound, hr, rfl⟩ := tokensFrom_cons_eq_ok h
    · exact blank isBlank (ih h)
    · exact written _ _ _ _ hfound (ih hr)

/-- The places of the tokens of lines that start at no offset. -/
theorem map_place_tokensFrom {line : Int} (h : tokensFrom line previousLine 0 0 texts = .ok tokens) :
    tokens.map (·.place) = placesFrom line texts := by
  induction texts generalizing line previousLine tokens with
  | nil => cases h; rfl
  | cons text rest ih =>
    obtain ⟨blank, h⟩ | ⟨-, found, others, hfound, hr, rfl⟩ := tokensFrom_cons_eq_ok h
    · rw [placesFrom, spans_of_allBlank blank, List.map_nil, List.nil_append, ih h]
    · have here := congrArg (List.map Prod.fst) (map_place_lineTokens line 0 0 ⟨previousLine, 0⟩ found)
      simp only [List.map_map, Function.comp_def, Int.zero_add] at here
      rw [List.map_append, ih hr, placesFrom, spans_of_lexemes hfound, here]

/-- The distances between the tokens of lines lead to the places of their spans, on lines counted from the decoder's
own line. -/
theorem decodeDeltas_tokensFrom {line : Int} (h : tokensFrom line previousLine 0 0 texts = .ok tokens)
    (hl : previousLine < line) :
    decodeDeltas d (tokens.map (·.delta)) = placesFrom (d.line + (line - previousLine)) texts := by
  induction texts generalizing d line previousLine tokens with
  | nil => cases h; rfl
  | cons text rest ih =>
    obtain ⟨blank, h⟩ | ⟨notBlank, found, others, hfound, hr, rfl⟩ := tokensFrom_cons_eq_ok h
    · rw [placesFrom, spans_of_allBlank blank, List.map_nil, List.nil_append, ih h (by omega)]
      congr 1
      omega
    · have here := decodeDeltas_lineTokens 0 0 found (aligned_later_line (d := d) hl)
      simp only [Int.zero_add] at here
      have arrives := line_arrival_lineTokens 0 0 hfound notBlank (aligned_later_line (d := d) hl)
      rw [List.map_append, decodeDeltas_append, here, ih hr (by omega), arrives, placesFrom, spans_of_lexemes hfound]
      congr 2
      omega

/-- The tokens of an expression on one line. -/
theorem tokensFrom_single {line : Int} (h : tokensFrom line previousLine offset base [text] = .ok tokens) :
    ∃ found, spans text = spansFrom 0 found ∧ tokens = lineTokens line base ⟨previousLine, 0⟩ offset found := by
  obtain ⟨blank, h⟩ | ⟨-, found, others, hfound, hr, rfl⟩ := tokensFrom_cons_eq_ok h
  · cases h
    exact ⟨[], spans_of_allBlank blank, rfl⟩
  · cases hr
    exact ⟨found, spans_of_lexemes hfound, List.append_nil _⟩

theorem placesFrom_add (base line : Int) (texts : List (List Char)) :
    placesFrom (base + line) texts = (placesFrom line texts).map fun p => ⟨base + p.line, p.character⟩ := by
  induction texts generalizing line with
  | nil => rfl
  | cons text rest ih =>
    rw [placesFrom, placesFrom, List.map_append, List.map_map, ← ih, Int.add_assoc]
    rfl

/-- The places of lines are on these lines. -/
theorem line_of_mem_placesFrom {line : Int} {p : Position} (h : p ∈ placesFrom line texts) :
    line ≤ p.line ∧ p.line < line + texts.length := by
  induction texts generalizing line with
  | nil => cases h
  | cons text rest ih =>
    rw [placesFrom, List.mem_append] at h
    rw [List.length_cons]
    rcases h with h | h
    · obtain ⟨s, _, rfl⟩ := List.mem_map.1 h
      dsimp only
      omega
    · have := ih h
      omega

/-! ### Classification -/

/-- What does not depend on the kind of a token is not changed by classifying it. -/
theorem map_classify {β : Type} (base : Int) (f : ManifestLens.Token → β) (g : Token → β)
    (h : ∀ t kind remark, f (t.highlight base kind remark) = g t) (o : Openings) (tokens : List Token) :
    (classify base o tokens).map f = tokens.map g := by
  induction tokens generalizing o with
  | nil => rfl
  | cons t tokens ih =>
    rw [classify]
    split <;> rw [List.map_cons, List.map_cons, h, ih]

theorem map_delta_classify (base : Int) (o : Openings) (tokens : List Token) :
    (classify base o tokens).map (·.delta) = tokens.map (·.delta) :=
  map_classify base _ _ (fun _ _ _ => rfl) o tokens

end ManifestLens.Expression
