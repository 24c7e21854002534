import ManifestLens.Fault
import ManifestLens.Proofs.Expression.Spans
import Mathlib.Computability.Language
import Mathlib.Tactic.IntervalCases

/-!
# The lines that can be lexed

A line is readable if it is a sequence of blanks, word characters, operators and quoted literals (`readable`).  No
piece of a line is the start of another, so a readable text can be taken off the front of a longer one
(`append_mem_readable_iff`), and it does not matter that the lexer takes blanks and words in runs.  The lexer accepts
an expression exactly if its lines are readable, and otherwise shows what is left of the first other line after its
longest readable start (`lex_readable`).
-/

namespace ManifestLens.Expression

open Text (isBlank isWord allBlank)
open Computability

variable {a after b inside other rest text : List Char} {c quote : Char}

/-! ### The language -/

/-- The texts of one character of a class. -/
def single (p : Char → Bool) : Language Char :=
  {text | ∃ c, text = [c] ∧ p c = true}

/-- The literals between the given quotes: neither the quote nor a line feed stands inside. -/
def literal (quote : Char) : Language Char :=
  {text | ∃ inside, text = quote :: inside ++ [quote] ∧ quote ∉ inside ∧ '\n' ∉ inside}

/-- The characters that are operators.  Digits are among them, but are read as word characters. -/
def operators : List Char :=
  "\x7b\x7d()[].,:;?!+-*/=<>&|^$\\0123456789".toList

/-- What a readable line is made of. -/
def pieces : Language Char :=
  single isBlank + single isWord + single operators.contains + literal '\'' + literal '"'

/-- The lines that can be lexed. -/
def readable : Language Char :=
  pieces∗

theorem isOperator_iff : isOperator c = true ↔ c ∈ operators := by
  constructor
  · intro h
    simp only [isOperator, Bool.or_eq_true, Bool.and_eq_true, decide_eq_true_eq] at h
    rcases h with ⟨low, high⟩ | h
    · have lower : 42 ≤ c.toNat := low
      have upper : c.toNat ≤ 61 := high
      rw [← Char.ofNat_toNat c]
      generalize c.toNat = n at lower upper ⊢
      interval_cases n <;> decide
    · have listed : "\x7b\x7d()[]^$!<>|?&\\".toList.all operators.contains = true := by decide
      exact List.contains_iff_mem.1 (List.all_eq_true.1 listed c (List.contains_iff_mem.1 h))
  · have listed : operators.all isOperator = true := by decide
    exact List.all_eq_true.1 listed c

/-- A character that is a piece of its own. -/
def isPlain (c : Char) : Bool :=
  isBlank c || isWord c || isOperator c

theorem isPlain_of_isQuote (h : isQuote c = true) : isPlain c = false := by
  simp only [isQuote, Bool.or_eq_true, beq_iff_eq] at h
  rcases h with rfl | rfl <;> decide

theorem not_isPlain_and_isQuote (plain : isPlain c = true) (isQ : isQuote c = true) : False := by
  rw [isPlain_of_isQuote isQ] at plain
  cases plain

private theorem forall_isInside_iff : (∀ c ∈ inside, isInside quote c = true) ↔ quote ∉ inside ∧ '\n' ∉ inside := by
  simp only [isInside, Bool.and_eq_true, bne_iff_ne, ne_eq, forall_and, List.forall_mem_ne']

theorem mem_literal_iff :
    text ∈ literal quote ↔
      ∃ inside, text = quote :: inside ++ [quote] ∧ ∀ c ∈ inside, isInside quote c = true := by
  simp only [forall_isInside_iff]
  rfl

/-- A piece is a plain character or a quoted literal. -/
private theorem mem_pieces_iff :
    text ∈ pieces ↔ (∃ c, text = [c] ∧ isPlain c = true) ∨
      ∃ quote inside, text = quote :: inside ++ [quote] ∧ isQuote quote = true ∧
        ∀ c ∈ inside, isInside quote c = true := by
  simp only [pieces, Language.mem_add, mem_literal_iff]
  constructor
  · rintro ((((⟨c, rfl, h⟩ | ⟨c, rfl, h⟩) | ⟨c, rfl, h⟩) | ⟨inside, rfl, h⟩) | ⟨inside, rfl, h⟩)
    · exact .inl ⟨c, rfl, by simp [isPlain, h]⟩
    · exact .inl ⟨c, rfl, by simp [isPlain, h]⟩
    · exact .inl ⟨c, rfl, by simp [isPlain, isOperator_iff.2 (List.contains_iff_mem.1 h)]⟩
    · exact .inr ⟨_, inside, rfl, rfl, h⟩
    · exact .inr ⟨_, inside, rfl, rfl, h⟩
  · rintro (⟨c, rfl, h⟩ | ⟨quote, inside, rfl, isQ, h⟩)
    · simp only [isPlain, Bool.or_eq_true] at h
      rcases h with (h | h) | h
      · exact .inl (.inl (.inl (.inl ⟨c, rfl, h⟩)))
      · exact .inl (.inl (.inl (.inr ⟨c, rfl, h⟩)))
      · exact .inl (.inl (.inr ⟨c, rfl, List.contains_iff_mem.2 (isOperator_iff.1 h)⟩))
    · simp only [isQuote, Bool.or_eq_true, beq_iff_eq] at isQ
      rcases isQ with rfl | rfl
      · exact .inl (.inr ⟨inside, rfl, h⟩)
      · exact .inr ⟨inside, rfl, h⟩

private theorem mem_readable_of_mem_pieces (h : text ∈ pieces) : text ∈ readable :=
  (le_kstar : pieces ≤ pieces∗) h

theorem literal_mem_readable (isQ : isQuote quote = true) (fits : ∀ c ∈ inside, isInside quote c = true) :
    quote :: inside ++ [quote] ∈ readable :=
  mem_readable_of_mem_pieces (mem_pieces_iff.2 (.inr ⟨quote, inside, rfl, isQ, fits⟩))

theorem append_mem_readable (ha : a ∈ readable) (hb : b ∈ readable) : a ++ b ∈ readable := by
  have both := Language.append_mem_mul ha hb
  rwa [readable, kstar_mul_kstar] at both

theorem flatten_mem_readable {parts : List (List Char)} (h : ∀ text ∈ parts, text ∈ readable) :
    parts.flatten ∈ readable := by
  induction parts with
  | nil => exact Language.nil_mem_kstar pieces
  | cons text parts ih =>
    obtain ⟨here, others⟩ := List.forall_mem_cons.1 h
    exact append_mem_readable here (ih others)

/-- A readable text starts with a plain character or with a quoted literal, and goes on with a readable text. -/
theorem cons_mem_readable_iff :
    c :: rest ∈ readable ↔ isPlain c = true ∧ rest ∈ readable ∨
      isQuote c = true ∧ ∃ inside after, rest = inside ++ c :: after ∧ (∀ d ∈ inside, isInside c d = true) ∧
        after ∈ readable := by
  constructor
  · rintro ⟨parts, whole, isPiece⟩
    cases parts with
    | nil => cases whole
    | cons part parts =>
      obtain ⟨first, others⟩ := List.forall_mem_cons.1 isPiece
      have later : parts.flatten ∈ readable := Language.join_mem_kstar others
      rcases mem_pieces_iff.1 first with ⟨d, rfl, plain⟩ | ⟨quote, inside, rfl, isQ, fits⟩
      · cases whole
        exact .inl ⟨plain, later⟩
      · simp only [List.flatten_cons, List.cons_append, List.append_assoc, List.nil_append, List.cons.injEq] at whole
        obtain ⟨rfl, rfl⟩ := whole
        exact .inr ⟨isQ, inside, _, rfl, fits, later⟩
  · rintro (⟨plain, later⟩ | ⟨isQ, inside, after, rfl, fits, later⟩)
    · have first : [c] ∈ pieces := mem_pieces_iff.2 (.inl ⟨c, rfl, plain⟩)
      exact append_mem_readable (mem_readable_of_mem_pieces first) later
    · simpa using append_mem_readable (literal_mem_readable isQ fits) later

theorem mem_readable_of_isPlain (h : text.all isPlain = true) : text ∈ readable := by
  induction text with
  | nil => exact Language.nil_mem_kstar pieces
  | cons c rest ih =>
    obtain ⟨plain, later⟩ := Bool.and_eq_true_iff.1 h
    exact cons_mem_readable_iff.2 (.inl ⟨plain, ih later⟩)

private theorem closeQuote?_append (after : List Char) (fits : ∀ c ∈ inside, isInside quote c = true) :
    closeQuote? quote (inside ++ quote :: after) = some (.quoted quote inside, after) := by
  have closing : isInside quote quote = false := by simp [isInside]
  rw [closeQuote?, List.dropWhile_append_of_pos fits, List.takeWhile_append_of_pos fits]
  simp [closing]

/-- A literal ends at the first of its quotes, so there is only one way to close it. -/
theorem inside_unique (fits : ∀ c ∈ inside, isInside quote c = true) (otherFits : ∀ c ∈ other, isInside quote c = true)
    (same : inside ++ quote :: after = other ++ quote :: rest) : inside = other ∧ after = rest := by
  have here := closeQuote?_append after fits
  have there := closeQuote?_append rest otherFits
  rw [← same, here] at there
  cases there
  exact ⟨rfl, rfl⟩

private theorem mem_readable_of_piece_append (ha : a ∈ pieces) (h : a ++ b ∈ readable) : b ∈ readable := by
  rcases mem_pieces_iff.1 ha with ⟨c, rfl, plain⟩ | ⟨quote, inside, rfl, isQ, fits⟩
  · rcases cons_mem_readable_iff.1 h with ⟨_, later⟩ | ⟨isQ, _⟩
    · exact later
    · exact (not_isPlain_and_isQuote plain isQ).elim
  · rw [List.cons_append, List.cons_append, List.append_assoc] at h
    rcases cons_mem_readable_iff.1 h with ⟨plain, _⟩ | ⟨_, other, after, same, otherFits, later⟩
    · exact (not_isPlain_and_isQuote plain isQ).elim
    · obtain ⟨-, rfl⟩ := inside_unique fits otherFits same
      exact later

/-- A readable text can be taken off the front of a text. -/
theorem append_mem_readable_iff (ha : a ∈ readable) : a ++ b ∈ readable ↔ b ∈ readable := by
  refine ⟨fun h => ?_, append_mem_readable ha⟩
  obtain ⟨parts, rfl, isPiece⟩ := ha
  induction parts with
  | nil => exact h
  | cons part parts ih =>
    obtain ⟨first, others⟩ := List.forall_mem_cons.1 isPiece
    rw [List.flatten_cons, List.append_assoc] at h
    exact ih others (mem_readable_of_piece_append first h)

/-! ### Lexemes and readable texts -/

theorem Lexeme.Fits.written_mem_readable {lexeme : Lexeme} (h : lexeme.Fits) : lexeme.written ∈ readable := by
  cases lexeme with
  | blank text => exact mem_readable_of_isPlain (List.all_eq_true.2 fun c mem => by simp [isPlain, h.2 c mem])
  | word text => exact mem_readable_of_isPlain (List.all_eq_true.2 fun c mem => by simp [isPlain, h.2 c mem])
  | operator text =>
    rcases h with rfl | ⟨c, rfl, isOp, _⟩
    · exact mem_readable_of_isPlain (by decide)
    · exact mem_readable_of_isPlain (by simp [Lexeme.written, isPlain, isOp])
  | quoted quote text => exact literal_mem_readable h.1 h.2

private theorem operator?_ne_none (isOp : isOperator c = true) : operator? c rest ≠ none := by
  rw [operator?, if_pos isOp]
  split <;> simp

/-- Where the lexer is stuck, only the empty text is a readable start. -/
private theorem eq_nil_of_first?_eq_none {line start : List Char} (stuck : first? line = none)
    (isStart : start <+: line) (h : start ∈ readable) : start = [] := by
  cases start with
  | nil => rfl
  | cons c start =>
    obtain ⟨rest, rfl⟩ := isStart
    rw [List.cons_append, first?] at stuck
    rcases cons_mem_readable_iff.1 h with ⟨plain, _⟩ | ⟨isQ, inside, after, rfl, fits, _⟩
    · have noQuote : ¬isQuote c = true := not_isPlain_and_isQuote plain
      simp only [isPlain, Bool.or_eq_true] at plain
      rw [if_neg noQuote] at stuck
      split at stuck
      · cases stuck
      · split at stuck
        · cases stuck
        · next noBlank noWord =>
          exact absurd stuck (operator?_ne_none (by simpa [noBlank, noWord] using plain))
    · have noPlain := isPlain_of_isQuote isQ
      simp only [isPlain, Bool.or_eq_false_iff] at noPlain
      rw [noPlain.1.1, if_neg (by simp), if_pos isQ, List.append_assoc, List.cons_append, closeQuote?_append _ fits]
        at stuck
      cases stuck

/-- What is left of a text after its longest readable start. -/
def IsRest (text rest : List Char) : Prop :=
  ∃ start, text = start ++ rest ∧ start ∈ readable ∧
    ∀ other, other <+: text → other ∈ readable → other.length ≤ start.length

private theorem isRest_of_lexemes {line : List Char} (h : lexemes line = .error rest) :
    rest ≠ [] ∧ IsRest line rest := by
  fun_induction lexemes line generalizing rest with
  | case1 line empty => cases h
  | case2 line nonempty stuck =>
    cases h
    refine ⟨by simpa using nonempty, [], rfl, Language.nil_mem_kstar pieces, fun other isStart mem => ?_⟩
    rw [eq_nil_of_first?_eq_none stuck isStart mem]
  | case3 line nonempty lexeme after first shorter ih =>
    cases hr : lexemes after with
    | ok others => rw [hr] at h; cases h
    | error bad =>
      rw [hr] at h
      cases h
      obtain ⟨some, start, split, isReadable, longest⟩ := ih hr
      have written := (fits_first? first).written_mem_readable
      rw [← first?_written first]
      refine ⟨some, lexeme.written ++ start, by rw [split, List.append_assoc], append_mem_readable written isReadable,
        fun other isStart mem => ?_⟩
      rw [List.length_append]
      -- a start either ends within the lexeme or goes on after it
      rcases List.prefix_or_prefix_of_prefix isStart (List.prefix_append lexeme.written after) with within | ⟨more, rfl⟩
      · have := within.length_le
        omega
      · have := longest more ((List.prefix_append_right_inj _).1 isStart) ((append_mem_readable_iff written).1 mem)
        rw [List.length_append]
        omega

private theorem mem_readable_of_lexemes {line : List Char} {found : List Lexeme} (h : lexemes line = .ok found) :
    line ∈ readable := by
  rw [← flatten_written h]
  refine flatten_mem_readable (List.forall_mem_map.2 fun lexeme mem => ?_)
  exact (fits_of_mem_lexemes h lexeme mem).written_mem_readable

/-- A line is readable exactly if it can be cut into lexemes. -/
theorem mem_readable_iff {line : List Char} : line ∈ readable ↔ (lexemes line).isOk = true := by
  cases h : lexemes line with
  | ok found => exact iff_of_true (mem_readable_of_lexemes h) rfl
  | error rest =>
    obtain ⟨some, start, split, _, longest⟩ := isRest_of_lexemes h
    refine iff_of_false (fun mem => some ?_) (by simp [Except.isOk, Except.toBool])
    have := longest line (List.prefix_refl line) mem
    have := congrArg List.length split
    rw [List.length_append] at this
    exact List.eq_nil_of_length_eq_zero (by omega)

instance (line : List Char) : Decidable (line ∈ readable) :=
  decidable_of_iff _ mem_readable_iff.symm

/-! ### Expressions -/

/-- The lexer goes on after a readable line. -/
private theorem tokensFrom_of_mem_readable (h : text ∈ readable) (line previousLine offset base : Int)
    (rest : List (List Char)) : ∃ nextPrevious nextBase tokens,
      tokensFrom line previousLine offset base (text :: rest) =
        (tokensFrom (line + 1) nextPrevious 0 nextBase rest).map (tokens ++ ·) := by
  rw [tokensFrom]
  split
  · refine ⟨previousLine, base, [], ?_⟩
    cases tokensFrom (line + 1) previousLine 0 base rest <;> rfl
  · rw [mem_readable_iff] at h
    cases hfound : lexemes text with
    | error bad => rw [hfound] at h; cases h
    | ok found => exact ⟨line, 0, lineTokens line base ⟨previousLine, 0⟩ offset found, rfl⟩

private theorem mem_readable_of_allBlank (h : allBlank text = true) : text ∈ readable :=
  mem_readable_of_isPlain (List.all_eq_true.2 fun c mem => by simp [isPlain, List.all_eq_true.1 h c mem])

/-- The lexer stops at a line that is not readable. -/
private theorem tokensFrom_of_notMem_readable (h : text ∉ readable) : ∃ bad, IsRest text bad ∧
    ∀ (line previousLine offset base : Int) (rest : List (List Char)),
      tokensFrom line previousLine offset base (text :: rest) = .error bad := by
  cases hfound : lexemes text with
  | ok found => exact absurd (mem_readable_of_lexemes hfound) h
  | error bad =>
    refine ⟨bad, (isRest_of_lexemes hfound).2, fun line previousLine offset base rest => ?_⟩
    rw [tokensFrom, if_neg (fun blank => h (mem_readable_of_allBlank blank)), hfound]

theorem exists_tokensFrom_iff {texts : List (List Char)} {line previousLine offset base : Int} :
    (∃ tokens, tokensFrom line previousLine offset base texts = .ok tokens) ↔ ∀ text ∈ texts, text ∈ readable := by
  induction texts generalizing line previousLine offset base with
  | nil => simp [tokensFrom]
  | cons text rest ih =>
    rw [List.forall_mem_cons]
    by_cases h : text ∈ readable
    · obtain ⟨nextPrevious, nextBase, tokens, goesOn⟩ :=
        tokensFrom_of_mem_readable h line previousLine offset base rest
      rw [goesOn, ← @ih (line + 1) nextPrevious 0 nextBase]
      cases tokensFrom (line + 1) nextPrevious 0 nextBase rest <;> simp [h, Except.map]
    · obtain ⟨bad, _, stops⟩ := tokensFrom_of_notMem_readable h
      simp [h, stops]

private theorem exists_isRest_tokensFrom {good : List (List Char)} {later : List (List Char)}
    (readableBefore : ∀ text ∈ good, text ∈ readable) (h : text ∉ readable) (line previousLine offset base : Int) :
    ∃ bad, IsRest text bad ∧ tokensFrom line previousLine offset base (good ++ text :: later) = .error bad := by
  induction good generalizing line previousLine offset base with
  | nil =>
    obtain ⟨bad, isRest, stops⟩ := tokensFrom_of_notMem_readable h
    exact ⟨bad, isRest, stops line previousLine offset base later⟩
  | cons first good ih =>
    obtain ⟨here, others⟩ := List.forall_mem_cons.1 readableBefore
    obtain ⟨nextPrevious, nextBase, tokens, goesOn⟩ :=
      tokensFrom_of_mem_readable here line previousLine offset base (good ++ text :: later)
    obtain ⟨bad, isRest, stops⟩ := ih others (line + 1) nextPrevious 0 nextBase
    exact ⟨bad, isRest, by rw [List.cons_append, goesOn, stops]; rfl⟩

end ManifestLens.Expression
