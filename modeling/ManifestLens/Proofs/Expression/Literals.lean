import ManifestLens.Proofs.Expression.Lossless
import ManifestLens.Proofs.Expression.Readable

/-!
# The literals of a line

A quoted literal stands in a line after a readable start (`IsLiteral`), so what is a literal is told by the text alone.
No readable start of the line ends within a literal (`IsLiteral.length_le`), and all tokens begin after readable starts
but the insides and the closing quotes of literals (`Stands`).  Hence the tokens that the lexer takes for texts are the
insides of the literals (`kind_eq_string_iff`).
-/

namespace ManifestLens.Expression

open Text (isBlank isWord allBlank)

/-! ### Literals and readable starts -/

/-- After a readable start, a line goes on with a literal between the given quotes. -/
structure IsLiteral (line start : List Char) (quote : Char) (inside rest : List Char) : Prop where
  eq : line = start ++ (quote :: inside ++ quote :: rest)
  isReadable : start ∈ readable
  isQuote : isQuote quote = true
  fits : ∀ c ∈ inside, isInside quote c = true

/-- A readable text that starts with a literal holds all of it. -/
private theorem length_le_of_literal {quote : Char} {inside rest text : List Char} (isQ : isQuote quote = true)
    (fits : ∀ c ∈ inside, isInside quote c = true) (isStart : text <+: quote :: inside ++ quote :: rest)
    (h : text ∈ readable) (nonempty : text ≠ []) : inside.length + 2 ≤ text.length := by
  obtain ⟨more, whole⟩ := isStart
  cases text with
  | nil => exact absurd rfl nonempty
  | cons c text =>
    rw [List.cons_append, List.cons_append, List.cons.injEq] at whole
    obtain ⟨rfl, whole⟩ := whole
    rcases cons_mem_readable_iff.1 h with ⟨plain, _⟩ | ⟨_, other, after, rfl, otherFits, _⟩
    · exact (not_isPlain_and_isQuote plain isQ).elim
    · rw [List.append_assoc, List.cons_append] at whole
      obtain ⟨rfl, -⟩ := inside_unique otherFits fits whole
      simp only [List.length_cons, List.length_append]
      omega

/-- No readable start of a line ends within a literal. -/
theorem IsLiteral.length_le {line start inside rest other : List Char} {quote : Char}
    (literal : IsLiteral line start quote inside rest) (isStart : other <+: line) (h : other ∈ readable) :
    other.length ≤ start.length ∨ start.length + inside.length + 2 ≤ other.length := by
  rw [literal.eq] at isStart
  rcases List.prefix_or_prefix_of_prefix isStart (List.prefix_append start _) with within | ⟨more, rfl⟩
  · exact .inl within.length_le
  · by_cases none : more = []
    · subst none
      exact .inl (by rw [List.append_nil])
    · have moreReadable := (append_mem_readable_iff literal.isReadable).1 h
      have moreStart := (List.prefix_append_right_inj start).1 isStart
      have := length_le_of_literal literal.isQuote literal.fits moreStart moreReadable none
      rw [List.length_append]
      omega

/-- The piece of a line at the given column is the inside of a quoted literal. -/
def IsInsideLiteral (line : List Char) (column : Nat) (piece : List Char) : Prop :=
  ∃ start quote rest, IsLiteral line start quote piece rest ∧ column = start.length + 1

/-! ### Where tokens stand -/

/-- Where a token stands in its line: after a readable start, inside of a literal, or at its end. -/
inductive Stands (line : List Char) (column : Nat) (t : Token) : Prop where
  | outside {start rest : List Char} (eq : line = start ++ rest) (isReadable : start ∈ readable)
      (atStart : column = start.length) (kind : t.kind ≠ .string)
  | inside {start rest : List Char} {quote : Char} (literal : IsLiteral line start quote t.text rest)
      (afterQuote : column = start.length + 1) (kind : t.kind = .string)
  | closing {start inside rest : List Char} {quote : Char} (literal : IsLiteral line start quote inside rest)
      (atEnd : column = start.length + 1 + inside.length) (text : t.text = [quote]) (kind : t.kind ≠ .string)

theorem Stands.kind_eq_string_iff {line : List Char} {column : Nat} {t : Token} (h : Stands line column t) :
    t.kind = .string ↔ IsInsideLiteral line column t.text := by
  cases h with
  | inside literal afterQuote kind => exact iff_of_true kind ⟨_, _, _, literal, afterQuote⟩
  | outside eq isReadable atStart kind =>
    refine iff_of_false kind ?_
    rintro ⟨start, quote, rest, literal, afterQuote⟩
    have := literal.length_le ⟨_, eq.symm⟩ isReadable
    omega
  | @closing start inside rest quote literal atEnd text kind =>
    refine iff_of_false kind ?_
    rintro ⟨otherStart, other, otherRest, otherLiteral, afterQuote⟩
    have := literal.length_le ⟨_, otherLiteral.eq.symm⟩ otherLiteral.isReadable
    -- so the literal is empty, and both literals start at the same place
    have sameLength : start.length = otherStart.length := by omega
    obtain ⟨rfl, same⟩ := List.append_inj (literal.eq.symm.trans otherLiteral.eq) sameLength
    obtain ⟨rfl, -⟩ := List.cons.inj same
    have opened := otherLiteral.fits quote (by rw [text]; exact List.mem_singleton_self quote)
    simp [isInside] at opened

/-- The tokens of the lexemes that come after a readable start of a line stand in the line. -/
private theorem stands_of_mem_lineTokens {text start : List Char} {line base column : Int} {previous : Position}
    {found : List Lexeme} {t : Token} (fits : ∀ lexeme ∈ found, lexeme.Fits)
    (eq : text = start ++ (found.map Lexeme.written).flatten) (isReadable : start ∈ readable)
    (mem : t ∈ lineTokens line base previous (column + start.length) found) :
    ∃ k : Nat, t.place = ⟨line, base + (column + k)⟩ ∧ Stands text k t := by
  induction found generalizing start previous with
  | nil => cases mem
  | cons lexeme found ih =>
    obtain ⟨here, others⟩ := List.forall_mem_cons.1 fits
    have next : text = (start ++ lexeme.written) ++ (found.map Lexeme.written).flatten := by
      rw [eq, List.map_cons, List.flatten_cons, List.append_assoc]
    have goesOn (previous : Position)
        (mem : t ∈ lineTokens line base previous (column + (start ++ lexeme.written).length) found) :=
      ih others next (append_mem_readable isReadable here.written_mem_readable) mem
    have atStart {t : Token} (place : t.place = ⟨line, base + (column + start.length)⟩) (kind : t.kind ≠ .string) :
        ∃ k : Nat, t.place = ⟨line, base + (column + k)⟩ ∧ Stands text k t :=
      ⟨start.length, place, .outside eq isReadable rfl kind⟩
    cases lexeme with
    | blank piece => exact goesOn previous (by simpa [Lexeme.written, lineTokens, Int.add_assoc] using mem)
    | word piece =>
      rcases List.mem_cons.1 mem with rfl | mem
      · exact atStart rfl (by simp)
      · exact goesOn _ (by simpa [Lexeme.written, Int.add_assoc] using mem)
    | operator piece =>
      rcases List.mem_cons.1 mem with rfl | mem
      · exact atStart rfl (by simp)
      · exact goesOn _ (by simpa [Lexeme.written, Int.add_assoc] using mem)
    | quoted quote piece =>
      have literal : IsLiteral text start quote piece (found.map Lexeme.written).flatten :=
        ⟨by simp [eq, Lexeme.written], isReadable, here.1, here.2⟩
      simp only [lineTokens, List.cons_append, List.mem_cons, List.mem_append] at mem
      rcases mem with rfl | mem | rfl | mem
      · exact atStart rfl (by simp)
      · split at mem
        · cases mem
        · obtain rfl := List.mem_singleton.1 mem
          exact ⟨start.length + 1, by simp [Int.add_assoc], .inside literal rfl rfl⟩
      · exact ⟨start.length + 1 + piece.length, by simp [Int.add_assoc], .closing literal rfl rfl (by simp)⟩
      · exact goesOn _ (by simpa [Lexeme.written, Int.add_assoc, Int.add_comm, Int.add_left_comm] using mem)

/-- Each token of lines stands in the line of its place. -/
theorem exists_stands_of_mem_tokensFrom {line previousLine offset base : Int} {texts : List (List Char)}
    {tokens : List Token} (h : tokensFrom line previousLine offset base texts = .ok tokens) :
    ∀ t ∈ tokens, ∃ (n k : Nat) (text : List Char), texts[n]? = some text ∧
      t.place = ⟨line + n, shift texts offset base n + k⟩ ∧ Stands text k t := by
  induction texts generalizing line previousLine offset base tokens with
  | nil =>
    cases h
    simp
  | cons text rest ih =>
    intro t mem
    obtain ⟨isBlank, h⟩ | ⟨written, found, others, hfound, hr, rfl⟩ := tokensFrom_cons_eq_ok h
    · obtain ⟨n, k, other, hn, place, stands⟩ := ih h t mem
      refine ⟨n + 1, k, other, hn, ?_, stands⟩
      rw [place, shift_blank isBlank, Position.mk.injEq, Int.natCast_add]
      omega
    · have moved := shift_written written rest offset base
      rcases List.mem_append.1 mem with mem | mem
      · have placed : ∃ k : Nat, t.place = ⟨line, base + (offset + k)⟩ ∧ Stands text k t :=
          stands_of_mem_lineTokens (fits_of_mem_lexemes hfound) (flatten_written hfound).symm
            (Language.nil_mem_kstar pieces) (by simpa using mem)
        obtain ⟨k, place, stands⟩ := placed
        refine ⟨0, k, text, rfl, ?_, stands⟩
        rw [place, (moved 0).1, Position.mk.injEq, Int.natCast_zero]
        omega
      · obtain ⟨n, k, other, hn, place, stands⟩ := ih hr t mem
        refine ⟨n + 1, k, other, hn, ?_, stands⟩
        rw [place, (moved n).2, Position.mk.injEq, Int.natCast_add]
        omega

/-- A token of an expression is the inside of a quoted literal of its line. -/
def Token.IsInside (t : Token) (texts : List (List Char)) (line offset base : Int) : Prop :=
  ∃ (n k : Nat) (text : List Char), texts[n]? = some text ∧ t.place.line - line = n ∧
    column texts line offset base t = k ∧ IsInsideLiteral text k t.text

/-- The lexer takes a token for a text exactly if it is the inside of a quoted literal. -/
theorem kind_eq_string_iff {texts : List (List Char)} {line offset base : Int} {tokens : List Token} {t : Token}
    (h : lex texts line offset base = .ok tokens) (mem : t ∈ tokens) :
    t.kind = .string ↔ t.IsInside texts line offset base := by
  obtain ⟨n, k, text, hn, place, stands⟩ := exists_stands_of_mem_tokensFrom h t mem
  have onLine : t.place.line - line = n := by
    rw [place]
    dsimp only
    omega
  have atColumn : column texts line offset base t = k := by
    rw [column, onLine, place]
    simp only [shift, Int.natCast_inj, Int.natCast_eq_zero]
    omega
  rw [stands.kind_eq_string_iff]
  constructor
  · intro inside
    exact ⟨n, k, text, hn, onLine, atColumn, inside⟩
  · rintro ⟨otherLine, otherColumn, other, hother, onOther, atOther, inside⟩
    obtain rfl : otherLine = n := by omega
    obtain rfl : otherColumn = k := by omega
    rw [hn] at hother
    cases hother
    exact inside

end ManifestLens.Expression
