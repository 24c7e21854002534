import ManifestLens.Proofs.Expression.Readable

/-!
# Expressions that are written in symbols

An expression is written as a sequence of symbols: identifiers, numbers, quoted texts, operators and punctuation, with
any blanks between them (`symbols`).  All symbols are readable but one, the remainder operator, so the lexer accepts an
expression exactly if it has no remainder in it (`lex_flatten_iff`).
-/

namespace ManifestLens.Expression

open Text (isBlank isWord)
open Computability

variable {c : Char} {l m : Language Char} {text : List Char}

/-! ### Symbols -/

def isLetter (c : Char) : Bool :=
  c.isAlpha || c == '_'

/-- A letter, and then letters and digits. -/
def identifier : Language Char :=
  single isLetter * (single fun c => isLetter c || c.isDigit)∗

def digits : Language Char :=
  single Char.isDigit * (single Char.isDigit)∗

def exponent : Language Char :=
  single ['e', 'E'].contains * (1 + single ['+', '-'].contains) * digits

/-- A whole number, maybe marked as unsigned, or a number with a fraction, an exponent or both. -/
def decimal : Language Char :=
  digits * (1 + single ['u', 'U'].contains) + digits * exponent +
    (single Char.isDigit)∗ * single ['.'].contains * digits * (1 + exponent)

/-- The operators and the punctuation of expressions. -/
def signs : List String :=
  ["+", "-", "*", "/", "%", "<", "<=", ">", ">=", "==", "!=", "&&", "||", "!", "?", ":", ".", ",", "(", ")", "[", "]",
    "\x7b", "\x7d"]

def sign : Language Char :=
  {text | text ∈ signs.map String.toList}

/-- The symbols that an expression is written in. -/
def symbols : Language Char :=
  identifier + decimal + literal '\'' + literal '"' + sign

/-! ### Readable symbols -/

/-- All texts of a language are readable. -/
def AllReadable (l : Language Char) : Prop :=
  ∀ text ∈ l, text ∈ readable

namespace AllReadable

private theorem single {p : Char → Bool} (h : ∀ c, p c = true → isPlain c = true) : AllReadable (single p) := by
  rintro _ ⟨c, rfl, hc⟩
  exact mem_readable_of_isPlain (by simp [h c hc])

private theorem single_contains {chars : List Char} (h : chars.all isPlain = true) :
    AllReadable (Expression.single chars.contains) :=
  AllReadable.single fun c hc => List.all_eq_true.1 h c (List.contains_iff_mem.1 hc)

private theorem mul (hl : AllReadable l) (hm : AllReadable m) : AllReadable (l * m) := by
  rintro _ ⟨a, ha, b, hb, rfl⟩
  exact append_mem_readable (hl a ha) (hm b hb)

private theorem kstar (hl : AllReadable l) : AllReadable l∗ := by
  rintro _ ⟨parts, rfl, h⟩
  exact flatten_mem_readable fun text mem => hl text (h text mem)

private theorem one_add (hl : AllReadable l) : AllReadable (1 + l) := by
  rintro text (rfl | h)
  · exact Language.nil_mem_kstar pieces
  · exact hl text h

end AllReadable

private theorem isPlain_of_isLetter (h : isLetter c = true) : isPlain c = true := by
  simp only [isLetter, Bool.or_eq_true] at h
  rcases h with h | h <;> simp [isPlain, isWord, Char.isAlphanum, h]

private theorem isPlain_of_isDigit (h : c.isDigit = true) : isPlain c = true := by
  simp [isPlain, isWord, Char.isAlphanum, h]

private theorem allReadable_identifier : AllReadable identifier := by
  refine .mul (.single fun c => isPlain_of_isLetter) (.kstar (.single fun c hc => ?_))
  rcases Bool.or_eq_true _ _ ▸ hc with letter | digit
  · exact isPlain_of_isLetter letter
  · exact isPlain_of_isDigit digit

private theorem allReadable_decimal : AllReadable decimal := by
  have digit : AllReadable (single Char.isDigit) := .single fun c => isPlain_of_isDigit
  have digits : AllReadable digits := .mul digit (.kstar digit)
  have exponent : AllReadable exponent :=
    .mul (.mul (.single_contains (by decide)) (.one_add (.single_contains (by decide)))) digits
  rintro text ((whole | scaled) | fraction)
  · exact digits.mul (.one_add (.single_contains (by decide))) text whole
  · exact digits.mul exponent text scaled
  · have point : AllReadable (single ['.'].contains) := .single_contains (by decide)
    exact (((AllReadable.kstar digit).mul point).mul digits).mul (.one_add exponent) text fraction

private theorem allReadable_literal {quote : Char} (isQ : isQuote quote = true) : AllReadable (literal quote) := by
  intro text h
  obtain ⟨inside, rfl, fits⟩ := mem_literal_iff.1 h
  exact literal_mem_readable isQ fits

private theorem isPlain_of_mem_sign (h : text ∈ sign) (ne : text ≠ ['%']) : text.all isPlain = true := by
  have plain : ∀ text ∈ signs.map String.toList, text ≠ ['%'] → text.all isPlain = true := by decide
  exact plain text h ne

/-- Blanks and all symbols but the remainder are readable. -/
private theorem mem_readable_of_symbol (h : text ∈ symbols + single isBlank) (ne : text ≠ ['%']) : text ∈ readable := by
  rcases h with ((((h | h) | h) | h) | h) | h
  · exact allReadable_identifier text h
  · exact allReadable_decimal text h
  · exact allReadable_literal rfl text h
  · exact allReadable_literal rfl text h
  · exact mem_readable_of_isPlain (isPlain_of_mem_sign h ne)
  · exact AllReadable.single (fun c hc => by simp [isPlain, hc]) text h

private theorem remainder_notMem_readable (rest : List Char) : '%' :: rest ∉ readable := by
  intro h
  rcases cons_mem_readable_iff.1 h with ⟨plain, _⟩ | ⟨isQ, _⟩
  · revert plain
    decide
  · revert isQ
    decide

/-! ### Expressions written in symbols -/

private theorem flatten_mem_readable_iff {parts : List (List Char)}
    (h : ∀ text ∈ parts, text ∈ symbols + single isBlank) :
    parts.flatten ∈ readable ↔ ['%'] ∉ parts := by
  induction parts with
  | nil => exact iff_of_true (Language.nil_mem_kstar pieces) List.not_mem_nil
  | cons text parts ih =>
    obtain ⟨here, others⟩ := List.forall_mem_cons.1 h
    rw [List.flatten_cons, List.mem_cons, not_or]
    by_cases remainder : text = ['%']
    · subst remainder
      exact iff_of_false (remainder_notMem_readable parts.flatten) (fun absent => absent.1 rfl)
    · rw [append_mem_readable_iff (mem_readable_of_symbol here remainder), ih others]
      exact ⟨fun absent => ⟨Ne.symm remainder, absent⟩, And.right⟩

/-- An expression whose lines are written in symbols, with any blanks between them, is accepted by the lexer exactly if
none of the symbols is the remainder operator. -/
theorem lex_flatten_iff {lines : List (List (List Char))}
    (h : ∀ parts ∈ lines, ∀ text ∈ parts, text ∈ symbols + single isBlank) (line offset base : Int) :
    (∃ tokens, lex (lines.map List.flatten) line offset base = .ok tokens) ↔ ∀ parts ∈ lines, ['%'] ∉ parts := by
  rw [lex, exists_tokensFrom_iff, List.forall_mem_map]
  exact forall₂_congr fun parts mem => flatten_mem_readable_iff (h parts mem)

/-- A condition over two lines, with a remainder sign inside of a literal. -/
private def choiceLines : List (List (List Char)) :=
  [["size", "(", "x", ")", " ", ">=", "1.5e-3"], ["?", "'5% \"'", ":", "x"]].map (·.map String.toList)

private theorem mem_kstar_single {p : Char → Bool} (h : text.all p = true) : text ∈ (single p)∗ := by
  refine ⟨text.map fun c => [c], (List.flatMap_singleton' text).symm, fun part mem => ?_⟩
  obtain ⟨c, inText, rfl⟩ := List.mem_map.1 mem
  exact ⟨c, rfl, List.all_eq_true.1 h c inText⟩

private theorem singleton_mem_digits (hc : c.isDigit = true) : [c] ∈ digits :=
  ⟨[c], ⟨c, rfl, hc⟩, [], Language.nil_mem_kstar _, rfl⟩

private theorem symbols_choiceLines : ∀ parts ∈ choiceLines, ∀ text ∈ parts, text ∈ symbols + single isBlank := by
  have size : "size".toList ∈ identifier :=
    ⟨['s'], ⟨'s', rfl, rfl⟩, ['i', 'z', 'e'], mem_kstar_single (by decide), rfl⟩
  have x : "x".toList ∈ identifier := ⟨['x'], ⟨'x', rfl, rfl⟩, [], Language.nil_mem_kstar _, rfl⟩
  have exponent : "e-3".toList ∈ exponent :=
    ⟨['e', '-'], ⟨['e'], ⟨'e', rfl, rfl⟩, ['-'], .inr ⟨'-', rfl, rfl⟩, rfl⟩, ['3'],
      singleton_mem_digits rfl, rfl⟩
  have number : "1.5e-3".toList ∈ decimal :=
    .inr ⟨['1', '.', '5'], ⟨['1', '.'], ⟨['1'], mem_kstar_single (by decide), ['.'], ⟨'.', rfl, rfl⟩, rfl⟩, ['5'],
      singleton_mem_digits rfl, rfl⟩, "e-3".toList, .inr exponent, rfl⟩
  have quoted : "'5% \"'".toList ∈ literal '\'' := ⟨['5', '%', ' ', '"'], rfl, by decide, by decide⟩
  have aWord {text : List Char} (h : text ∈ identifier) : text ∈ symbols + single isBlank :=
    .inl (.inl (.inl (.inl (.inl h))))
  have aSign {text : List Char} (h : text ∈ signs.map String.toList) : text ∈ symbols + single isBlank :=
    .inl (.inr h)
  refine List.forall_mem_cons.2 ⟨?_, List.forall_mem_singleton.2 ?_⟩
  · simp only [List.map_cons, List.map_nil, List.forall_mem_cons]
    exact ⟨aWord size, aSign (by decide), aWord x, aSign (by decide), .inr ⟨' ', rfl, rfl⟩, aSign (by decide),
      .inl (.inl (.inl (.inl (.inr number)))), List.forall_mem_nil _⟩
  · simp only [List.map_cons, List.map_nil, List.forall_mem_cons]
    exact ⟨aSign (by decide), .inl (.inl (.inl (.inr quoted))), aSign (by decide), aWord x, List.forall_mem_nil _⟩

theorem lex_flatten_iff_choiceLines :
    (∀ parts ∈ choiceLines, ∀ text ∈ parts, text ∈ symbols + single isBlank) ∧
      ∃ tokens, lex (choiceLines.map List.flatten) 1 2 3 = .ok tokens :=
  ⟨symbols_choiceLines, (lex_flatten_iff symbols_choiceLines 1 2 3).2 (by decide)⟩

/-- The remainder of two numbers is written in symbols but cannot be lexed. -/
theorem lex_remainder_fails :
    (∀ text ∈ ["7", " ", "%", " ", "2"].map String.toList, text ∈ symbols + single isBlank) ∧
      ¬∃ tokens, lex ["7 % 2".toList] 0 0 0 = .ok tokens := by
  have number {c : Char} (hc : c.isDigit = true) : [c] ∈ symbols + single isBlank :=
    .inl (.inl (.inl (.inl (.inr (.inl (.inl ⟨[c], singleton_mem_digits hc, [], .inl rfl, rfl⟩))))))
  have blank : " ".toList ∈ symbols + single isBlank := .inr ⟨' ', rfl, rfl⟩
  have remainder : "%".toList ∈ sign := List.mem_map_of_mem (f := String.toList) (show "%" ∈ signs by decide)
  refine ⟨?_, ?_⟩
  · simp only [List.map_cons, List.map_nil, List.forall_mem_cons]
    exact ⟨number rfl, blank, .inl (.inr remainder), blank, number rfl, List.forall_mem_nil _⟩
  · rw [lex, exists_tokensFrom_iff]
    decide +kernel

end ManifestLens.Expression
