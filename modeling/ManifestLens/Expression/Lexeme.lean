import ManifestLens.Text.Blank
import ManifestLens.Text.Word

/-!
# Lexemes of expressions

A line of an expression is a run of blanks, quoted literals, words and operators.  The first alternative that fits the
rest of the line is taken, and each takes at least one character, so a line is cut into finitely many lexemes or has a
rest that none fits.
-/

namespace ManifestLens.Expression

open Text (isBlank isWord)

/-- A piece of a line.  A quoted literal is held without its quotes. -/
inductive Lexeme where
  | blank (text : List Char)
  | quoted (quote : Char) (text : List Char)
  | word (text : List Char)
  | operator (text : List Char)
  deriving DecidableEq

/-- What a lexeme looks like in the line. -/
def Lexeme.written : Lexeme → List Char
  | .blank text => text
  | .quoted quote text => quote :: text ++ [quote]
  | .word text => text
  | .operator text => text

/-- A character that is an operator of its own.  All characters from `*` to `=` are. -/
def isOperator (c : Char) : Bool :=
  ('*' ≤ c && c ≤ '=') || "\x7b\x7d()[]^$!<>|?&\\".toList.contains c

def isQuote (c : Char) : Bool :=
  c == '\'' || c == '"'

/-- A character that may stand inside a literal between the given quotes. -/
def isInside (quote c : Char) : Bool :=
  c != quote && c != '\n'

/-- A quoted literal after its opening quote: up to the next such quote on the line. -/
def closeQuote? (quote : Char) (rest : List Char) : Option (Lexeme × List Char) :=
  match rest.dropWhile (isInside quote) with
  | c :: after => if c == quote then some (.quoted quote (rest.takeWhile (isInside quote)), after) else none
  | [] => none

/-- An operator that starts with the given character: an arrow, or the character alone. -/
def operator? (c : Char) (rest : List Char) : Option (Lexeme × List Char) :=
  if c == '-' && rest.head? == some '>' then some (.operator ['-', '>'], rest.tail)
  else if isOperator c then some (.operator [c], rest)
  else none

/-- The lexeme at the start of a line. -/
def first? : List Char → Option (Lexeme × List Char)
  | [] => none
  | c :: rest =>
    if isBlank c then some (.blank (c :: rest.takeWhile isBlank), rest.dropWhile isBlank)
    else if isQuote c then closeQuote? c rest
    else if isWord c then some (.word (c :: rest.takeWhile isWord), rest.dropWhile isWord)
    else operator? c rest

private theorem length_dropWhile_le (p : Char → Bool) (l : List Char) : (l.dropWhile p).length ≤ l.length :=
  (List.dropWhile_sublist p).length_le

private theorem closeQuote?_shorter {quote : Char} {rest after : List Char} {lexeme : Lexeme}
    (h : closeQuote? quote rest = some (lexeme, after)) : after.length ≤ rest.length := by
  unfold closeQuote? at h
  split at h
  · next c tail hd =>
    have drop := length_dropWhile_le (isInside quote) rest
    rw [hd, List.length_cons] at drop
    split at h
    · cases h
      omega
    · cases h
  · cases h

private theorem operator?_shorter {c : Char} {rest after : List Char} {lexeme : Lexeme}
    (h : operator? c rest = some (lexeme, after)) : after.length ≤ rest.length := by
  unfold operator? at h
  split at h
  · cases h
    simp
  · split at h
    · cases h
      exact Nat.le_refl _
    · cases h

/-- The rest of a line is shorter than the line. -/
theorem first?_shorter {line rest : List Char} {lexeme : Lexeme} (h : first? line = some (lexeme, rest)) :
    rest.length < line.length := by
  cases line with
  | nil => cases h
  | cons c cs =>
    rw [List.length_cons]
    apply Nat.lt_succ_of_le
    rw [first?] at h
    split at h
    · cases h
      exact length_dropWhile_le _ _
    · split at h
      · exact closeQuote?_shorter h
      · split at h
        · cases h
          exact length_dropWhile_le _ _
        · exact operator?_shorter h

/-- The lexemes of a line, or the rest of it that no lexeme fits. -/
def lexemes (line : List Char) : Except (List Char) (List Lexeme) :=
  if line.isEmpty then .ok []
  else
    match h : first? line with
    | none => .error line
    | some (lexeme, rest) =>
      have : rest.length < line.length := first?_shorter h
      (lexemes rest).map (lexeme :: ·)
termination_by line.length

end ManifestLens.Expression
