import ManifestLens.Expression.Lexeme
import ManifestLens.Outline.Kind
import ManifestLens.Position

/-!
# Tokens of expressions

Lexing an expression over several lines gives its tokens with their places: the distance from the token before, and
the line and column at which the token stands.  The first line may start at an offset, and its columns may count from
a base further left; both only concern the first line that is not blank, the offset only if it is the first line of
all.
-/

namespace ManifestLens.Expression

/-- A token of an expression. -/
structure Token where
  /-- The distance from the token before. -/
  delta : Position
  /-- The line and column of the token. -/
  place : Position
  text : List Char
  kind : TokenKind
  deriving DecidableEq

/-- The tokens of a line that starts at column `column`.  `previous` is the place of the token before, its column
counted on its own line. -/
def lineTokens (line base : Int) (previous : Position) (column : Int) : List Lexeme → List Token
  | [] => []
  | .blank text :: rest => lineTokens line base previous (column + text.length) rest
  | .word text :: rest =>
    ⟨⟨line - previous.line, column - previous.character⟩, ⟨line, base + column⟩, text, .unset⟩ ::
      lineTokens line base ⟨line, column⟩ (column + text.length) rest
  | .operator text :: rest =>
    ⟨⟨line - previous.line, column - previous.character⟩, ⟨line, base + column⟩, text, .operator⟩ ::
      lineTokens line base ⟨line, column⟩ (column + text.length) rest
  | .quoted quote text :: rest =>
    let size : Int := text.length
    let opening : Token :=
      ⟨⟨line - previous.line, column - previous.character⟩, ⟨line, base + column⟩, [quote], .operator⟩
    let inside : List Token :=
      if text.isEmpty then [] else [⟨⟨0, 1⟩, ⟨line, base + column + 1⟩, text, .string⟩]
    let closing : Token :=
      ⟨⟨0, if text.isEmpty then 1 else size⟩, ⟨line, base + column + 1 + size⟩, [quote], .operator⟩
    opening :: inside ++ closing ::
      lineTokens line base ⟨line, column + 1 + size⟩ (column + 2 + size) rest

/-- The tokens of the lines from line `line` on.  `previousLine` is the line of the token before. -/
def tokensFrom (line previousLine offset base : Int) : List (List Char) → Except (List Char) (List Token)
  | [] => .ok []
  | text :: rest =>
    if Text.allBlank text then tokensFrom (line + 1) previousLine 0 base rest
    else
      match lexemes text with
      | .error bad => .error bad
      | .ok found =>
        (tokensFrom (line + 1) line 0 0 rest).map (lineTokens line base ⟨previousLine, 0⟩ offset found ++ ·)

/-- The tokens of an expression, or the rest of a line that cannot be lexed. -/
def lex (expression : List (List Char)) (line offset base : Int) : Except (List Char) (List Token) :=
  tokensFrom line 0 offset base expression

end ManifestLens.Expression
