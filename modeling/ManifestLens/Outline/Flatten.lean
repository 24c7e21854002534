import ManifestLens.Outline.Basic

/-!
# The tokens of an outline

The tokens of an outline in reading order, and the numbers by which an editor is told of them: per token the two
parts of its distance from the token before, its length, the number of its kind and its modifiers.
-/

namespace ManifestLens.Outline

mutual

/-- The tokens of an outline, each before those below it. -/
def flatten : Outline → List Token
  | .token t none => [t]
  | .token t (some children) => t :: flattenAll children
  | .block _ _ _ none => []
  | .block _ _ _ (some children) => flattenAll children
  | .anchor _ _ _ none => []
  | .anchor _ _ _ (some children) => flattenAll children

/-- The tokens of several outlines. -/
def flattenAll : List Outline → List Token
  | [] => []
  | o :: rest => flatten o ++ flattenAll rest

end

/-- The tokens about which something is remarked. -/
def remarked (tokens : List Token) : List Token :=
  tokens.filter fun t => t.remark.isSome

end ManifestLens.Outline

namespace ManifestLens

/-- The five numbers of a token, unless its kind is outside the legend. -/
def Token.numbers? (t : Token) : Option (List Int) :=
  t.kind.number?.map fun kind =>
    [t.delta.line, t.delta.character, t.length, kind, modifierBits (t.modifiers.getD [])]

/-- The place of a token that lies `delta` after a token at `p`. -/
def Position.advance (p delta : Position) : Position :=
  if delta.line = 0 then ⟨p.line, p.character + delta.character⟩ else ⟨p.line + delta.line, delta.character⟩

/-- The places that a run of distances leads to. -/
def decodeDeltas (start : Position) : List Position → List Position
  | [] => []
  | delta :: rest => start.advance delta :: decodeDeltas (start.advance delta) rest

end ManifestLens
