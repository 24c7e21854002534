import ManifestLens.Outline.Flatten

/-!
# The pre-order of an outline

All parts of an outline in reading order, each before those below it.  The tokens of an outline are the tokens among
these parts (`flattenAll_eq_filterMap`).
-/

namespace ManifestLens.Outline

mutual

/-- An outline and all that is below it, in reading order. -/
def preorder : Outline → List Outline
  | .anchor key absolute relative none => [.anchor key absolute relative none]
  | .anchor key absolute relative (some children) =>
    .anchor key absolute relative (some children) :: preorderAll children
  | .block localKey indexKey range none => [.block localKey indexKey range none]
  | .block localKey indexKey range (some children) =>
    .block localKey indexKey range (some children) :: preorderAll children
  | .token t none => [.token t none]
  | .token t (some children) => .token t (some children) :: preorderAll children

def preorderAll : List Outline → List Outline
  | [] => []
  | o :: rest => preorder o ++ preorderAll rest

end

/-- The token that a part of an outline is, if it is one. -/
def token? : Outline → Option Token
  | .token t _ => some t
  | _ => none

theorem preorderAll_append (a b : List Outline) : preorderAll (a ++ b) = preorderAll a ++ preorderAll b := by
  induction a with
  | nil => rfl
  | cons o a ih => rw [List.cons_append, preorderAll, preorderAll, ih, List.append_assoc]

theorem flattenAll_append (a b : List Outline) : flattenAll (a ++ b) = flattenAll a ++ flattenAll b := by
  induction a with
  | nil => rfl
  | cons o a ih => rw [List.cons_append, flattenAll, flattenAll, ih, List.append_assoc]

/-- Tokens with nothing below them are all there is. -/
theorem preorderAll_map_token (tokens : List Token) :
    preorderAll (tokens.map fun t => .token t none) = tokens.map fun t => .token t none := by
  induction tokens with
  | nil => rfl
  | cons t tokens ih => rw [List.map_cons, preorderAll, ih, preorder, List.singleton_append]

theorem preorderAll_block_tokens (localKey indexKey : Option String) (range : Range) (tokens : List Token) :
    preorderAll [.block localKey indexKey range (some (tokens.map fun t => .token t none))] =
      .block localKey indexKey range (some (tokens.map fun t => .token t none)) ::
        tokens.map fun t => .token t none := by
  rw [preorderAll, preorder, preorderAll_map_token, preorderAll, List.append_nil]

mutual

theorem flatten_eq_filterMap : (o : Outline) → flatten o = (preorder o).filterMap token?
  | .anchor _ _ _ none => rfl
  | .anchor _ _ _ (some children) => by rw [flatten, preorder, flattenAll_eq_filterMap children]; rfl
  | .block _ _ _ none => rfl
  | .block _ _ _ (some children) => by rw [flatten, preorder, flattenAll_eq_filterMap children]; rfl
  | .token _ none => rfl
  | .token _ (some children) => by rw [flatten, preorder, flattenAll_eq_filterMap children]; rfl

/-- The tokens of outlines are those among their parts. -/
theorem flattenAll_eq_filterMap : (os : List Outline) → flattenAll os = (preorderAll os).filterMap token?
  | [] => rfl
  | o :: rest => by
    rw [flattenAll, preorderAll, List.filterMap_append, flatten_eq_filterMap o, flattenAll_eq_filterMap rest]

end

theorem flattenAll_map_token (tokens : List Token) : flattenAll (tokens.map fun t => .token t none) = tokens := by
  induction tokens with
  | nil => rfl
  | cons t tokens ih => rw [List.map_cons, flattenAll, ih, flatten, List.singleton_append]

end ManifestLens.Outline
