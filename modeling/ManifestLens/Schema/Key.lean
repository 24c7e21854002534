import ManifestLens.Schema.Basic

/-!
# Keys of nodes

The keys by which the parts of a manifest are found, made of what a node holds.
-/

namespace ManifestLens

open Yaml (Content Node)

/-- Why the pairs of a node cannot be looked at: it holds a text or a list. -/
def Yaml.Content.notPairs (content : Content) (reason : String) : Fault :=
  .unreadableKey content.describe reason

/-- The pairs that a node holds; an empty text or list holds none. -/
def Yaml.Content.pairs? : Content → Except Fault (List (Node × Node))
  | .pairs members => .ok members
  | .text s =>
    if s.isEmpty then .ok []
    else .error (Content.notPairs (.text s) "not enough values to unpack (expected 2, got 1)")
  | .items [] => .ok []
  | .items (first :: rest) =>
    .error (Content.notPairs (.items (first :: rest)) s!"cannot unpack non-iterable {first.typeName} object")

/-- The values of the pairs with the given key. -/
def valuesAt (key : String) (pairs : List (Node × Node)) : List Content :=
  (pairs.filter fun p => p.1.content.isText key).map fun p => p.2.content

/-- Joins texts; `n` of them were joined before. -/
def joinTexts (n : Nat) : List Content → Except String String
  | [] => .ok ""
  | .text s :: rest => (joinTexts (n + 1) rest).map (s ++ ·)
  | _ :: _ => .error s!"sequence item {n}: expected str instance, list found"

/-- The key of a step: its labels. -/
def stepKey (content : Content) : Except Fault String := do
  let pairs ← content.pairs?
  match joinTexts 0 (valuesAt "label" pairs) with
  | .ok labels => return "Step:" ++ labels
  | .error reason => .error (content.notPairs reason)

/-- The key of a reference by kind and name; where either is missing or empty there is none. -/
def referenceKey (content : Content) : Except Fault (Option String) := do
  let pairs ← content.pairs?
  match (valuesAt "kind" pairs).getLast?, (valuesAt "name" pairs).getLast? with
  | some kind, some name =>
    if kind.isEmpty || name.isEmpty then return none
    else return some (kind.describe ++ ":" ++ name.describe ++ ":ref")
  | _, _ => return none

/-- The key that a rule makes of what a node holds. -/
def KeyRule.key (rule : KeyRule) (content : Content) : Except Fault (Option String) :=
  match rule with
  | .constant key => .ok (some key)
  | .around before after => .ok (some (before ++ content.describe ++ after))
  | .led start =>
    match content with
    | .text s => .ok (some (start ++ s))
    | _ => .error .wrongType
  | .unlessExpression before after =>
    match content with
    | .text s => .ok (if s.toList.head? == some '=' then none else some (before ++ s ++ after))
    | _ => .error .noField
  | .step => (stepKey content).map some

/-- The key by an optional rule. -/
def ruledKey (rule : Option KeyRule) (content : Content) : Except Fault (Option String) :=
  match rule with
  | none => .ok none
  | some rule => rule.key content

end ManifestLens
