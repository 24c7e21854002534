/-!
# Patterns of keys

Keys name resources and what belongs to them: `Kind:name` is the anchor of a resource, `Kind:name:def` its definition
and `Kind:name:ref` a reference to it; `inputs.name` is an input that an expression reads.  A pattern is matched at the
start of a key and takes as much of it as it can.
-/

namespace ManifestLens

/-- What a key may be read as. -/
inductive KeyPattern where
  /-- The definition of a resource of any kind. -/
  | definition
  /-- The definition of a resource of any kind or a reference to it. -/
  | mention
  /-- The definition of a resource of a given kind. -/
  | definitionOf (kind : String)
  /-- The definition of a resource of a given kind whose name has no colon. -/
  | plainDefinitionOf (kind : String)
  /-- What belongs to a resource of a given kind. -/
  | anchorOf (kind : String)
  /-- What belongs to a resource of a given kind whose name has no colon. -/
  | plainAnchorOf (kind : String)
  /-- An input that an expression reads, up to the first point. -/
  | input
  /-- The part of a path before its first point. -/
  | root
  deriving DecidableEq

/-- What a pattern finds: a kind where it is not given, a name, and how many characters were taken. -/
structure KeyMatch where
  kind : Option String
  name : String
  size : Nat
  deriving DecidableEq

namespace KeyPattern

/-- The text before the last of the given endings on the line, and what follows that ending. -/
def beforeLast? (endings : List (List Char)) : List Char → Option (List Char × List Char)
  | [] => none
  | c :: rest =>
    let later := if c == '\n' then none else beforeLast? endings rest
    match later with
    | some (name, after) => some (c :: name, after)
    | none => (endings.find? fun e => e.isPrefixOf (c :: rest)).map fun e => ([], (c :: rest).drop e.length)

/-- The text after a given start. -/
def after? (start text : List Char) : Option (List Char) :=
  if start.isPrefixOf text then some (text.drop start.length) else none

/-- A kind and its colon: a capital letter, then letters, digits and points. -/
def kind? : List Char → Option (List Char × List Char)
  | [] => none
  | c :: rest =>
    if c.isUpper then
      let inKind := fun x : Char => x.isAlphanum || x == '.'
      (after? [':'] (rest.dropWhile inKind)).map (c :: rest.takeWhile inKind, ·)
    else none

/-- The part of a text before its first point, and what follows that point. -/
def beforePoint? (text : List Char) : Option (List Char × List Char) :=
  let name := text.takeWhile (· != '.')
  if name.isEmpty then none else some (name, (text.drop name.length).drop 1)

/-- The name and the rest, for the patterns that do not find a kind. -/
def named? (pattern : KeyPattern) (text : List Char) : Option (List Char × List Char) :=
  match pattern with
  | .definitionOf kind => (after? (kind.toList ++ [':']) text).bind (beforeLast? [":def".toList])
  | .plainDefinitionOf kind =>
    (after? (kind.toList ++ [':']) text).bind fun rest =>
      let name := rest.takeWhile (· != ':')
      (after? ":def".toList (rest.drop name.length)).map (name, ·)
  | .anchorOf kind =>
    (after? (kind.toList ++ [':']) text).map fun rest =>
      let name := rest.takeWhile (· != '\n')
      (name, rest.drop name.length)
  | .plainAnchorOf kind =>
    (after? (kind.toList ++ [':']) text).map fun rest =>
      let name := rest.takeWhile (· != ':')
      (name, rest.drop name.length)
  | .input =>
    match after? "inputs".toList text with
    | some (c :: rest) => if c == '\n' then none else beforePoint? rest
    | _ => none
  | .root => beforePoint? text
  | .definition => none
  | .mention => none

/-- The endings of the patterns that find a kind. -/
def endings : KeyPattern → List (List Char)
  | .definition => [":def".toList]
  | .mention => [":def".toList, ":ref".toList]
  | _ => []

/-- Matches a key. -/
def match? (pattern : KeyPattern) (key : String) : Option KeyMatch :=
  let text := key.toList
  let found (kind : Option (List Char)) (name rest : List Char) : KeyMatch :=
    ⟨kind.map String.ofList, String.ofList name, text.length - rest.length⟩
  match pattern with
  | .definition | .mention =>
    (kind? text).bind fun (kind, afterKind) =>
      (beforeLast? pattern.endings afterKind).map fun (name, rest) => found (some kind) name rest
  | _ => (pattern.named? text).map fun (name, rest) => found none name rest

/-- The name that a pattern finds in a key. -/
def name? (pattern : KeyPattern) (key : String) : Option String :=
  (pattern.match? key).map (·.name)

end KeyPattern

end ManifestLens
