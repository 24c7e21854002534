import ManifestLens.Outline.Ranges
import ManifestLens.Report.Diagnostic

/-!
# Searching an outline

Parts of an outline are found by their local keys.  A key that names several parts is a fault of the document, which
is reported at each of them.
-/

namespace ManifestLens.Outline

mutual

/-- The parts with a given local key, each before those below it. -/
def searchIn (key : String) : Outline → List Outline
  | .anchor k absolute relative children =>
    (if k == some key then [.anchor k absolute relative children] else []) ++
      match children with
      | none => []
      | some below => searchAll key below
  | .block localKey indexKey range children =>
    (if localKey == some key then [.block localKey indexKey range children] else []) ++
      match children with
      | none => []
      | some below => searchAll key below
  | .token t children =>
    (if t.localKey == some key then [.token t children] else []) ++
      match children with
      | none => []
      | some below => searchAll key below

def searchAll (key : String) : List Outline → List Outline
  | [] => []
  | o :: rest => searchIn key o ++ searchAll key rest

end

/-- The parts with a given local key; the empty key finds none. -/
def search (key : String) (outlines : List Outline) : List Outline :=
  if key.isEmpty then [] else searchAll key outlines

/-- What a search for one part gives. -/
inductive Found where
  | missing
  | part (o : Outline)
  | faulty (diagnostics : List Diagnostic)
  deriving Inhabited

/-- The one part with a given local key. -/
def find (base : Position) (key : String) (outlines : List Outline) : Found :=
  match search key outlines with
  | [] => .missing
  | [o] => .part o
  | several =>
    .faulty (several.map fun o =>
      ⟨.error, o.absoluteRange base, s!"Multiple instances of ('{key}')."⟩)

/-- Numbers the items of a list from `n` on. -/
def numberFrom {α : Type} (n : Nat) : List α → List (Nat × α)
  | [] => []
  | a :: rest => (n, a) :: numberFrom (n + 1) rest

/-- The one part below the one part with a given local key. -/
def findValue (base : Position) (key : String) (outlines : List Outline) : Found :=
  match find base key outlines with
  | .part o =>
    match o.parts with
    | [] => .faulty [⟨.warning, o.absoluteRange base, s!"Missing value for ('{key}')."⟩]
    | [value] => .part value
    | several =>
      .faulty ((numberFrom 0 several).map fun (i, child) =>
        ⟨.error, child.absoluteRange base, s!"Multiple children of ('{key}'), child {i}."⟩)
  | other => other

/-- The part that a path of local keys leads to, each searched below the one before. -/
def findNested (base : Position) : List String → List Outline → Found
  | [], _ => .missing
  | [key], outlines => find base key outlines
  | key :: next :: keys, outlines =>
    match find base key outlines with
    | .part o => if o.parts.isEmpty then .missing else findNested base (next :: keys) o.parts
    | other => other

end ManifestLens.Outline
