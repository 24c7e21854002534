import ManifestLens.Outline.Basic

/-!
# Ranges of an outline

The stretch of text that a part of an outline covers, and the tables from keys to such stretches.  A token or block
is placed from the anchor of its document; an anchor reaches to the end of its last descendant.
-/

namespace ManifestLens.Outline

mutual

/-- The last of the descendants: the last child of the last child, and so on. -/
def lastDescendant : Outline → Outline
  | .anchor key absolute relative (some children) =>
    lastOf (.anchor key absolute relative (some children)) children
  | .block localKey indexKey range (some children) => lastOf (.block localKey indexKey range (some children)) children
  | .token t (some children) => lastOf (.token t (some children)) children
  | o => o

/-- The last descendant of the last of several outlines, or `default` if there is none. -/
def lastOf (default : Outline) : List Outline → Outline
  | [] => default
  | [o] => lastDescendant o
  | _ :: o :: rest => lastOf default (o :: rest)

end

/-- The range of an anchor at `absolute` whose last descendant is `last`.  A last descendant that is an anchor itself
gives the range its own place. -/
def anchorRange (absolute : Position) (last : Outline) : Range :=
  match last with
  | .anchor _ inner _ _ => ⟨inner, inner⟩
  | .block _ _ range _ => ⟨absolute, range.stop.absolute absolute 0⟩
  | .token t _ => ⟨absolute, t.place.absolute absolute t.length⟩

/-- The range of an outline whose document starts at `base`. -/
def absoluteRange (base : Position) : Outline → Range
  | .anchor key absolute relative children =>
    anchorRange absolute (lastDescendant (.anchor key absolute relative children))
  | .token t _ => ⟨t.place.absolute base 0, t.place.absolute base t.length⟩
  | .block _ _ range _ => ⟨range.start.absolute base 0, range.stop.absolute base 0⟩

/-- The entry that a key gives in a table, where there is a key and a document to place it in. -/
def keyed (key : Option String) (base : Option Position) (o : Outline) : List (String × Range) :=
  match named key, base with
  | some k, some b => [(k, o.absoluteRange b)]
  | _, _ => []

mutual

/-- The table of index keys.  Inside an anchor all is placed from there. -/
def keyRanges (base : Option Position) : Outline → List (String × Range)
  | .anchor key absolute relative children =>
    keyed key (some absolute) (.anchor key absolute relative children) ++
      match children with
      | none => []
      | some below => keyRangesAll (some absolute) below
  | .block localKey indexKey range children =>
    keyed indexKey base (.block localKey indexKey range children) ++
      match children with
      | none => []
      | some below => keyRangesAll base below
  | .token t children =>
    keyed t.indexKey base (.token t children) ++
      match children with
      | none => []
      | some below => keyRangesAll base below

def keyRangesAll (base : Option Position) : List Outline → List (String × Range)
  | [] => []
  | o :: rest => keyRanges base o ++ keyRangesAll base rest

end

mutual

/-- The table of local keys.  Inside an anchor all is placed from there. -/
def localRanges (base : Option Position) : Outline → List (String × Range)
  | .anchor key absolute relative children =>
    keyed key (some absolute) (.anchor key absolute relative children) ++
      match children with
      | none => []
      | some below => localRangesAll (some absolute) below
  | .block localKey indexKey range children =>
    keyed localKey base (.block localKey indexKey range children) ++
      match children with
      | none => []
      | some below => localRangesAll base below
  | .token t children =>
    keyed t.localKey base (.token t children) ++
      match children with
      | none => []
      | some below => localRangesAll base below

def localRangesAll (base : Option Position) : List Outline → List (String × Range)
  | [] => []
  | o :: rest => localRanges base o ++ localRangesAll base rest

end

end ManifestLens.Outline
