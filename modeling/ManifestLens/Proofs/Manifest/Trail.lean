import ManifestLens.Proofs.Manifest.Decoding
import ManifestLens.Proofs.Manifest.Settling

/-!
# Tokens stand where the text puts them

If no scalar of a node is an expression, the distances, places and lengths of its tokens follow from the marks of its
scalars, the lines and the position that is handed to it (`Page.trail`).  So whatever guide and schema a node is read
with, its tokens are in the same places and it hands on the same position (`spots_eq_of_reading`).
-/

namespace ManifestLens

open Yaml (Mark Node)

variable {page : Page} {S T : Schema} {found : Outlined}

/-- Where a token is: its distance from the token before, its place seen from the anchor, and its length. -/
structure Spot where
  delta : Position
  place : Position
  length : Int
  deriving DecidableEq

def Token.spot (t : Token) : Spot :=
  ⟨t.delta, t.place, t.length⟩

/-! ### The trail of scalars -/

/-- The number of lines of a scalar between its first line and the line of its end. -/
def ScalarNode.more (s : ScalarNode) : Nat :=
  s.stop.line - s.start.line - 1

/-- The position that a scalar hands on: that of its start, or the start of its last line. -/
def ScalarNode.handsOn (s : ScalarNode) : Position :=
  if s.more = 0 then s.start.position else ⟨s.start.line + s.more, 0⟩

namespace Page

/-- A line of the file, or an empty one past its end. -/
def lineAt (page : Page) (n : Nat) : List Char :=
  (page.lines[n]?).getD []

/-- The spot of the first token of a scalar. -/
def firstSpot (page : Page) (last : Position) (start stop : Mark) : Spot where
  delta := deltaTo start last
  place := start.position.relativeTo page.anchor
  length :=
    if start.line = stop.line then (stop.column : Int) - start.column
    else ((page.lineAt start.line).length : Int) - start.column

/-- The spot of the token for a further line of a scalar. -/
def furtherSpot (page : Page) (n : Nat) : Spot where
  delta := ⟨1, ((page.lineAt n).length : Int) - (Text.dropBlank (page.lineAt n)).length⟩
  place := Position.relativeTo ⟨n, 0⟩ page.anchor
  length := (Text.trimBlank (page.lineAt n)).length

/-- The spots of the tokens of a scalar.  The tokens of a key on several lines give way to its value. -/
def spots (page : Page) (last : Position) (s : ScalarNode) : List Spot :=
  if s.isKey = true ∧ s.more ≠ 0 then []
  else page.firstSpot last s.start s.stop :: (List.range' (s.start.line + 1) s.more).map page.furtherSpot

/-- The spots of the tokens of scalars that are read one after the other, and the position that is handed on. -/
def trail (page : Page) (last : Position) : List ScalarNode → List Spot × Position
  | [] => ([], last)
  | s :: rest => (page.spots last s ++ (page.trail s.handsOn rest).1, (page.trail s.handsOn rest).2)

private theorem lineAt_of_getElem? {n : Nat} {text : List Char} (h : page.lines[n]? = some text) :
    page.lineAt n = text := by
  rw [lineAt, h, Option.getD_some]

private theorem spot_firstToken {start stop : Mark} {length : Int} (h : page.firstLength start stop = .ok length)
    (entry : Entry) (last : Position) (localKey indexKey : Option String) (remark : Option Remark) :
    (page.firstToken entry start last length localKey indexKey remark).spot = page.firstSpot last start stop := by
  have size : length = (page.firstSpot last start stop).length := by
    rcases firstLength_eq_ok h with ⟨single, isLength⟩ | ⟨several, text, isLine, isLength⟩
    · rw [isLength, firstSpot, if_pos single]
    · rw [isLength, firstSpot, if_neg several, lineAt_of_getElem? isLine]
  rw [size]
  rfl

private theorem spots_furtherTokens {first : Token} {line count : Nat} {tokens : List Token}
    (h : page.furtherTokens first line count = .ok tokens) :
    tokens.map Token.spot = (List.range' line count).map page.furtherSpot := by
  obtain ⟨-, rfl⟩ := furtherTokens_eq_ok_iff.1 h
  exact List.map_map

end Page

/-! ### The tokens of scalars -/

namespace ScalarReading

variable {r : ScalarReading}

/-- The outline of a scalar that is no expression, and what it hands on. -/
private theorem outlined_plain (made : r.outlined = .ok found) (plain : r.isExpression = false) :
    found.2 = r.source.handsOn ∧ ∃ first others, (first :: others).map Token.spot =
        r.page.firstSpot r.last r.start r.stop ::
          (List.range' (r.start.line + 1) r.source.more).map r.page.furtherSpot ∧
      if r.source.more = 0 then found.1 = [.token first none]
      else ∃ localKey indexKey range,
        found.1 = [.block localKey indexKey range (some ((first :: others).map fun t => .token t none))] := by
  rw [outlined, plain] at made
  obtain ⟨first, others, ⟨length, localKey, indexKey, hlength, _, _, hfirst⟩, hothers, rfl⟩ := Page.scalar_eq_ok made
  have more : r.stop.line - r.start.line - 1 = r.source.more := rfl
  rw [more] at hothers ⊢
  refine ⟨?_, first, others, ?_, ?_⟩
  · rw [ScalarNode.handsOn]
    split <;> rfl
  · rw [List.map_cons, Page.spots_furtherTokens hothers, hfirst, Page.spot_firstToken hlength]
  · split
    · rfl
    · exact ⟨_, _, _, rfl⟩

private theorem handsOn_eq (made : r.outlined = .ok found) (plain : r.isExpression = false) :
    found.2 = r.source.handsOn :=
  (outlined_plain made plain).1

/-- The tokens of a value are on the spots of its lines. -/
private theorem spots_value (made : r.outlined = .ok found) (plain : r.isExpression = false)
    (notKey : r.isKey = false) : (Outline.flattenAll found.1).map Token.spot = r.page.spots r.last r.source := by
  have value : ¬(r.source.isKey = true ∧ r.source.more ≠ 0) := fun h => by simp [source, notKey] at h
  obtain ⟨_, first, others, spots, form⟩ := outlined_plain made plain
  rw [Page.spots, if_neg value]
  refine Eq.trans ?_ spots
  by_cases single : r.source.more = 0
  · rw [if_pos single] at form
    have none : others = [] := by simpa [single] using congrArg List.tail spots
    rw [form, none]
    rfl
  · rw [if_neg single] at form
    obtain ⟨localKey, indexKey, range, form⟩ := form
    rw [form, flattenAll_block]

/-- A key has the spot of its first token, or none if it stands on several lines. -/
private theorem spots_key (made : r.outlined = .ok found) (plain : r.isExpression = false) (isKey : r.isKey = true)
    (children : List Outline) :
    ((Page.below found.1 children).filterMap Outline.token?).map Token.spot = r.page.spots r.last r.source := by
  have key : r.source.isKey = true := isKey
  obtain ⟨_, first, others, spots, form⟩ := outlined_plain made plain
  by_cases single : r.source.more = 0
  · rw [if_pos single] at form
    have head : first.spot = r.page.firstSpot r.last r.start r.stop := (List.cons.inj spots).1
    simp only [Page.spots, key, single, form, ne_eq, not_true_eq_false, and_false, if_false]
    exact congrArg (fun spot => [spot]) head
  · rw [if_neg single] at form
    obtain ⟨localKey, indexKey, range, form⟩ := form
    rw [Page.spots, if_pos ⟨key, single⟩, form]
    rfl

end ScalarReading

/-! ### The tokens of nodes -/

private theorem Piece.Made.spots_eq {piece : Piece} (h : piece.Made page)
    (plain : ∀ r, piece.scalar? = some r → r.isExpression = false) :
    piece.tokens.map Token.spot = piece.scalar?.toList.flatMap fun r => page.spots r.last r.source := by
  cases h with
  | @value r found onPage notKey made =>
    have spots := r.spots_value made (plain r rfl) notKey
    rw [Outline.flattenAll_eq_filterMap, onPage] at spots
    simpa [Piece.tokens, Piece.parts, Piece.scalar?] using spots
  | @key r found children onPage isKey made =>
    have spots := r.spots_key made (plain r rfl) isKey children
    rw [onPage] at spots
    simpa [Piece.tokens, Piece.parts, Piece.scalar?] using spots
  | block => rfl

/-- Scalars that hand on their positions to each other have the spots of their trail. -/
private theorem HandedOn.trail_eq {p q : Position} {readings : List ScalarReading} (h : HandedOn p readings q)
    (page : Page) (plain : ∀ r ∈ readings, r.isExpression = false) :
    page.trail p (readings.map ScalarReading.source) =
      (readings.flatMap fun r => page.spots r.last r.source, q) := by
  induction readings generalizing p with
  | nil => exact congrArg (Prod.mk []) h
  | cons r rest ih =>
    obtain ⟨here, later⟩ := List.forall_mem_cons.1 plain
    obtain ⟨last, found, made, h⟩ := h
    rw [List.map_cons, Page.trail, ← r.handsOn_eq made here, ih h later, List.flatMap_cons, last]

/-- The tokens of a reading without expressions are on the trail of the scalars that are read. -/
private theorem Reads.trail_eq {input : Input} {last : Position} {pieces : List Piece}
    (h : Reads page input S last pieces found T) (plain : ∀ s ∈ input.scalars, s.text.toList.head? ≠ some '=') :
    ((Outline.flattenAll found.1).map Token.spot, found.2) = page.trail last input.scalars := by
  have sources := h.map_source_scalarsOf
  have noExpression : ∀ r ∈ scalarsOf pieces, r.isExpression = false := by
    intro r mem
    have text : r.text.toList.head? ≠ some '=' := plain r.source (sources ▸ List.mem_map_of_mem mem)
    simp [ScalarReading.isExpression, text]
  have tokens : (Outline.flattenAll found.1).map Token.spot =
      (scalarsOf pieces).flatMap fun r => page.spots r.last r.source := by
    rw [h.flattenAll_eq, List.map_flatMap, scalarsOf, List.filterMap_eq_flatMap_toList, List.flatMap_assoc]
    refine List.flatMap_congr fun piece mem => (h.forall_made piece mem).spots_eq fun r isScalar => ?_
    exact noExpression r (List.mem_filterMap.2 ⟨piece, mem, isScalar⟩)
  rw [← sources, h.handedOn.trail_eq page noExpression, tokens]

/-- A root that is read by a guide is derived, after an entry was made for it if the guide has none. -/
private theorem exists_reads_rootBy {guide : Guide} {last : Position} {n : Node}
    (h : (page.rootBy guide last n).runFrom S = (.ok found, T)) :
    ∃ slot S' pieces, Reads page (.root slot n) S' last pieces found T := by
  cases guide with
  | nothing =>
    obtain ⟨slot, U, _, h⟩ := Reading.runFrom_bind_eq_ok_iff.1 h
    exact ⟨slot, U, exists_reads_root n h⟩
  | names members =>
    obtain ⟨slot, U, _, h⟩ := Reading.runFrom_bind_eq_ok_iff.1 h
    exact ⟨slot, U, exists_reads_root n h⟩
  | entry slot => exact ⟨slot, S, exists_reads_root n h⟩

private theorem Guided.exists_reads {g : Guided} (h : g.reading.runFrom S = (.ok found, T)) :
    ∃ input S' pieces, input.scalars = g.node.scalars ∧ Reads g.page input S' g.last pieces found T := by
  rw [Guided.reading] at h
  split at h
  · obtain ⟨slot, S', pieces, read⟩ := exists_reads_rootBy h
    exact ⟨_, S', pieces, rfl, read⟩
  · rw [Page.nodeBy.eq_def] at h
    split at h
    · next slot _ =>
      obtain ⟨pieces, read⟩ := exists_reads_node (exists_reads_root _) h
      exact ⟨_, S, pieces, rfl, read⟩
    · next hn =>
      obtain ⟨slot, S', pieces, read⟩ := exists_reads_rootBy h
      exact ⟨_, S', pieces, by rw [hn]; rfl, read⟩
    · obtain ⟨slot, S', pieces, read⟩ := exists_reads_rootBy h
      exact ⟨_, S', pieces, rfl, read⟩

/-- Two readings of a node without expressions, by any guides and with any schemas, give tokens on the same spots and
hand on the same position. -/
theorem spots_eq_of_reading {page : Page} {last : Position} {n : Node}
    (plain : ∀ s ∈ n.scalars, s.text.toList.head? ≠ some '=') {guide guide' : Guide} {isRoot isRoot' : Bool}
    {S S' T T' : Schema} {found found' : Outlined}
    (h : (Guided.mk page guide last n isRoot).reading.runFrom S = (.ok found, T))
    (h' : (Guided.mk page guide' last n isRoot').reading.runFrom S' = (.ok found', T')) :
    (Outline.flattenAll found.1).map Token.spot = (Outline.flattenAll found'.1).map Token.spot ∧
      found.2 = found'.2 := by
  obtain ⟨input, _, _, scalars, read⟩ := Guided.exists_reads h
  obtain ⟨input', _, _, scalars', read'⟩ := Guided.exists_reads h'
  have first := read.trail_eq (scalars ▸ plain)
  have second := read'.trail_eq (scalars' ▸ plain)
  rw [scalars] at first
  rw [scalars'] at second
  exact Prod.mk.inj (first.trans second.symm)

private def textFrom (text : String) (line column stopLine stopColumn : Nat) : Node :=
  .scalar (Yaml.Tag.standard "str") text ⟨0, line, column⟩ ⟨0, stopLine, stopColumn⟩

/-- A list of a word and a mapping, in which a text takes up three lines. -/
private def listOfParts : Node :=
  .sequence (Yaml.Tag.standard "seq")
    [textFrom "a" 1 4 1 5,
      .mapping (Yaml.Tag.standard "map") [(textFrom "b" 2 4 2 5, textFrom "x\ny\n" 2 7 5 0)] ⟨0, 2, 4⟩ ⟨0, 5, 0⟩]
    ⟨0, 1, 2⟩ ⟨0, 5, 0⟩

private def readParts (guide : Guide) : Reading Outlined :=
  (Guided.mk ⟨["parts:", "  - a", "  - b: |", "      x", "      y"].map String.toList, .origin⟩ guide .origin
    (.mapping (Yaml.Tag.standard "map") [(textFrom "parts" 0 0 0 5, listOfParts)] ⟨0, 0, 0⟩ ⟨0, 5, 0⟩) false).reading

/-- The items of the list are variables or have blocks, and no key is allowed in them. -/
private def partsSchema : Schema :=
  #[{ shape := .fields [("parts", 1)], indexKey := some (.constant "all") },
    { kind := .property, shape := .each 2 }, { shape := .each 3 },
    { kind := .variable, localKey := some (.constant "part"), strict := true }]

private theorem exists_ok_of_kinds {x : Reading Outlined} {kinds : List TokenKind}
    (h : (x.runFrom S).1.toOption.map (fun found => (Outline.flattenAll found.1).map (·.kind)) = some kinds) :
    ∃ found T, x.runFrom S = (.ok found, T) ∧ (Outline.flattenAll found.1).map (·.kind) = kinds := by
  obtain ⟨found, made, rfl⟩ := Option.map_eq_some_iff.1 h
  exact ⟨found, (x.runFrom S).2, Prod.ext (except_eq_ok_of_toOption made) rfl, rfl⟩

/-- The kinds of the tokens differ between the two readings, and their spots do not. -/
theorem spots_eq_of_reading_parts :
    ∃ found T found' T',
      (readParts .nothing).runFrom #[] = (.ok found, T) ∧
      (readParts (.entry 0)).runFrom partsSchema = (.ok found', T') ∧
      (Outline.flattenAll found.1).length = 6 ∧
      (Outline.flattenAll found.1).map (·.kind) ≠ (Outline.flattenAll found'.1).map (·.kind) ∧
      (Outline.flattenAll found.1).map Token.spot = (Outline.flattenAll found'.1).map Token.spot ∧
      found.2 = found'.2 := by
  obtain ⟨found, T, read, kinds⟩ : ∃ found T, (readParts .nothing).runFrom #[] = (.ok found, T) ∧
      (Outline.flattenAll found.1).map (·.kind) = [.keyword, .string, .keyword, .string, .string, .string] :=
    exists_ok_of_kinds (by decide +kernel)
  obtain ⟨found', T', read', kinds'⟩ : ∃ found T, (readParts (.entry 0)).runFrom partsSchema = (.ok found, T) ∧
      (Outline.flattenAll found.1).map (·.kind) = [.property, .variable, .keyword, .string, .string, .string] :=
    exists_ok_of_kinds (by decide +kernel)
  refine ⟨found, T, found', T', read, read', ?_, ?_, spots_eq_of_reading ?_ read read'⟩
  · simpa using congrArg List.length kinds
  · rw [kinds, kinds']
    decide
  · decide +kernel

end ManifestLens
