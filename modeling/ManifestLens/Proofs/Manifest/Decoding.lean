import ManifestLens.Proofs.Manifest.Derivation
import Mathlib.Data.List.Basic

/-!
# Decoding the tokens of a file

Nodes are read in turn, each from the position that the one before it hands on.  If the scalars stand in the text in
the order in which they are read, then a decoder that follows the distances between the tokens comes to each of the
places where the scalars stand, and to no others (`HandedOn.decodes`).
-/

namespace ManifestLens

open Yaml (Mark Node)

variable {found : Outlined} {b d last p q : Position} {page : Page} {r : ScalarReading}

/-- A node to be read: the page that it stands on, and the schema with the slot for it. -/
structure Extraction where
  page : Page
  schema : Schema
  slot : Slot
  node : Node

namespace Extraction

/-- The outlines of the nodes and the position that the last of them hands on. -/
def inTurn (last : Position) : List Extraction → Except Fault Outlined
  | [] => .ok ([], last)
  | e :: rest => do
    let (first, last) ← ((e.page.root e.slot last e.node).runFrom e.schema).1
    let (others, last) ← inTurn last rest
    return (first ++ others, last)

/-- The scalars of the nodes in reading order. -/
def scalars (es : List Extraction) : List ScalarNode :=
  es.flatMap fun e => e.node.scalars

/-- The nodes are read in turn, with the pieces that their outlines are made of. -/
inductive InTurn : List Extraction → Position → List Piece → Outlined → Prop where
  | nil {last : Position} : InTurn [] last [] ([], last)
  | cons {e : Extraction} {es : List Extraction} {last mid stop : Position} {pieces others : List Piece}
      {first rest : List Outline} {T : Schema}
      (root : Reads e.page (.root e.slot e.node) e.schema last pieces (first, mid) T)
      (next : InTurn es mid others (rest, stop)) : InTurn (e :: es) last (pieces ++ others) (first ++ rest, stop)

private theorem exists_inTurn {es : List Extraction} (h : inTurn last es = .ok found) :
    ∃ pieces, InTurn es last pieces found := by
  induction es generalizing last found with
  | nil =>
    cases h
    exact ⟨[], .nil⟩
  | cons e es ih =>
    rw [inTurn] at h
    obtain ⟨⟨first, mid⟩, hroot, h⟩ := except_bind_eq_ok_iff.1 h
    obtain ⟨⟨rest, stop⟩, hrest, h⟩ := except_bind_eq_ok_iff.1 h
    cases h
    obtain ⟨pieces, hp⟩ := exists_reads_root e.node (T := ((e.page.root e.slot last e.node).runFrom e.schema).2)
      (Prod.ext hroot rfl)
    obtain ⟨others, ho⟩ := ih hrest
    exact ⟨_, .cons hp ho⟩

namespace InTurn

variable {es : List Extraction} {pieces : List Piece}

/-- The scalars that are read are those of the nodes. -/
private theorem map_source_scalarsOf (h : InTurn es last pieces found) :
    (scalarsOf pieces).map ScalarReading.source = scalars es := by
  induction h with
  | nil => rfl
  | cons root next ih =>
    have here := root.map_source_scalarsOf
    rw [scalarsOf] at here ih ⊢
    rw [List.filterMap_append, List.map_append, here, ih]
    rfl

private theorem handedOn (h : InTurn es last pieces found) : HandedOn last (scalarsOf pieces) found.2 := by
  induction h with
  | nil => rfl
  | cons root next ih =>
    rw [scalarsOf, List.filterMap_append]
    exact root.handedOn.append ih

end InTurn

end Extraction

/-! ### Files -/

/-- The outlines of manifests, in the order of the file. -/
def Manifests.outlines (m : Manifests) : List Outline :=
  m.documents.flatMap fun manifest => (manifest.map (·.anchor.parts)).getD []

/-- The outlines of the manifests of a file are read in turn, each on the lines of the file from its own anchor. -/
theorem exists_inTurn_readDocuments (file : SourceFile) (kinds : List (String × Slot)) (state : FileReading)
    (ending : ManifestEnding) (documents : List Yaml.Document) (S : Schema) :
    ∃ es next, Extraction.inTurn state.last es =
        .ok (((readDocuments file kinds state ending documents).run S).1.outlines, next) ∧
      ∀ e ∈ es, e.page = ⟨file.lines.map String.toList, e.node.start.position⟩ := by
  induction documents generalizing state S with
  | nil => exact ⟨[], state.last, rfl, fun _ h => absurd h List.not_mem_nil⟩
  | cons document rest ih =>
    rw [run_readDocuments_cons]
    split
    · exact ⟨[], state.last, rfl, fun _ h => absurd h List.not_mem_nil⟩
    · next manifest next T hr =>
      obtain ⟨es, last, hes, pages⟩ := ih next T
      rcases readDocument_eq_ok hr with ⟨rfl, hnext, rfl⟩ | ⟨root, entries, m, _, rfl, _, hm, _⟩
      · exact ⟨es, last, hnext ▸ hes, pages⟩
      · obtain ⟨page, slot, outlines, onLines, _, hroot, children, _⟩ := readEntries_eq_ok hm
        refine ⟨⟨page, S, slot, root⟩ :: es, last, ?_, List.forall_mem_cons.2 ⟨onLines, pages⟩⟩
        rw [Extraction.inTurn, hroot]
        show (Extraction.inTurn next.last es >>= fun r => pure (outlines ++ r.1, r.2)) = _
        have parts : m.anchor.parts = outlines := by rw [Anchor.parts, children, Option.getD_some]
        rw [hes, ← parts]
        rfl

/-! ### Tokens -/

/-- The tokens of a piece. -/
def Piece.tokens (piece : Piece) : List Token :=
  piece.parts.filterMap Outline.token?

/-- A key that has no further lines and is no expression is one token, whatever its value is. -/
private theorem filterMap_below (made : r.outlined = .ok found) (lines : r.stop.line ≤ r.start.line + 1)
    (plain : r.isExpression = false) (children : List Outline) :
    (Page.below found.1 children).filterMap Outline.token? = r.tokens := by
  rw [ScalarReading.tokens_eq made]
  rw [ScalarReading.outlined, plain] at made
  obtain ⟨first, others, _, _, rfl⟩ := Page.scalar_eq_ok made
  rw [if_pos (by omega)]
  rfl

/-- A scalar gives its tokens, and a block none. -/
private theorem Piece.Made.tokens_eq {piece : Piece} (h : piece.Made page)
    (keys : ∀ r, piece.scalar? = some r → r.isKey = true → r.stop.line ≤ r.start.line + 1 ∧ r.isExpression = false) :
    piece.tokens = piece.scalar?.toList.flatMap ScalarReading.tokens := by
  cases h with
  | value onPage notKey made =>
    rw [Piece.scalar?, Option.toList_some, List.flatMap_singleton, ScalarReading.tokens_eq made,
      Outline.flattenAll_eq_filterMap]
    rfl
  | key onPage isKey made =>
    obtain ⟨lines, plain⟩ := keys _ rfl isKey
    rw [Piece.scalar?, Option.toList_some, List.flatMap_singleton]
    exact filterMap_below made lines plain _
  | block => rfl

/-- The tokens of pieces are those of their scalars, if every key is a token. -/
private theorem flatMap_tokens_eq {pieces : List Piece} (made : ∀ piece ∈ pieces, ∃ page, piece.Made page)
    (keys : ∀ r ∈ scalarsOf pieces, r.isKey = true → r.stop.line ≤ r.start.line + 1 ∧ r.isExpression = false) :
    pieces.flatMap Piece.tokens = (scalarsOf pieces).flatMap ScalarReading.tokens := by
  rw [scalarsOf, List.filterMap_eq_flatMap_toList, List.flatMap_assoc]
  apply List.flatMap_congr
  intro piece hp
  obtain ⟨page, made⟩ := made piece hp
  exact made.tokens_eq fun r hr => keys r (List.mem_filterMap.2 ⟨piece, hp, hr⟩)

theorem Reads.flattenAll_eq {input : Input} {S T : Schema} {pieces : List Piece}
    (h : Reads page input S last pieces found T) : Outline.flattenAll found.1 = pieces.flatMap Piece.tokens := by
  rw [Outline.flattenAll_eq_filterMap, h.preorderAll_eq, List.filterMap_flatMap]
  rfl

namespace Extraction.InTurn

variable {es : List Extraction} {pieces : List Piece}

private theorem forall_made (h : InTurn es last pieces found) : ∀ piece ∈ pieces, ∃ page, piece.Made page := by
  induction h with
  | nil => exact fun _ h => absurd h List.not_mem_nil
  | cons root next ih => exact List.forall_mem_append.2 ⟨fun piece h => ⟨_, root.forall_made piece h⟩, ih⟩

private theorem flattenAll_eq_pieces (h : InTurn es last pieces found) :
    Outline.flattenAll found.1 = pieces.flatMap Piece.tokens := by
  induction h with
  | nil => rfl
  | cons root next ih => rw [Outline.flattenAll_append, root.flattenAll_eq, ih, List.flatMap_append]

/-- The tokens of the nodes are those of their scalars, if every key is a token. -/
private theorem flattenAll_eq (h : InTurn es last pieces found)
    (keys : ∀ r ∈ scalarsOf pieces, r.isKey = true → r.start.line = r.stop.line ∧ r.isExpression = false) :
    Outline.flattenAll found.1 = (scalarsOf pieces).flatMap ScalarReading.tokens := by
  rw [h.flattenAll_eq_pieces, flatMap_tokens_eq h.forall_made]
  exact fun r hr isKey => (keys r hr isKey).imp_left fun line => by omega

end Extraction.InTurn

/-! ### Places -/

/-- The scalars stand in the text one after the other, the first of them at or after a position. -/
def InOrder (b : Position) : List ScalarNode → Prop
  | [] => True
  | s :: rest => b ≤ s.start.position ∧ s.start.position ≤ s.stop.position ∧ InOrder s.stop.position rest

instance decidableInOrder : (b : Position) → (l : List ScalarNode) → Decidable (InOrder b l)
  | _, [] => .isTrue trivial
  | b, s :: rest =>
    have := decidableInOrder s.stop.position rest
    inferInstanceAs (Decidable (b ≤ s.start.position ∧ s.start.position ≤ s.stop.position ∧ _))

/-- No scalar ends on a line above the one on which it starts. -/
theorem InOrder.line_le {scalars : List ScalarNode} (h : InOrder b scalars) :
    ∀ s ∈ scalars, s.start.line ≤ s.stop.line := by
  induction scalars generalizing b with
  | nil => exact List.forall_mem_nil _
  | cons s rest ih => exact List.forall_mem_cons.2 ⟨Int.ofNat_le.1 (Position.line_le h.2.1), ih h.2.2⟩

/-- The tokens of scalars lead a decoder in step from one scalar to the next, to the places where they stand. -/
theorem HandedOn.decodes {readings : List ScalarReading} (h : HandedOn p readings q)
    (order : InOrder b (readings.map ScalarReading.source)) (step : InStep d p b) :
    decodeDeltas d ((readings.flatMap ScalarReading.tokens).map (·.delta)) = readings.flatMap ScalarReading.places ∧
      ∀ r ∈ readings, r.tokens.length = r.places.length := by
  induction readings generalizing p d b with
  | nil => exact ⟨rfl, fun _ h => absurd h List.not_mem_nil⟩
  | cons r rest ih =>
    -- the invariant between two scalars: in step with what the first hands on, up to its end
    obtain ⟨hlast, found, made, hrest⟩ := h
    obtain ⟨after, ordered, orderRest⟩ := order
    obtain ⟨here, stepRest⟩ := r.decodes made (hlast ▸ step) after ordered
    obtain ⟨there, lengths⟩ := ih hrest orderRest stepRest
    constructor
    · rw [List.flatMap_cons, List.map_append, decodeDeltas_append, here, there, List.flatMap_cons]
    · refine List.forall_mem_cons.2 ⟨?_, lengths⟩
      rw [← here, length_decodeDeltas, List.length_map]

/-- A reading of scalars that stand in the text one after the other gives the tokens of the scalars, which lead to the
places where the scalars stand. -/
theorem Reads.decodes {input : Input} {S T : Schema} {pieces : List Piece} (h : Reads page input S last pieces found T)
    (order : InOrder last input.scalars)
    (keys : ∀ r ∈ scalarsOf pieces, r.isKey = true → r.stop.line ≤ r.start.line + 1 ∧ r.isExpression = false) :
    Outline.flattenAll found.1 = (scalarsOf pieces).flatMap ScalarReading.tokens ∧
      decodeDeltas last ((Outline.flattenAll found.1).map (·.delta)) =
        (scalarsOf pieces).flatMap ScalarReading.places ∧
      ∀ r ∈ scalarsOf pieces, r.tokens.length = r.places.length := by
  have tokens := h.flattenAll_eq.trans (flatMap_tokens_eq (fun piece hp => ⟨page, h.forall_made piece hp⟩) keys)
  rw [tokens]
  exact ⟨rfl, h.handedOn.decodes (h.map_source_scalarsOf.symm ▸ order) (InStep.refl last)⟩

/-- The tokens of an expression on one line are as long as their texts. -/
private theorem map_length_tokens (made : r.outlined = .ok found) (expression : r.isExpression = true)
    (line : r.start.line = r.stop.line) :
    r.tokens.map (·.length) = (Expression.spans r.text.toList).map fun s => (s.2.length : Int) := by
  rw [ScalarReading.tokens_eq made]
  rw [ScalarReading.outlined, expression] at made
  obtain ⟨tokens, t, htokens, ht, rfl⟩ := Page.expression_eq_ok made
  rw [if_pos line] at htokens
  rw [ScalarReading.flattenAll_block]
  exact Page.map_length_lineExpression htokens

theorem HandedOn.exists_outlined {readings : List ScalarReading} (h : HandedOn p readings q) :
    ∀ r ∈ readings, ∃ found, r.outlined = .ok found := by
  induction readings generalizing p with
  | nil => exact fun _ h => absurd h List.not_mem_nil
  | cons r rest ih =>
    obtain ⟨_, found, made, hrest⟩ := h
    exact List.forall_mem_cons.2 ⟨⟨found, made⟩, ih hrest⟩

/-- Nodes are read in turn, their scalars stand in the text one after the other, and every key stands on one line and
is no expression.  Then the tokens are those of the scalars, one by one, and their distances lead from the first
position to the places where the scalars stand: each token of an expression on one line covers its text, counted from
the first equals sign. -/
theorem decodeDeltas_inTurn {es : List Extraction} {last : Position} {found : Outlined}
    (made : Extraction.inTurn last es = .ok found)
    (lines : ∀ s ∈ Extraction.scalars es, s.isKey = true → s.start.line = s.stop.line)
    (plain : ∀ pieces, Extraction.InTurn es last pieces found →
      ∀ r ∈ scalarsOf pieces, r.isKey = true → r.isExpression = false)
    (order : InOrder last (Extraction.scalars es)) :
    ∃ pieces, Extraction.InTurn es last pieces found ∧
      (scalarsOf pieces).map ScalarReading.source = Extraction.scalars es ∧
      Outline.flattenAll found.1 = (scalarsOf pieces).flatMap ScalarReading.tokens ∧
      decodeDeltas last ((Outline.flattenAll found.1).map (·.delta)) =
        (scalarsOf pieces).flatMap ScalarReading.places ∧
      ∀ r ∈ scalarsOf pieces, r.tokens.length = r.places.length ∧
        (r.isExpression = true → r.start.line = r.stop.line →
          r.tokens.map (·.length) = (Expression.spans r.text.toList).map (fun s => (s.2.length : Int)) ∧
          ∀ s ∈ Expression.spans r.text.toList, s.2 <+: r.text.toList.drop s.1) := by
  obtain ⟨pieces, h⟩ := Extraction.exists_inTurn made
  have sources := h.map_source_scalarsOf
  have keys : ∀ r ∈ scalarsOf pieces, r.isKey = true → r.start.line = r.stop.line ∧ r.isExpression = false := by
    intro r hr isKey
    have hs : r.source ∈ Extraction.scalars es := sources ▸ List.mem_map_of_mem hr
    exact ⟨lines r.source hs isKey, plain pieces h r hr isKey⟩
  have tokens := h.flattenAll_eq keys
  obtain ⟨decoded, lengths⟩ := h.handedOn.decodes (sources.symm ▸ order) (InStep.refl last)
  refine ⟨pieces, h, sources, tokens, tokens ▸ decoded, ?_⟩
  intro r hr
  obtain ⟨_, outlined⟩ := h.handedOn.exists_outlined r hr
  exact ⟨lengths r hr, fun expression line => ⟨map_length_tokens outlined expression line,
    fun s hs => Expression.isPrefix_drop_of_mem_spans hs⟩⟩

theorem ScalarReading.isExpression_eq_false (h : r.text.toList.head? ≠ some '=') : r.isExpression = false := by
  rw [isExpression, Bool.and_eq_false_iff]
  exact .inr (beq_eq_false_iff_ne.2 h)

/-- A scalar on one line, at a line and a column. -/
private def word (text : String) (line column length : Nat) : Node :=
  .scalar "str" text ⟨0, line, column⟩ ⟨0, line, column + length⟩

/-- A file of two documents, with expressions on one line and on several. -/
private def twoDocuments : List Extraction :=
  let lines := ["a: =x + y", "b: |", "  =z +", "  1", "c: \x7bd: 1, e: '= z'\x7d", "f: |", "  two", "   lines", "---",
    "g: h"].map String.toList
  [ { page := ⟨lines, .origin⟩, schema := #[{}], slot := 0
      node := .mapping "map"
        [ (word "a" 0 0 1, word "=x + y" 0 3 6),
          (word "b" 1 0 1, .scalar "str" "=z +\n1\n" ⟨0, 1, 3⟩ ⟨0, 4, 0⟩),
          (word "c" 4 0 1, .mapping "map"
            [(word "d" 4 4 1, word "1" 4 7 1), (word "e" 4 10 1, word "= z" 4 13 5)] ⟨0, 4, 3⟩ ⟨0, 4, 19⟩),
          (word "f" 5 0 1, .scalar "str" "two\n lines\n" ⟨0, 5, 3⟩ ⟨0, 8, 0⟩) ] ⟨0, 0, 0⟩ ⟨0, 8, 0⟩ },
    { page := ⟨lines, ⟨9, 0⟩⟩, schema := #[{}], slot := 0
      node := .mapping "map" [(word "g" 9 0 1, word "h" 9 3 1)] ⟨0, 9, 0⟩ ⟨0, 9, 4⟩ } ]

theorem decodeDeltas_twoDocuments :
    ∃ found, Extraction.inTurn .origin twoDocuments = .ok found ∧ InOrder .origin (Extraction.scalars twoDocuments) ∧
      ∃ pieces, Extraction.InTurn twoDocuments .origin pieces found ∧ (scalarsOf pieces).length = 13 ∧
        decodeDeltas .origin ((Outline.flattenAll found.1).map (·.delta)) =
          (scalarsOf pieces).flatMap ScalarReading.places := by
  have succeeds : (Extraction.inTurn .origin twoDocuments).isOk = true := by decide +kernel
  have lines : ∀ s ∈ Extraction.scalars twoDocuments, s.isKey = true → s.start.line = s.stop.line := by
    decide +kernel
  have heads : ∀ s ∈ Extraction.scalars twoDocuments, s.isKey = true → s.text.toList.head? ≠ some '=' := by
    decide +kernel
  have order : InOrder .origin (Extraction.scalars twoDocuments) := by decide +kernel
  cases made : Extraction.inTurn .origin twoDocuments with
  | error fault =>
    rw [made] at succeeds
    cases succeeds
  | ok found =>
    have plain : ∀ pieces, Extraction.InTurn twoDocuments .origin pieces found →
        ∀ r ∈ scalarsOf pieces, r.isKey = true → r.isExpression = false := by
      intro pieces h r hr isKey
      have hs : r.source ∈ Extraction.scalars twoDocuments := h.map_source_scalarsOf ▸ List.mem_map_of_mem hr
      exact ScalarReading.isExpression_eq_false (heads r.source hs isKey)
    obtain ⟨pieces, h, sources, _, decoded, _⟩ := decodeDeltas_inTurn made lines plain order
    refine ⟨found, rfl, order, pieces, h, ?_, decoded⟩
    rw [← List.length_map (f := ScalarReading.source), sources]
    decide +kernel

end ManifestLens
