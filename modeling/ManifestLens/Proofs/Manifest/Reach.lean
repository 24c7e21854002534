import ManifestLens.Proofs.Manifest.Agreement
import ManifestLens.Proofs.Outline.Queries
import ManifestLens.Report.Block
import ManifestLens.Schema.Resources
import ManifestLens.Session.Lookup

/-!
# How far a document reaches

The range of a document ends with its last descendant, which is its last part in pre-order
(`Outline.lastDescendant_eq`).  If the scalars of the document stand in the text one after the other, then no token is
below that end, as long as the last part is made of a scalar.  The block around a collection without scalars ends where
the collection does, and if the collection is an alias, that may be above tokens that are read before it.
-/

namespace ManifestLens

open Yaml (Mark Node)

/-! ### The last part -/

namespace Outline

mutual

/-- The last descendant of an outline is the last of its parts. -/
theorem lastDescendant_eq : (o : Outline) → lastDescendant o = (preorderAll o.parts).getLastD o
  | .anchor _ _ _ none => rfl
  | .anchor _ _ _ (some below) => lastOf_eq _ below
  | .block _ _ _ none => rfl
  | .block _ _ _ (some below) => lastOf_eq _ below
  | .token _ none => rfl
  | .token _ (some below) => lastOf_eq _ below

private theorem lastOf_eq (default : Outline) :
    (os : List Outline) → lastOf default os = (preorderAll os).getLastD default
  | [] => rfl
  | [o] => by
    rw [lastOf, lastDescendant_eq o, preorderAll, preorderAll, List.append_nil, preorder_eq, List.getLastD_cons]
  | o :: next :: rest => by
    -- only the later outlines can hold the last part, and they are not empty
    have filled : preorderAll (next :: rest) ≠ [] := by
      rw [preorderAll, preorder_eq, List.cons_append]
      exact List.cons_ne_nil _ _
    rw [lastOf, lastOf_eq default (next :: rest), preorderAll.eq_2 o, List.getLastD_eq_getLast?,
      List.getLastD_eq_getLast?, List.getLast?_append_of_ne_nil _ filled]

end

end Outline

/-- Where a document starts and ends. -/
def Anchor.range (a : Anchor) : Range :=
  a.outline.absoluteRange a.absolute

/-- The line of a token of a document. -/
def Anchor.lineOf (a : Anchor) (t : Token) : Int :=
  (t.rangeStart a.absolute).line

private theorem Anchor.range_eq (a : Anchor) :
    a.range = Outline.anchorRange a.absolute ((Outline.preorderAll a.parts).getLastD a.outline) := by
  rw [range, outline, Outline.absoluteRange, Outline.lastDescendant_eq]
  rfl

/-! ### The lines of a scalar -/

/-- Lines that go down, from a first line at the earliest to a last one at the latest. -/
structure GoesDown (first stop : Int) (lines : List Int) : Prop where
  sorted : lines.Pairwise (· ≤ ·)
  within : ∀ n ∈ lines, first ≤ n ∧ n ≤ stop

namespace GoesDown

variable {first next stop : Int} {lines more : List Int}

private theorem nil : GoesDown first stop [] :=
  ⟨.nil, fun _ h => absurd h List.not_mem_nil⟩

/-- Before lines that go down there may be more on the line where they start, or above. -/
private theorem append (h : GoesDown next stop more) (same : ∀ n ∈ lines, n = first) (above : first ≤ next)
    (ordered : lines ≠ [] → first ≤ stop) : GoesDown first stop (lines ++ more) := by
  constructor
  · refine List.pairwise_append.2 ⟨List.pairwise_of_forall_mem_list ?_, h.sorted, ?_⟩
    · intro n hn m hm
      exact Int.le_of_eq ((same n hn).trans (same m hm).symm)
    · intro n hn m hm
      rw [same n hn]
      exact Int.le_trans above (h.within m hm).1
  · refine List.forall_mem_append.2 ⟨fun n hn => ?_, fun n hn => ?_⟩
    · rw [same n hn]
      exact ⟨Int.le_refl first, ordered (List.ne_nil_of_mem hn)⟩
    · exact (h.within n hn).imp_left (Int.le_trans above)

private theorem cons (h : GoesDown next stop more) (above : first ≤ next) (ordered : first ≤ stop) :
    GoesDown first stop (first :: more) := by
  rw [← List.singleton_append]
  exact h.append (fun _ hn => List.mem_singleton.1 hn) above fun _ => ordered

end GoesDown

theorem Expression.goesDown_placesFrom {line stop : Int} {texts : List (List Char)}
    (below : line + texts.length ≤ stop + 1) : GoesDown line stop ((placesFrom line texts).map Position.line) := by
  induction texts generalizing line with
  | nil => exact .nil
  | cons text rest ih =>
    rw [List.length_cons] at below
    have belowRest : line + 1 + rest.length ≤ stop + 1 := by omega
    rw [placesFrom, List.map_append]
    refine (ih belowRest).append ?_ (by omega) fun _ => by omega
    intro n hn
    rw [List.map_map] at hn
    obtain ⟨_, _, rfl⟩ := List.mem_map.1 hn
    rfl

/-- Seen from anywhere, a place comes back with its line. -/
private theorem Position.line_absolute_relativeTo (p anchor : Position) (offset : Int) :
    ((p.relativeTo anchor).absolute anchor offset).line = p.line := by
  rw [relativeTo, absolute]
  dsimp only
  omega

namespace Page

variable {page : Page} {start stop : Mark} {last : Position} {tokens : List Token}

/-- The lines of tokens. -/
def linesOf (page : Page) (tokens : List Token) : List Int :=
  tokens.map fun t => (t.rangeStart page.anchor).line

private theorem linesOf_eq :
    page.linesOf tokens = (tokens.map fun t => t.place.absolute page.anchor 0).map Position.line :=
  List.map_map.symm

theorem goesDown_furtherTokens {first : Token} {line count : Nat} {bottom : Int}
    (h : page.furtherTokens first line count = .ok tokens) (below : line + count ≤ bottom + 1) :
    GoesDown line bottom (page.linesOf tokens) := by
  obtain ⟨-, rfl⟩ := furtherTokens_eq_ok_iff.1 h
  clear h
  induction count generalizing line with
  | zero => exact .nil
  | succ count ih =>
    rw [linesOf, List.range'_succ, List.map_cons, List.map_cons, Token.rangeStart, Outline.absoluteRange, furtherToken,
      Position.line_absolute_relativeTo]
    exact (ih (by omega)).cons (by omega) (by omega)

private theorem goesDown_lineExpression {text : String} (h : page.lineExpression text start last = .ok tokens)
    (oneLine : start.line = stop.line) : GoesDown start.line stop.line (page.linesOf tokens) := by
  rw [← List.append_nil (page.linesOf tokens)]
  refine GoesDown.nil.append ?_ (Int.le_refl _) fun _ => by omega
  intro n hn
  rw [linesOf_eq, map_absolute_lineExpression h, List.map_map] at hn
  obtain ⟨_, _, rfl⟩ := List.mem_map.1 hn
  rfl

private theorem goesDown_blockExpression {modifiers : Option (List Modifier)} {remark : Option Remark}
    (h : page.blockExpression start stop last modifiers remark = .ok tokens) (several : start.line < stop.line) :
    GoesDown start.line stop.line (page.linesOf tokens) := by
  have placed := map_absolute_blockExpression h
  obtain ⟨line, lexed, _, _, rfl⟩ := blockExpression_eq_ok h
  have short : (page.inside start stop).length ≤ stop.line - (start.line + 1) := List.length_take_le _ _
  have below : (start.line + 1 : Int) + (page.inside start stop).length ≤ stop.line + 1 := by omega
  have inside := Expression.goesDown_placesFrom below
  rw [← placed, ← linesOf_eq, List.tail_cons] at inside
  rw [linesOf, List.map_cons, headerToken, Token.rangeStart, Outline.absoluteRange, Position.line_absolute_relativeTo]
  exact inside.cons (by omega) (by omega)

end Page

namespace ScalarReading

variable {r : ScalarReading} {found : Outlined}

/-- The tokens of a scalar go down from its first line to its last one at most. -/
private theorem exists_goesDown (made : r.outlined = .ok found) (ordered : r.start.line ≤ r.stop.line) :
    ∃ tokens, tokens ≠ [] ∧ GoesDown r.start.line r.stop.line (r.page.linesOf tokens) ∧
      ((∃ t, tokens = [t] ∧ found.1 = [.token t none]) ∨ ∃ localKey indexKey, found.1 =
        [.block localKey indexKey (r.page.range r.start r.stop) (some (tokens.map fun t => .token t none))]) := by
  rw [outlined] at made
  cases isExpression : r.isExpression with
  | true =>
    rw [isExpression] at made
    obtain ⟨tokens, t, madeTokens, isLast, rfl⟩ := Page.expression_eq_ok made
    refine ⟨tokens, List.ne_nil_of_mem (List.mem_of_getLast? isLast), ?_, .inr ⟨none, none, rfl⟩⟩
    by_cases oneLine : r.start.line = r.stop.line
    · rw [if_pos oneLine] at madeTokens
      exact Page.goesDown_lineExpression madeTokens oneLine
    · rw [if_neg oneLine] at madeTokens
      exact Page.goesDown_blockExpression madeTokens (by omega)
  | false =>
    rw [isExpression] at made
    obtain ⟨first, others, ⟨length, localKey, indexKey, _, _, _, isFirst⟩, madeOthers, rfl⟩ := Page.scalar_eq_ok made
    have line : (first.rangeStart r.page.anchor).line = r.start.line := by
      rw [isFirst]
      exact Position.line_absolute_relativeTo _ _ _
    have below : (r.start.line + 1 : Nat) + (r.stop.line - r.start.line - 1 : Nat) ≤ (r.stop.line : Int) + 1 := by omega
    have further := Page.goesDown_furtherTokens madeOthers below
    refine ⟨first :: others, List.cons_ne_nil _ _, ?_, ?_⟩
    · rw [Page.linesOf, List.map_cons, line]
      exact further.cons (by omega) (by omega)
    · split
      · next short =>
        rw [short] at madeOthers
        cases madeOthers
        exact .inl ⟨first, rfl, rfl⟩
      · exact .inr ⟨_, _, rfl⟩

end ScalarReading

/-! ### The last piece -/

/-- The line on which the range of a document ends that has `o` as its last part. -/
def Page.bottom (page : Page) (o : Outline) : Int :=
  (Outline.anchorRange page.anchor o).stop.line

private theorem Page.bottom_block (page : Page) (localKey indexKey : Option String) (start stop : Mark)
    (children : Option (List Outline)) :
    page.bottom (.block localKey indexKey (page.range start stop) children) = stop.line :=
  Position.line_absolute_relativeTo stop.position page.anchor 0

private theorem GoesDown.le_getLast {first stop n m : Int} {lines : List Int} (h : GoesDown first stop lines)
    (isLast : lines.getLast? = some m) (hn : n ∈ lines) : n ≤ m := by
  obtain ⟨init, rfl⟩ := List.getLast?_eq_some_iff.1 isLast
  rcases List.mem_append.1 hn with hn | hn
  · exact (List.pairwise_append.1 h.sorted).2.2 n hn m (List.mem_singleton_self m)
  · exact Int.le_of_eq (List.mem_singleton.1 hn)

/-- The parts of a scalar that is a value end with its last token. -/
private theorem exists_getLast?_preorderAll {r : ScalarReading} {found : Outlined} (made : r.outlined = .ok found)
    (ordered : r.start.line ≤ r.stop.line) :
    ∃ tokens t, GoesDown r.start.line r.stop.line (r.page.linesOf tokens) ∧ tokens.getLast? = some t ∧
      (Outline.preorderAll found.1).filterMap Outline.token? = tokens ∧
      (Outline.preorderAll found.1).getLast? = some (.token t none) := by
  obtain ⟨tokens, filled, down, form⟩ := r.exists_goesDown made ordered
  refine ⟨tokens, tokens.getLast filled, down, List.getLast?_eq_some_getLast filled, ?_⟩
  rcases form with ⟨t, rfl, form⟩ | ⟨localKey, indexKey, form⟩
  · rw [form]
    exact ⟨rfl, rfl⟩
  · rw [form, ← Outline.flattenAll_eq_filterMap, ScalarReading.flattenAll_block]
    refine ⟨rfl, ?_⟩
    rw [Outline.preorderAll_block_tokens, List.getLast?_cons, List.getLast?_map,
      List.getLast?_eq_some_getLast filled]
    rfl

/-- The parts of a scalar end on its first line or below, and no token of it is below that. -/
private theorem Piece.Made.exists_getLast? {page : Page} {r : ScalarReading} {parts : List Outline}
    (h : (Piece.scalar r parts).Made page) (ordered : r.start.line ≤ r.stop.line) :
    ∃ o, parts.getLast? = some o ∧ o.isAnchor = false ∧ r.start.line ≤ page.bottom o ∧
      ∀ n ∈ page.linesOf (Piece.scalar r parts).tokens, r.start.line ≤ n ∧ n ≤ r.stop.line ∧ n ≤ page.bottom o := by
  cases h with
  | value onPage notKey made =>
    subst onPage
    obtain ⟨tokens, t, down, isLast, isTokens, lastPart⟩ := exists_getLast?_preorderAll made ordered
    have lastLine : (r.page.linesOf tokens).getLast? = some (r.page.bottom (.token t none)) := by
      rw [Page.linesOf, List.getLast?_map, isLast]
      rfl
    refine ⟨_, lastPart, rfl, (down.within _ (List.mem_of_getLast? lastLine)).1, ?_⟩
    intro n hn
    rw [Piece.tokens, Piece.parts, isTokens] at hn
    obtain ⟨above, below⟩ := down.within n hn
    exact ⟨above, below, down.le_getLast lastLine hn⟩
  | key onPage isKey made =>
    subst onPage
    obtain ⟨tokens, filled, down, form⟩ := r.exists_goesDown made ordered
    rcases form with ⟨t, rfl, form⟩ | ⟨localKey, indexKey, form⟩
    · obtain ⟨above, below⟩ := down.within _ (List.mem_singleton_self _)
      rw [form]
      refine ⟨_, rfl, rfl, above, ?_⟩
      intro n hn
      cases List.mem_singleton.1 hn
      exact ⟨above, below, Int.le_refl _⟩
    · rw [form]
      refine ⟨.block localKey indexKey _ (some _), rfl, rfl, ?_, fun n hn => absurd hn List.not_mem_nil⟩
      rw [Page.bottom_block]
      exact Int.ofNat_le.2 ordered

/-! ### Scalars in order -/

namespace InOrder

variable {b : Position} {scalars : List ScalarNode}

private theorem le_start (h : InOrder b scalars) : ∀ s ∈ scalars, b.line ≤ s.start.line := by
  induction scalars generalizing b with
  | nil => exact List.forall_mem_nil _
  | cons s rest ih =>
    obtain ⟨after, ordered, orderRest⟩ := h
    have here := Position.line_le after
    have there := Position.line_le ordered
    refine List.forall_mem_cons.2 ⟨here, fun u hu => ?_⟩
    exact Int.le_trans here (Int.le_trans there (ih orderRest u hu))

/-- Each scalar ends on the line on which the later ones start, or above. -/
private theorem pairwise (h : InOrder b scalars) : scalars.Pairwise fun s u => s.stop.line ≤ u.start.line := by
  induction scalars generalizing b with
  | nil => exact .nil
  | cons s rest ih => exact .cons (fun u hu => Int.ofNat_le.1 (h.2.2.le_start u hu)) (ih h.2.2)

end InOrder

/-- Each line with a token is a line of a scalar. -/
private theorem exists_scalar_of_line {page : Page} {pieces : List Piece} {n : Int}
    (made : ∀ piece ∈ pieces, piece.Made page) (ordered : ∀ r ∈ scalarsOf pieces, r.start.line ≤ r.stop.line)
    (hn : n ∈ page.linesOf (pieces.flatMap Piece.tokens)) :
    ∃ r ∈ scalarsOf pieces, r.start.line ≤ n ∧ n ≤ r.stop.line := by
  obtain ⟨t, ht, rfl⟩ := List.mem_map.1 hn
  obtain ⟨piece, hpiece, ht⟩ := List.mem_flatMap.1 ht
  cases piece with
  | block node part =>
    cases made _ hpiece
    cases ht
  | scalar r parts =>
    have hr : r ∈ scalarsOf pieces := List.mem_filterMap.2 ⟨_, hpiece, rfl⟩
    obtain ⟨_, _, _, _, lines⟩ := (made _ hpiece).exists_getLast? (ordered r hr)
    obtain ⟨above, below, _⟩ := lines _ (List.mem_map_of_mem ht)
    exact ⟨r, hr, above, below⟩

namespace Reads

variable {page : Page} {input : Input} {S T : Schema} {last b : Position} {pieces init : List Piece} {found : Outlined}

private theorem line_le (h : Reads page input S last pieces found T) (order : InOrder b input.scalars) :
    ∀ r ∈ scalarsOf pieces, r.start.line ≤ r.stop.line := by
  intro r hr
  exact order.line_le r.source (h.map_source_scalarsOf ▸ List.mem_map_of_mem hr)

/-- If the last piece is a scalar, then no token is below the last part. -/
private theorem le_bottom_of_scalar {r : ScalarReading} {parts : List Outline}
    (h : Reads page input S last (init ++ [.scalar r parts]) found T) (order : InOrder b input.scalars) :
    ∃ o, (Outline.preorderAll found.1).getLast? = some o ∧ o.isAnchor = false ∧
      ∀ n ∈ page.linesOf (Outline.flattenAll found.1), n ≤ page.bottom o := by
  obtain ⟨madeInit, made⟩ := List.forall_mem_append.1 h.forall_made
  have ordered := h.line_le order
  have sorted := h.map_source_scalarsOf ▸ order.pairwise
  have isScalars : scalarsOf (init ++ [.scalar r parts]) = scalarsOf init ++ [r] := List.filterMap_append
  rw [isScalars] at ordered
  rw [isScalars, List.map_append, List.pairwise_append] at sorted
  obtain ⟨orderedInit, orderedLast⟩ := List.forall_mem_append.1 ordered
  obtain ⟨o, isLast, notAnchor, above, lines⟩ := (made _ (List.mem_singleton_self _)).exists_getLast?
    (orderedLast r (List.mem_singleton_self r))
  have filled : parts ≠ [] := List.ne_nil_of_mem (List.mem_of_getLast? isLast)
  refine ⟨o, ?_, notAnchor, ?_⟩
  · rw [h.preorderAll_eq, List.flatMap_append, List.flatMap_singleton, Piece.parts,
      List.getLast?_append_of_ne_nil _ filled, isLast]
  · intro n hn
    rw [h.flattenAll_eq, List.flatMap_append, List.flatMap_singleton, Page.linesOf, List.map_append] at hn
    rcases List.mem_append.1 hn with hn | hn
    · -- an earlier scalar ends above the last one, and this starts above the last part
      obtain ⟨r', hr', _, below⟩ := exists_scalar_of_line madeInit orderedInit hn
      have before : r'.stop.line ≤ r.start.line :=
        sorted.2.2 _ (List.mem_map_of_mem hr') _ (List.mem_singleton_self _)
      omega
    · exact (lines n hn).2.2

end Reads

/-! ### Collections without scalars -/

/-- The end of a scalar, or of a collection that holds no scalar. -/
structure Closing where
  isScalar : Bool
  stop : Mark
  deriving DecidableEq

/-- The end of a collection with the given scalars, if there are none. -/
def hollowClosing (scalars : List ScalarNode) (stop : Mark) : List Closing :=
  if scalars.isEmpty then [⟨false, stop⟩] else []

mutual

/-- Where the scalars of a node end, and the collections that hold no scalar, in reading order. -/
def Yaml.Node.closings : Node → List Closing
  | .scalar _ _ _ stop => [⟨true, stop⟩]
  | .sequence _ members _ stop => hollowClosing (itemScalars members) stop ++ itemClosings members
  | .mapping _ members _ stop => hollowClosing (pairScalars members) stop ++ pairClosings members

def itemClosings : List Node → List Closing
  | [] => []
  | n :: rest => n.closings ++ itemClosings rest

def pairClosings : List (Node × Node) → List Closing
  | [] => []
  | (key, value) :: rest => key.closings ++ value.closings ++ pairClosings rest

end

/-- The same without the end of the node itself, if it is a collection. -/
def Yaml.Node.innerClosings : Node → List Closing
  | .scalar _ _ _ stop => [⟨true, stop⟩]
  | .sequence _ members _ _ => itemClosings members
  | .mapping _ members _ _ => pairClosings members

def Input.closings : Input → List Closing
  | .root _ n => n.innerClosings
  | .node _ n => n.closings
  | .items _ members => itemClosings members
  | .pairs _ _ members => pairClosings members

def Piece.closings : Piece → List Closing
  | .scalar r _ => [⟨true, r.stop⟩]
  | .block n _ => hollowClosing n.scalars n.stop

/-- No collection without scalars ends above a scalar that is read before it. -/
def Yaml.Node.ClosesInOrder (n : Node) : Prop :=
  n.closings.Pairwise fun e f => e.isScalar = true → f.isScalar = false → e.stop.line ≤ f.stop.line

instance (n : Node) : Decidable n.ClosesInOrder :=
  inferInstanceAs (Decidable (n.closings.Pairwise _))

theorem Yaml.Node.innerClosings_sublist (n : Node) : n.innerClosings.Sublist n.closings := by
  cases n with
  | scalar => exact .refl _
  | sequence => exact List.sublist_append_right _ _
  | mapping => exact List.sublist_append_right _ _

private theorem Entry.closings_of_encloses {entry : Entry} {n : Node} (h : entry.encloses n = true) :
    n.closings = hollowClosing n.scalars n.stop ++ n.innerClosings := by
  cases n with
  | scalar => cases h
  | sequence => rfl
  | mapping => rfl

namespace Reads

variable {page : Page} {input : Input} {S T : Schema} {last b : Position} {pieces init : List Piece} {found : Outlined}

/-- The pieces end like nodes of the document, in the same order. -/
private theorem closings_sublist (h : Reads page input S last pieces found T) :
    (pieces.flatMap Piece.closings).Sublist input.closings := by
  induction h with
  | scalar read made =>
    rw [read]
    exact .refl _
  | sequence placed items ih => exact ih
  | mapping listed pairs ih => exact ih
  | bare bare root ih => exact ih.trans (Node.innerClosings_sublist _)
  | enclosed encloses localRule indexRule root ih =>
    rw [List.flatMap_cons, Input.closings, Entry.closings_of_encloses encloses]
    exact (List.Sublist.refl _).append ih
  | noItems => exact .refl _
  | item node items ihn ihi =>
    rw [List.flatMap_append]
    exact ihn.append ihi
  | noPairs => exact .refl _
  | pair placed read made valuePlaced node pairs ihn ihp =>
    rw [List.cons_append, List.flatMap_cons, List.flatMap_append, read, Input.closings, pairClosings, List.append_assoc]
    exact (List.Sublist.refl _).append (ihn.append ihp)

/-- A block around scalars is not the last piece. -/
private theorem scalars_of_getLast? (h : Reads page input S last pieces found T) {n : Node} {part : Outline}
    (isLast : pieces.getLast? = some (.block n part)) : n.scalars = [] := by
  induction h with
  | scalar read made => cases isLast
  | sequence placed items ih => exact ih isLast
  | mapping listed pairs ih => exact ih isLast
  | bare bare root ih => exact ih isLast
  | enclosed encloses localRule indexRule root ih =>
    rw [List.getLast?_cons, Option.some.injEq, Option.getD_eq_iff] at isLast
    rcases isLast with isLast | ⟨noPieces, same⟩
    · exact ih isLast
    · -- nothing was read inside the block, so there were no scalars
      cases same
      have scalars := root.map_source_scalarsOf
      rw [List.getLast?_eq_none_iff.1 noPieces] at scalars
      exact scalars.symm
  | noItems => cases isLast
  | item node items ihn ihi =>
    rw [List.getLast?_append, Option.or_eq_some_iff] at isLast
    rcases isLast with isLast | ⟨_, isLast⟩
    · exact ihi isLast
    · exact ihn isLast
  | noPairs => cases isLast
  | pair placed read made valuePlaced node pairs ihn ihp =>
    rw [List.getLast?_append, Option.or_eq_some_iff, List.getLast?_cons, Option.some.injEq,
      Option.getD_eq_iff] at isLast
    rcases isLast with isLast | ⟨_, isLast | ⟨_, isKey⟩⟩
    · exact ihp isLast
    · exact ihn isLast
    · cases isKey

/-- The last part is below all tokens, or it ends with a collection that holds no scalar. -/
private theorem exists_getLast? (h : Reads page input S last pieces found T) (order : InOrder b input.scalars)
    (filled : pieces ≠ []) :
    ∃ o, (Outline.preorderAll found.1).getLast? = some o ∧ o.isAnchor = false ∧
      ((∀ n ∈ page.linesOf (Outline.flattenAll found.1), n ≤ page.bottom o) ∨
        ∃ before e, (before ++ [e]).Sublist input.closings ∧ e.isScalar = false ∧ page.bottom o = e.stop.line ∧
          ∀ r ∈ scalarsOf pieces, ⟨true, r.stop⟩ ∈ before) := by
  obtain ⟨init, piece, rfl⟩ := (List.eq_nil_or_concat' pieces).resolve_left filled
  cases piece with
  | scalar r parts =>
    obtain ⟨o, isLast, notAnchor, below⟩ := h.le_bottom_of_scalar order
    exact ⟨o, isLast, notAnchor, .inl below⟩
  | block n part =>
    have hollow : n.scalars = [] := h.scalars_of_getLast? List.getLast?_concat
    have closings := h.closings_sublist
    rw [List.flatMap_append, List.flatMap_singleton, Piece.closings, hollow] at closings
    refine ⟨part, ?_, ?_⟩
    · rw [h.preorderAll_eq, List.flatMap_append, List.flatMap_singleton, Piece.parts, List.getLast?_concat]
    · cases h.forall_made _ List.mem_concat_self
      refine ⟨rfl, .inr ⟨_, _, closings, rfl, page.bottom_block .., ?_⟩⟩
      intro r hr
      obtain ⟨piece, hpiece, isScalar⟩ := List.mem_filterMap.1 hr
      cases piece with
      | block => cases isScalar
      | scalar r' parts =>
        cases isScalar
        rcases List.mem_append.1 hpiece with hpiece | hpiece
        · exact List.mem_flatMap.2 ⟨_, hpiece, List.mem_singleton_self _⟩
        · cases List.mem_singleton.1 hpiece

end Reads

/-! ### Documents -/

private theorem anchorKey_ne_empty (kind name : Option Value) (count : Nat) : anchorKey kind name count ≠ "" := by
  have unknown (a : String) : "Unknown:" ++ a ≠ "" := by simp
  have colon (a b : String) : a ++ ":" ++ b ≠ "" := by simp
  unfold anchorKey
  split
  · exact unknown _
  · split
    · exact unknown _
    · split
      · split <;> exact colon _ _
      · exact colon _ _

/-- Where an entry reaches over a line, the scan finds one that does. -/
private theorem Session.exists_covering? {entries : List IndexEntry} {e : IndexEntry} {n : Int} (he : e ∈ entries)
    (above : e.range.start.line ≤ n) (below : n ≤ e.range.stop.line) :
    ∃ entry, covering? entries n = some entry ∧ entry.2.start.line ≤ n ∧ n ≤ entry.2.stop.line := by
  have reaches : e ∈ entries.filter fun e => e.range.start.line ≤ n && n ≤ e.range.stop.line := by
    rw [List.mem_filter, Bool.and_eq_true, decide_eq_true_iff, decide_eq_true_iff]
    exact ⟨he, above, below⟩
  obtain ⟨found, isLast⟩ := Option.isSome_iff_exists.1 (List.getLast?_isSome.2 (List.ne_nil_of_mem reaches))
  have covers := (List.mem_filter.1 (List.mem_of_getLast? isLast)).2
  rw [Bool.and_eq_true, decide_eq_true_iff, decide_eq_true_iff] at covers
  refine ⟨(found.name, found.range), ?_, covers⟩
  rw [covering?, isLast, Option.map_some]

/-- The index entries of a document have one for the document itself. -/
private theorem Block.mem_index {b : Block} {key : String} (isKey : b.anchor.key = some key) (filled : key ≠ "") :
    ⟨b.uri, key, b.anchor.range, some b.version⟩ ∈ b.index := by
  refine List.mem_map.2 ⟨(key, b.anchor.range), ?_, rfl⟩
  have own : (key, b.anchor.range) ∈ Outline.keyed b.anchor.key (some b.anchor.absolute) b.anchor.outline := by
    rw [Outline.keyed_eq, Outline.keyEntry_of_named (Outline.named_eq_some_iff.2 ⟨isKey, filled⟩)]
    exact List.mem_singleton_self _
  rw [Anchor.outline, Outline.keyRanges.eq_def]
  exact List.mem_append_left _ own

namespace Anchor

variable {a : Anchor} {page : Page}

private theorem lineOf_mem_linesOf (isAnchor : a.absolute = page.anchor) {t : Token} (ht : t ∈ a.outline.flatten) :
    a.lineOf t ∈ page.linesOf (Outline.flattenAll a.parts) := by
  rw [flatten_outline, ← Outline.flattenAll_eq_filterMap] at ht
  rw [lineOf, isAnchor]
  exact List.mem_map_of_mem ht

private theorem range_of_getLast? (isAnchor : a.absolute = page.anchor) {o : Outline}
    (isLast : (Outline.preorderAll a.parts).getLast? = some o) (notAnchor : o.isAnchor = false) :
    a.range.start = a.absolute ∧ a.range.stop.line = page.bottom o := by
  rw [range_eq, List.getLastD_eq_getLast?, isLast, Option.getD_some, Page.bottom, isAnchor]
  cases o with
  | anchor => cases notAnchor
  | block => exact ⟨rfl, rfl⟩
  | token => exact ⟨rfl, rfl⟩

/-- A document ends below all its tokens, or with a collection that holds no scalar. -/
private theorem range_cases {slot : Slot} {root : Node} {S T : Schema} {last q b : Position} {pieces : List Piece}
    (h : Reads page (.root slot root) S last pieces (a.parts, q) T) (isAnchor : a.absolute = page.anchor)
    (order : InOrder b root.scalars) :
    a.range.start = a.absolute ∧
      ((∀ t ∈ a.outline.flatten, a.lineOf t ≤ a.range.stop.line) ∨
        ∃ before e, (before ++ [e]).Sublist root.closings ∧ e.isScalar = false ∧ a.range.stop.line = e.stop.line ∧
          ∀ r ∈ scalarsOf pieces, ⟨true, r.stop⟩ ∈ before) := by
  cases pieces with
  | nil =>
    have noParts := h.preorderAll_eq
    rw [List.flatMap_nil] at noParts
    refine ⟨by rw [range_eq, noParts]; rfl, .inl fun t ht => ?_⟩
    rw [flatten_outline, noParts] at ht
    cases ht
  | cons piece rest =>
    obtain ⟨o, isLast, notAnchor, reach⟩ := h.exists_getLast? order (List.cons_ne_nil _ _)
    obtain ⟨start, stop⟩ := range_of_getLast? isAnchor isLast notAnchor
    rw [stop]
    refine ⟨start, reach.imp (fun below t ht => below _ (lineOf_mem_linesOf isAnchor ht)) ?_⟩
    rintro ⟨before, e, closings, rest⟩
    exact ⟨before, e, closings.trans root.innerClosings_sublist, rest⟩

end Anchor

/-- The document of a block reaches over a line on which no entry of its file starts.  Then what is on that line is
looked up inside of an entry that reaches over it. -/
private theorem Session.exists_lineInfo_eq_inside {s : Session} {b : Block} {key : String} {n : Int}
    (isKey : b.anchor.key = some key) (filled : key ≠ "") (indexed : b.index ⊆ s.index)
    (above : b.anchor.range.start.line ≤ n) (below : n ≤ b.anchor.range.stop.line)
    (noStart : ∀ e ∈ s.index, e.uri = b.uri → e.range.start.line ≠ n) :
    ∃ entry, covering? (s.index.filter (·.uri == b.uri)) n = some entry ∧ entry.2.start.line ≤ n ∧
      n ≤ entry.2.stop.line ∧ s.lineInfo b.uri n = s.inside n entry := by
  have own : _ ∈ s.index.filter (·.uri == b.uri) :=
    List.mem_filter.2 ⟨indexed (Block.mem_index isKey filled), beq_self_eq_true b.uri⟩
  obtain ⟨entry, found, covers⟩ := exists_covering? own above below
  refine ⟨entry, found, covers.1, covers.2, ?_⟩
  have noneStarts : (s.index.filter (·.uri == b.uri)).find? (·.range.start.line == n) = none := by
    rw [List.find?_eq_none]
    intro e he starts
    obtain ⟨he, onFile⟩ := List.mem_filter.1 he
    exact noStart e he (beq_iff_eq.1 onFile) (beq_iff_eq.1 starts)
  rw [lineInfo, noneStarts, found]

/-- A document is read whose scalars stand in the text one after the other, from the start of its root on.  Then its
range starts with its root, and no token is above that.  A token can be below the end of the range only if the range
ends with a collection that holds no scalar; so if no such collection ends above a scalar that is read before it, the
range spans all tokens.  Wherever the range spans a token, the scan of the index finds an entry that reaches over the
line of the token, if none starts there. -/
theorem range_spans_tokens {file : SourceFile} {kinds : List (String × Slot)} {state next : FileReading}
    {document : Yaml.Document} {root : Node} {value : Value} {S T : Schema} {manifest : Manifest}
    (read : (readDocument file kinds state document).runFrom S = (.ok (some manifest, next), T))
    (isRoot : Yaml.valueOf file.text.toList document.root = .ok (root, value))
    (order : InOrder root.start.position root.scalars) :
    manifest.anchor.range.start = root.start.position ∧
    (∀ t ∈ manifest.anchor.outline.flatten, manifest.anchor.range.start.line ≤ manifest.anchor.lineOf t) ∧
    (∀ t ∈ manifest.anchor.outline.flatten, manifest.anchor.range.stop.line < manifest.anchor.lineOf t →
      ∃ e ∈ root.closings, e.isScalar = false ∧ manifest.anchor.range.stop.line = e.stop.line) ∧
    (root.ClosesInOrder →
      ∀ t ∈ manifest.anchor.outline.flatten, manifest.anchor.lineOf t ≤ manifest.anchor.range.stop.line) ∧
    ∀ t ∈ manifest.anchor.outline.flatten, manifest.anchor.lineOf t ≤ manifest.anchor.range.stop.line →
      ∀ (s : Session) (b : Block), b.anchor = manifest.anchor → b.index ⊆ s.index →
        (∀ e ∈ s.index, e.uri = b.uri → e.range.start.line ≠ manifest.anchor.lineOf t) →
        ∃ entry, Session.covering? (s.index.filter (·.uri == b.uri)) (manifest.anchor.lineOf t) = some entry ∧
          entry.2.start.line ≤ manifest.anchor.lineOf t ∧ manifest.anchor.lineOf t ≤ entry.2.stop.line ∧
          s.lineInfo b.uri (manifest.anchor.lineOf t) = s.inside (manifest.anchor.lineOf t) entry := by
  obtain ⟨root', _, page, slot, pieces, isRoot', isPage, anchor, reads⟩ := exists_reads_of_readDocument read
  obtain ⟨rfl, -⟩ := Prod.mk.inj (Except.ok.inj (isRoot.symm.trans isRoot'))
  have isAnchor : manifest.anchor.absolute = root.start.position := by rw [anchor, isPage]
  obtain ⟨start, reach⟩ := Anchor.range_cases reads anchor order
  have sources : (scalarsOf pieces).map ScalarReading.source = root.scalars := reads.map_source_scalarsOf
  have onScalar : ∀ t ∈ manifest.anchor.outline.flatten, ∃ r ∈ scalarsOf pieces,
      r.start.line ≤ manifest.anchor.lineOf t ∧ manifest.anchor.lineOf t ≤ r.stop.line := fun t ht =>
    exists_scalar_of_line reads.forall_made (reads.line_le order)
      (reads.flattenAll_eq ▸ Anchor.lineOf_mem_linesOf anchor ht)
  have above : ∀ t ∈ manifest.anchor.outline.flatten,
      manifest.anchor.range.start.line ≤ manifest.anchor.lineOf t := by
    intro t ht
    obtain ⟨r, hr, above, _⟩ := onScalar t ht
    rw [start, isAnchor]
    exact Int.le_trans (order.le_start r.source (sources ▸ List.mem_map_of_mem hr)) above
  refine ⟨start.trans isAnchor, above, ?_, ?_, ?_⟩
  · intro t ht under
    rcases reach with spans | ⟨before, e, closings, hollow, stop, _⟩
    · exact absurd (spans t ht) (Int.not_le.2 under)
    · exact ⟨e, closings.subset (List.mem_concat_self ..), hollow, stop⟩
  · intro closes t ht
    rcases reach with spans | ⟨before, e, closings, hollow, stop, scalars⟩
    · exact spans t ht
    · obtain ⟨r, hr, _, below⟩ := onScalar t ht
      have ends : r.stop.line ≤ e.stop.line :=
        (List.pairwise_append.1 (closes.sublist closings)).2.2 _ (scalars r hr) e (List.mem_singleton_self e) rfl hollow
      omega
  · intro t ht within s b isBlock indexed noStart
    rcases readDocument_eq_ok read with ⟨⟨⟩, _⟩ | ⟨_, _, _, _, ⟨⟩, _, run, _⟩
    obtain ⟨_, _, name, _, isKey⟩ := readEntries_made run
    rw [← isBlock] at isKey above ht within noStart ⊢
    exact Session.exists_lineInfo_eq_inside isKey (anchorKey_ne_empty _ _ _) indexed (above t ht) within noStart

/-- The lines of the first document of a file: its range, the lines of its tokens, and the index entries of a block with
its outline. -/
private def knownLines (source : String) : Option (Range × List Int × List IndexEntry) :=
  ((knownReading source).1.toOption.bind (·.1)).map fun manifest =>
    (manifest.anchor.range, manifest.anchor.outline.flatten.map manifest.anchor.lineOf,
      Block.index ⟨"f", "v", [], [], manifest.anchor⟩)

/-- A test with a scalar on several lines and an empty mapping as its last value. -/
private def spread : String := "kind: FunctionTest\nspec:\n  a: |\n    x\n    y\n  inputs: \x7b\x7d\n"

/-- The last line of the scalar has the number 4, and no entry starts there. -/
theorem range_spans_tokens_spread :
    ∃ manifest next T, knownReading spread = (.ok (some manifest, next), T) ∧
      (∀ t ∈ manifest.anchor.outline.flatten, 0 ≤ manifest.anchor.lineOf t ∧ manifest.anchor.lineOf t ≤ 5) ∧
      ∀ s : Session, s.index = Block.index ⟨"f", "v", [], [], manifest.anchor⟩ →
        ∃ entry, entry.2.start.line ≤ 4 ∧ 4 ≤ entry.2.stop.line ∧ s.lineInfo "f" 4 = s.inside 4 entry := by
  have isLines : knownLines spread = some (⟨⟨0, 0⟩, ⟨5, 12⟩⟩, [0, 0, 1, 2, 2, 3, 4, 5],
      [⟨"f", "FunctionTest:0", ⟨⟨0, 0⟩, ⟨5, 12⟩⟩, some "v"⟩]) := by
    decide +kernel
  have ordered : (Yaml.valueOf spread.toList (firstDocument spread).root).toOption.any (fun found =>
      decide (InOrder found.1.start.position found.1.scalars ∧ found.1.ClosesInOrder)) = true := by
    decide +kernel
  obtain ⟨⟨root, value⟩, isRoot, ordered⟩ := (Option.any_eq_true ..).1 ordered
  obtain ⟨order, closes⟩ := of_decide_eq_true ordered
  obtain ⟨manifest, isManifest, isLines⟩ := Option.map_eq_some_iff.1 isLines
  obtain ⟨next, T, read⟩ := exists_read_of_manifest isManifest
  obtain ⟨_, above, _, spans, looked⟩ := range_spans_tokens read (except_eq_ok_of_toOption isRoot) order
  simp only [Prod.mk.injEq] at isLines
  obtain ⟨isRange, isTokens, isIndex⟩ := isLines
  rw [isRange] at above spans looked
  refine ⟨manifest, next, T, read, fun t ht => ⟨above t ht, spans closes t ht⟩, ?_⟩
  intro s indexed
  have onLine : 4 ∈ manifest.anchor.outline.flatten.map manifest.anchor.lineOf := by
    rw [isTokens]
    decide
  obtain ⟨t, ht, isLine⟩ := List.mem_map.1 onLine
  have noStart : ∀ e ∈ s.index, e.uri = "f" → e.range.start.line ≠ manifest.anchor.lineOf t := by
    rw [indexed, isIndex, isLine]
    decide
  obtain ⟨entry, _, covers⟩ := looked t ht (spans closes t ht) s ⟨"f", "v", [], [], manifest.anchor⟩ rfl
    (indexed ▸ List.Subset.refl _) noStart
  exact ⟨entry, isLine ▸ covers⟩

/-- A test of which the last value is an alias of an empty mapping on a line above. -/
private def aliased : String := "kind: FunctionTest\nspec:\n  currentResource: &e \x7b\x7d\n  inputs: *e\n"

/-- The range of a document can end above its last token, and then nothing reaches over the line of that token. -/
theorem not_range_spans_aliased :
    (firstScalars aliased).any (InOrder .origin) = true ∧
    knownLines aliased = some (⟨⟨0, 0⟩, ⟨2, 24⟩⟩, [0, 0, 1, 2, 3],
      [⟨"f", "FunctionTest:0", ⟨⟨0, 0⟩, ⟨2, 24⟩⟩, some "v"⟩]) ∧
    Session.covering? [⟨"f", "FunctionTest:0", ⟨⟨0, 0⟩, ⟨2, 24⟩⟩, some "v"⟩] 3 = none := by
  decide +kernel

end ManifestLens
