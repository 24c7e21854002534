import ManifestLens.Proofs.Manifest.Independence

/-!
# Reading from another position

The position that is handed to a reading decides where its tokens are, but not what they are.  From any other position
the same input is read with the same entries, it is shown in the same way and leaves the same schema
(`Reads.elsewhere`).
-/

namespace ManifestLens

open Outline (labels)
open Yaml (Mark Node)

variable {found : Outlined} {remark : Option Remark}

/-! ### Expressions -/

namespace Expression

/-- What a token is, wherever it stands. -/
def Token.core (t : Token) : List Char × TokenKind :=
  (t.text, t.kind)

private theorem map_core_lineTokens (found : List Lexeme) (line line' base base' column column' : Int)
    (previous previous' : Position) :
    (lineTokens line base previous column found).map Token.core =
      (lineTokens line' base' previous' column' found).map Token.core := by
  induction found generalizing previous previous' column column' with
  | nil => rfl
  | cons lexeme rest ih =>
    cases lexeme with
    | blank text => exact ih ..
    | word text => exact congrArg ((text, TokenKind.unset) :: ·) (ih ..)
    | operator text => exact congrArg ((text, TokenKind.operator) :: ·) (ih ..)
    | quoted quote text =>
      simp only [lineTokens, List.map_append, List.map_cons, List.cons_append]
      rw [ih (column + 2 + text.length) (column' + 2 + text.length) ⟨line, column + 1 + text.length⟩
        ⟨line', column' + 1 + text.length⟩]
      cases text.isEmpty <;> rfl

private theorem isMark?_eq {t u : Option Token} (same : t.map Token.core = u.map Token.core) (text : List Char) :
    isMark? t text = isMark? u text := by
  cases t <;> cases u <;> simp_all [isMark?, Token.isMark, Token.core]

/-- The kinds by which tokens are shown depend on what they are only. -/
private theorem map_kind_classify {tokens tokens' : List Token} (same : tokens.map Token.core = tokens'.map Token.core)
    (base base' : Int) (o : Openings) :
    (classify base o tokens).map (·.kind) = (classify base' o tokens').map (·.kind) := by
  induction tokens generalizing tokens' o with
  | nil =>
    cases tokens' with
    | nil => rfl
    | cons t' rest' => cases same
  | cons t rest ih =>
    cases tokens' with
    | nil => cases same
    | cons t' rest' =>
      obtain ⟨here, there⟩ := List.cons.inj same
      obtain ⟨text, kind⟩ := Prod.mk.inj here
      have marks : ∀ mark, t.isMark mark = t'.isMark mark := by
        intro mark
        rw [Token.isMark, Token.isMark, text, kind]
      have next := isMark?_eq (t := rest.head?) (u := rest'.head?) (by rw [← List.head?_map, there, List.head?_map])
      have afterNext := isMark?_eq (t := rest.tail.head?) (u := rest'.tail.head?)
        (by rw [← List.head?_map, List.map_tail, there, ← List.map_tail, List.head?_map])
      have after : o.after t = o.after t' := by simp only [Openings.after, marks]
      have word : wordKind o t rest.head? rest.tail.head? = wordKind o t' rest'.head? rest'.tail.head? := by
        simp only [wordKind, next, afterNext, text]
      rw [classify, classify, kind]
      split
      · rw [List.map_cons, List.map_cons, ih there, after]
        rfl
      · rw [List.map_cons, List.map_cons, ih there]
        exact congrArg (· :: _) word

/-- A line that is an expression at one place is one at any place, with tokens of the same kinds. -/
private theorem exists_highlight {text : List Char} {origin line offset base : Int} {tokens : List ManifestLens.Token}
    (h : highlight [text] origin line offset base = .ok tokens) (origin' line' offset' base' : Int) :
    ∃ tokens', highlight [text] origin' line' offset' base' = .ok tokens' ∧
      tokens'.map (·.kind) = tokens.map (·.kind) := by
  simp only [highlight, lex, tokensFrom] at h ⊢
  split at h
  · next blank =>
    cases h
    exact ⟨_, if_pos blank ▸ rfl, rfl⟩
  · next written =>
    rw [if_neg written]
    split at h
    · cases h
    · next found isFound =>
      cases h
      refine ⟨_, rfl, map_kind_classify ?_ _ _ _⟩
      simp only [List.map_append]
      exact congrArg₂ _ (map_core_lineTokens found ..) rfl

end Expression

/-! ### Scalars -/

namespace Page

variable {page : Page} {start stop : Mark} {last : Position}

private theorem exists_lineExpression {text : String} {tokens : List Token}
    (h : page.lineExpression text start last = .ok tokens) (last' : Position) :
    ∃ tokens', page.lineExpression text start last' = .ok tokens' ∧ tokens'.map (·.kind) = tokens.map (·.kind) := by
  rw [lineExpression] at h
  obtain ⟨line, isLine, h⟩ := except_bind_eq_ok_iff.1 h
  split at h
  · cases h
  · next n isSign =>
    dsimp only at h
    obtain ⟨tokens', made, kinds⟩ := Expression.exists_highlight (highlighted_eq_ok h) (last'.line - page.anchor.line)
      (start.line - last'.line)
      (if (start.line : Int) > last'.line then (start.column : Int) + n else start.column + n - last'.character)
      ((start.column : Int) + n -
        if (start.line : Int) > last'.line then (start.column : Int) + n else start.column + n - last'.character)
    refine ⟨tokens', ?_, kinds⟩
    rw [lineExpression]
    refine except_bind_eq_ok_iff.2 ⟨line, isLine, ?_⟩
    rw [isSign]
    exact congrArg highlighted made

private theorem exists_blockExpression {modifiers : Option (List Modifier)} {tokens : List Token}
    (h : page.blockExpression start stop last modifiers remark = .ok tokens) (last' : Position) :
    ∃ tokens', page.blockExpression start stop last' modifiers remark = .ok tokens' ∧
      tokens'.map (·.kind) = tokens.map (·.kind) := by
  rw [blockExpression] at h
  obtain ⟨line, isLine, h⟩ := except_bind_eq_ok_iff.1 h
  obtain ⟨rest, isRest, h⟩ := except_bind_eq_ok_iff.1 h
  cases h
  rw [blockExpression]
  exact ⟨_, except_bind_eq_ok_iff.2 ⟨line, isLine, except_bind_eq_ok_iff.2 ⟨rest, isRest, rfl⟩⟩, rfl⟩

private theorem exists_furtherTokens {first : Token} {line count : Nat} {tokens : List Token}
    (h : page.furtherTokens first line count = .ok tokens) (first' : Token) (kind : first'.kind = first.kind) :
    ∃ tokens', page.furtherTokens first' line count = .ok tokens' ∧ tokens'.map (·.kind) = tokens.map (·.kind) := by
  obtain ⟨upto, rfl⟩ := furtherTokens_eq_ok_iff.1 h
  refine ⟨_, furtherTokens_eq_ok_iff.2 ⟨upto, rfl⟩, ?_⟩
  rw [List.map_map, List.map_map]
  exact List.map_congr_left fun _ _ => kind

private theorem exists_expression {text : String} {modifiers : Option (List Modifier)}
    (h : page.expression text start stop last modifiers remark = .ok found) (last' : Position) :
    ∃ found', page.expression text start stop last' modifiers remark = .ok found' ∧
      labels found'.1 = labels found.1 := by
  obtain ⟨tokens, t, made, isLast, rfl⟩ := expression_eq_ok h
  have elsewhere : ∃ tokens', (if start.line = stop.line then page.lineExpression text start last'
      else page.blockExpression start stop last' modifiers remark) = .ok tokens' ∧
      tokens'.map (·.kind) = tokens.map (·.kind) := by
    by_cases oneLine : start.line = stop.line
    · rw [if_pos oneLine] at made ⊢
      exact exists_lineExpression made last'
    · rw [if_neg oneLine] at made ⊢
      exact exists_blockExpression made last'
  obtain ⟨tokens', made', kinds⟩ := elsewhere
  -- there is a last token from the other position too, since there are as many
  have some : tokens' ≠ [] := by
    rintro rfl
    rw [List.map_eq_nil_iff.1 kinds.symm] at isLast
    cases isLast
  refine ⟨_, expression_of_tokens made' some, ?_⟩
  rw [Outline.labels_block, Outline.labels_block, Outline.labels_map_token, Outline.labels_map_token]
  have kinds := congrArg (List.map Option.some) kinds
  rw [List.map_map, List.map_map] at kinds
  exact congrArg (none :: ·) kinds

private theorem exists_scalar {entry : Entry} {text : String}
    (h : page.scalar entry text start stop last remark = .ok found) (last' : Position) :
    ∃ found', page.scalar entry text start stop last' remark = .ok found' ∧ labels found'.1 = labels found.1 := by
  obtain ⟨first, others, ⟨length, localKey, indexKey, isLength, isLocal, isIndex, rfl⟩, madeOthers, rfl⟩ :=
    scalar_eq_ok h
  obtain ⟨others', madeOthers', kinds⟩ := exists_furtherTokens madeOthers
    (page.firstToken entry start last' length localKey indexKey remark) rfl
  refine ⟨_, scalar_of_tokens isLength isLocal isIndex madeOthers', ?_⟩
  split
  · rfl
  · rw [Outline.labels_block, Outline.labels_block, Outline.labels_map_token, Outline.labels_map_token, List.map_cons,
      List.map_cons]
    have kinds := congrArg (List.map some) kinds
    rw [List.map_map, List.map_map] at kinds
    exact congrArg (none :: some entry.kind :: ·) kinds

end Page

namespace ScalarReading

variable {r : ScalarReading}

/-- The scalar as it is read with another position. -/
def handed (r : ScalarReading) (last : Position) : ScalarReading :=
  { r with last := last }

theorem exists_outlined_handed (made : r.outlined = .ok found) (last : Position) :
    ∃ found', (r.handed last).outlined = .ok found' ∧ labels found'.1 = labels found.1 := by
  have isExpression : (r.handed last).isExpression = r.isExpression := rfl
  rw [outlined] at made ⊢
  rw [isExpression]
  split at made
  · next expression =>
    rw [if_pos expression]
    exact Page.exists_expression made last
  · next plain =>
    rw [if_neg plain]
    exact Page.exists_scalar made last

/-- A key is shown in the same way, whatever stands below it. -/
private theorem labels_below_eq {found' : Outlined} {last : Position} (made : r.outlined = .ok found)
    (made' : (r.handed last).outlined = .ok found') (same : labels found'.1 = labels found.1)
    {children children' : List Outline} (below : labels children' = labels children) :
    labels (Page.below found'.1 children') = labels (Page.below found.1 children) := by
  obtain ⟨o, one⟩ := outlined_eq_singleton made
  obtain ⟨o', one'⟩ := outlined_eq_singleton made'
  rw [one, one'] at same ⊢
  obtain ⟨rest, here⟩ := Outline.exists_labels_singleton o
  obtain ⟨rest', here'⟩ := Outline.exists_labels_singleton o'
  rw [here, here'] at same
  rw [Outline.labels_below, Outline.labels_below, (List.cons.inj same).1, below]

end ScalarReading

/-! ### Readings -/

/-- What the scalars of pieces are read with. -/
def readWith (pieces : List Piece) : List (Slot × Entry) :=
  (scalarsOf pieces).map fun r => (r.slot, r.entry)

private theorem readWith_append (a b : List Piece) : readWith (a ++ b) = readWith a ++ readWith b := by
  rw [readWith, scalarsOf, List.filterMap_append, List.map_append]
  rfl

/-- From another position the same scalars are read with the same entries, the outlines are shown in the same way, and
the same schema is left. -/
theorem Reads.elsewhere {page : Page} {input : Input} {S T : Schema} {last : Position} {pieces : List Piece}
    (h : Reads page input S last pieces found T) (last' : Position) :
    ∃ pieces' found', Reads page input S last' pieces' found' T ∧ labels found'.1 = labels found.1 ∧
      readWith pieces' = readWith pieces := by
  induction h generalizing last' with
  | @scalar S slot tag text start stop last r found read made =>
    obtain ⟨found', made', same⟩ := ScalarReading.exists_outlined_handed made last'
    have read' : r.handed last' = ⟨page, slot, (S.entry slot).ofTag tag, false, text, start, stop, last', none⟩ := by
      rw [read]
      rfl
    have reads := Reads.scalar read' made'
    exact ⟨_, found', reads, same, rfl⟩
  | sequence placed items ih =>
    obtain ⟨pieces', found', items', same⟩ := ih last'
    exact ⟨pieces', found', .sequence placed items', same⟩
  | mapping listed pairs ih =>
    obtain ⟨pieces', found', pairs', same⟩ := ih last'
    exact ⟨pieces', found', .mapping listed pairs', same⟩
  | bare bare root ih =>
    obtain ⟨pieces', found', root', same⟩ := ih last'
    exact ⟨pieces', found', .bare bare root', same⟩
  | enclosed encloses localRule indexRule root ih =>
    obtain ⟨pieces', ⟨outlines', next'⟩, root', same, entries⟩ := ih last'
    refine ⟨_, _, .enclosed encloses localRule indexRule root', ?_, entries⟩
    rw [Outline.labels_block, Outline.labels_block]
    exact congrArg _ same
  | noItems => exact ⟨[], ([], last'), .noItems, rfl, rfl⟩
  | item node items ihn ihi =>
    obtain ⟨pieces', ⟨first', mid'⟩, node', same, entries⟩ := ihn last'
    obtain ⟨others', ⟨rest', stop'⟩, items', same', entries'⟩ := ihi mid'
    refine ⟨_, _, .item node' items', ?_, ?_⟩
    · rw [Outline.labels_append, Outline.labels_append, same, same']
    · rw [readWith_append, readWith_append, entries, entries']
  | noPairs => exact ⟨[], ([], last'), .noPairs, rfl, rfl⟩
  | @pair S T U V W listing seen tag key start stop value members keySlot valueSlot r last mid next final keyOutlines
      children rest pieces others placed read made valuePlaced node pairs ihn ihp =>
    obtain ⟨⟨keyOutlines', mid'⟩, made', sameKey⟩ := ScalarReading.exists_outlined_handed made last'
    obtain ⟨pieces', ⟨children', next'⟩, node', same, entries⟩ := ihn mid'
    obtain ⟨others', ⟨rest', final'⟩, pairs', same', entries'⟩ := ihp next'
    have read' : r.handed last' = ⟨page, keySlot, ((T.settle keySlot .keyword).entry keySlot).ofTag tag, true, key,
        start, stop, last', listing.remark seen key⟩ := by
      rw [read]
      rfl
    have reads := Reads.pair placed read' made' valuePlaced node' pairs'
    refine ⟨_, _, reads, ?_, ?_⟩
    · rw [Outline.labels_append, Outline.labels_append, same']
      exact congrArg (· ++ _) (ScalarReading.labels_below_eq made made' sameKey same)
    · show (r.slot, r.entry) :: readWith (pieces' ++ others') = (r.slot, r.entry) :: readWith (pieces ++ others)
      rw [readWith_append, readWith_append, entries, entries']

end ManifestLens
