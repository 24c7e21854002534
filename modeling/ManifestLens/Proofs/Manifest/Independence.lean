import ManifestLens.Proofs.Manifest.Parallel

/-!
# What the outline of a document depends on

Documents are read one after the other with one schema, in which the kinds of entries are settled by what was read
before.  A document has the same outline as at the start if each of its scalars is read at the start with the kind that
its entry was given since then.  Otherwise, if its keys stand on one line, the outlines part ways (`Reads.partWays`).
-/

namespace ManifestLens

open Yaml (Mark Node)

variable {S T U : Schema} {slot : Slot}

/-! ### Outlines that part ways -/

/-- Two lists agree up to some place, and have different members there. -/
def PartWays {α : Type} (a b : List α) : Prop :=
  ∃ common x y a' b', x ≠ y ∧ a = common ++ x :: a' ∧ b = common ++ y :: b'

namespace PartWays

variable {α : Type} {a b c d : List α}

theorem ne (h : PartWays a b) : a ≠ b := by
  obtain ⟨common, x, y, a', b', ne, rfl, rfl⟩ := h
  intro eq
  exact ne (List.cons.inj (List.append_cancel_left eq)).1

private theorem head {x y : α} (ne : x ≠ y) : PartWays (x :: a) (y :: b) :=
  ⟨[], x, y, a, b, ne, rfl, rfl⟩

private theorem append_left (c : List α) (h : PartWays a b) : PartWays (c ++ a) (c ++ b) := by
  obtain ⟨common, x, y, a', b', ne, rfl, rfl⟩ := h
  exact ⟨c ++ common, x, y, a', b', ne, (List.append_assoc ..).symm, (List.append_assoc ..).symm⟩

private theorem append_right (h : PartWays a b) : PartWays (a ++ c) (b ++ d) := by
  obtain ⟨common, x, y, a', b', ne, rfl, rfl⟩ := h
  exact ⟨common, x, y, a' ++ c, b' ++ d, ne, List.append_assoc .., List.append_assoc ..⟩

private theorem cons {x y : α} (h : x = y → PartWays a b) : PartWays (x :: a) (y :: b) := by
  by_cases eq : x = y
  · subst eq
    exact (h rfl).append_left [x]
  · exact .head eq

private theorem symm (h : PartWays a b) : PartWays b a := by
  obtain ⟨common, x, y, a', b', ne, ha, hb⟩ := h
  exact ⟨common, y, x, b', a', ne.symm, hb, ha⟩

end PartWays

namespace Outline

/-- How an outline is shown: a token by its kind. -/
def shown : Outline → Option TokenKind
  | .token t _ => some t.kind
  | _ => none

/-- How the parts of outlines are shown, in reading order. -/
def labels (os : List Outline) : List (Option TokenKind) :=
  (preorderAll os).map shown

theorem labels_append (a b : List Outline) : labels (a ++ b) = labels a ++ labels b := by
  rw [labels, preorderAll_append, List.map_append]
  rfl

theorem labels_block (localKey indexKey : Option String) (range : Range) (children : List Outline) :
    labels [.block localKey indexKey range (some children)] = none :: labels children := by
  rw [labels, preorderAll, preorder, preorderAll, List.append_nil]
  rfl

theorem labels_below (o : Outline) (children : List Outline) :
    labels (Page.below [o] children) = o.shown :: labels children := by
  cases o <;> exact congrArg (List.map shown) (List.append_nil (_ :: preorderAll children))

theorem exists_labels_singleton (o : Outline) : ∃ rest, labels [o] = o.shown :: rest := by
  cases o with
  | anchor _ _ _ children => cases children <;> exact ⟨_, rfl⟩
  | block _ _ _ children => cases children <;> exact ⟨_, rfl⟩
  | token _ children => cases children <;> exact ⟨_, rfl⟩

theorem labels_map_token (tokens : List Token) :
    labels (tokens.map fun t => .token t none) = tokens.map fun t => some t.kind := by
  rw [labels, preorderAll_map_token, List.map_map]
  rfl

end Outline

open Outline (labels)

/-! ### Scalars of different kinds -/

namespace ScalarReading

variable {r r' : ScalarReading} {found found' : Outlined}

private theorem isExpression_ne (h : r.isExpression = true) (ne : r'.entry.kind ≠ r.entry.kind) :
    r'.isExpression = false := by
  rw [isExpression, Bool.and_eq_true_iff, beq_iff_eq] at h
  rw [isExpression, Bool.and_eq_false_iff, beq_eq_false_iff_ne]
  exact .inl (h.1 ▸ ne)

/-- Read with different kinds, a scalar on one line is shown differently. -/
private theorem shown_ne {o o' : Outline} (start : r'.start = r.start) (stop : r'.stop = r.stop)
    (line : r.stop.line - r.start.line - 1 = 0) (ne : r'.entry.kind ≠ r.entry.kind)
    (made : r.outlined = .ok found) (made' : r'.outlined = .ok found') (one : found.1 = [o]) (one' : found'.1 = [o']) :
    o.shown ≠ o'.shown := by
  have line' : r'.stop.line - r'.start.line - 1 = 0 := by rw [start, stop, line]
  rcases outlined_cases made with ⟨he, _, form, _⟩ | ⟨_, _, _, _, first, _, _, isFirst, form⟩ <;>
    rcases outlined_cases made' with ⟨he', _, form', _⟩ | ⟨_, _, _, _, first', _, _, isFirst', form'⟩
  · rw [isExpression_ne he ne] at he'
    cases he'
  · rw [if_pos line', one'] at form'
    rw [one] at form
    cases form
    cases form'
    exact (Option.some_ne_none _).symm
  · rw [if_pos line, one] at form
    rw [one'] at form'
    cases form
    cases form'
    exact Option.some_ne_none _
  · rw [if_pos line, one] at form
    rw [if_pos line', one'] at form'
    cases form
    cases form'
    have kind : first.kind = r.entry.kind := by rw [isFirst]; rfl
    have kind' : first'.kind = r'.entry.kind := by rw [isFirst']; rfl
    intro same
    exact ne (kind' ▸ kind ▸ (Option.some.inj same).symm)

/-- An expression on several lines begins with an operator. -/
private theorem partWays_expression (start : r'.start = r.start) (stop : r'.stop = r.stop)
    (several : r.stop.line - r.start.line - 1 ≠ 0) (he : r.isExpression = true) (he' : r'.isExpression = false)
    (settled : r'.entry.kind.IsSettled) (made : r.outlined = .ok found) (made' : r'.outlined = .ok found') :
    PartWays (labels found.1) (labels found'.1) := by
  have several' : r'.stop.line - r'.start.line - 1 ≠ 0 := by rwa [start, stop]
  rcases outlined_cases made with ⟨_, tokens, form, header⟩ | ⟨plain, _⟩
  · rcases outlined_cases made' with ⟨expression, _⟩ | ⟨_, _, _, _, first, others, _, isFirst, form'⟩
    · rw [he'] at expression
      cases expression
    · obtain ⟨t, rest, rfl, operator⟩ := header (by omega)
      rw [if_neg several'] at form'
      rw [form, form', Outline.labels_block, Outline.labels_block, Outline.labels_map_token, Outline.labels_map_token]
      have kind : first.kind = r'.entry.kind := by rw [isFirst]; rfl
      refine .cons fun _ => .head fun same => ?_
      have same : t.kind = first.kind := Option.some.inj same
      rw [operator, kind] at same
      exact absurd (same ▸ settled) (by decide)
  · rw [he] at plain
    cases plain

private theorem partWays_plain (start : r'.start = r.start) (stop : r'.stop = r.stop)
    (several : r.stop.line - r.start.line - 1 ≠ 0) (he : r.isExpression = false) (he' : r'.isExpression = false)
    (ne : r'.entry.kind ≠ r.entry.kind) (made : r.outlined = .ok found) (made' : r'.outlined = .ok found') :
    PartWays (labels found.1) (labels found'.1) := by
  have several' : r'.stop.line - r'.start.line - 1 ≠ 0 := by rwa [start, stop]
  rcases outlined_cases made with ⟨expression, _⟩ | ⟨_, _, _, _, first, others, _, isFirst, form⟩
  · rw [he] at expression
    cases expression
  · rcases outlined_cases made' with ⟨expression, _⟩ | ⟨_, _, _, _, first', others', _, isFirst', form'⟩
    · rw [he'] at expression
      cases expression
    · rw [if_neg several] at form
      rw [if_neg several'] at form'
      rw [form, form', Outline.labels_block, Outline.labels_block, Outline.labels_map_token, Outline.labels_map_token]
      have kind : first.kind = r.entry.kind := by rw [isFirst]; rfl
      have kind' : first'.kind = r'.entry.kind := by rw [isFirst']; rfl
      exact .cons fun _ => .head fun same => ne (kind' ▸ kind ▸ (Option.some.inj same).symm)

/-- Read with different kinds, a scalar is shown differently. -/
theorem partWays (start : r'.start = r.start) (stop : r'.stop = r.stop) (ne : r'.entry.kind ≠ r.entry.kind)
    (settled : r.entry.kind.IsSettled) (settled' : r'.entry.kind.IsSettled)
    (made : r.outlined = .ok found) (made' : r'.outlined = .ok found') :
    PartWays (labels found.1) (labels found'.1) := by
  by_cases line : r.stop.line - r.start.line - 1 = 0
  · obtain ⟨o, one⟩ := outlined_eq_singleton made
    obtain ⟨o', one'⟩ := outlined_eq_singleton made'
    obtain ⟨rest, labels₁⟩ := Outline.exists_labels_singleton o
    obtain ⟨rest', labels₂⟩ := Outline.exists_labels_singleton o'
    rw [one, one', labels₁, labels₂]
    exact .head (shown_ne start stop line ne made made' one one')
  · cases he : r.isExpression with
    | true => exact partWays_expression start stop line he (isExpression_ne he ne) settled' made made'
    | false =>
      cases he' : r'.isExpression with
      | true => exact (partWays_expression start.symm stop.symm (by rwa [start, stop]) he' he settled made' made).symm
      | false => exact partWays_plain start stop line he he' ne made made'

end ScalarReading

/-! ### Readings that part ways -/

namespace Entry.Follows

variable {given : TokenKind} {e e' : Entry}

private theorem kind_of_disagree (h : e.Follows given e') {tag : String}
    (disagree : ¬ (given = .unset ∨ given = (e.ofTag tag).kind)) :
    (e.ofTag tag).kind.IsSettled ∧ (e'.ofTag tag).kind = given := by
  obtain ⟨set, ne⟩ := not_or.1 disagree
  obtain ⟨kind', unset | same⟩ := h.given set
  · refine ⟨(Entry.kind_ofTag e tag).resolve_right (absurd unset), ?_⟩
    rw [Entry.ofTag, if_neg (fun h => set (kind' ▸ beq_iff_eq.1 h)), kind']
  · -- the kind of the entry is the one that was given
    refine absurd ?_ ne
    rw [Entry.ofTag, if_neg (fun h => set (same ▸ beq_iff_eq.1 h)), same]

private theorem kind_of_disagree_keyword (h : e.Follows given e') {tag : String}
    (disagree : ¬ (given = .unset ∨ given = ((e.settled .keyword).ofTag tag).kind)) :
    ((e'.settled .keyword).ofTag tag).kind = given := by
  obtain ⟨set, ne⟩ := not_or.1 disagree
  obtain ⟨kind', _⟩ := h.given set
  have isSet : ¬(e'.kind == .unset) = true := fun h => set (kind' ▸ beq_iff_eq.1 h)
  rw [Entry.settled, if_neg isSet, Entry.ofTag, if_neg isSet, kind']

end Entry.Follows

namespace Past.Parallel

variable {past : Past} {F H : Schema} {s : Slot} {r r' : ScalarReading} {tag : String}

private theorem kinds_of_disagree (h : past.Parallel F H) (hs : s < F.size) (slot : r.slot = s)
    (entry : r.entry = (F.entry s).ofTag tag) (entry' : r'.entry = (H.entry (past.move s)).ofTag tag)
    (disagree : ¬ past.Agrees r) :
    r'.entry.kind ≠ r.entry.kind ∧ r.entry.kind.IsSettled ∧ r'.entry.kind.IsSettled := by
  rw [Past.Agrees, slot, entry] at disagree
  obtain ⟨settled, kind'⟩ := (h.entry s hs).kind_of_disagree disagree
  obtain ⟨set, ne⟩ := not_or.1 disagree
  rw [entry, entry', kind']
  exact ⟨ne, settled, (past.isSettled_given s set).2.2⟩

private theorem keyKinds_of_disagree (h : past.Parallel F H) (hs : s < F.size) (slot : r.slot = s)
    (entry : r.entry = ((F.settle s .keyword).entry s).ofTag tag)
    (entry' : r'.entry = ((H.settle (past.move s) .keyword).entry (past.move s)).ofTag tag)
    (disagree : ¬ past.Agrees r) : r'.entry.kind ≠ r.entry.kind := by
  rw [Schema.entry_settle _ hs, if_pos rfl] at entry
  rw [Schema.entry_settle _ (h.move_lt hs), if_pos rfl] at entry'
  rw [Past.Agrees, slot, entry] at disagree
  rw [entry, entry', (h.entry s hs).kind_of_disagree_keyword disagree]
  exact (not_or.1 disagree).2

end Past.Parallel

namespace Reads

variable {page : Page} {input : Input} {F H F' H' G' : Schema} {last : Position} {pieces pieces' : List Piece}
  {found found' : Outlined}

theorem unique (h : Reads page input F last pieces found F') (h' : Reads page input F last pieces' found' G') :
    found = found' ∧ F' = G' := by
  have same := h.runFrom_eq.symm.trans h'.runFrom_eq
  simpa only [Prod.mk.injEq, Except.ok.injEq] using same

/-- If a scalar is read with another kind than its entry was given in the past, the outlines that are read with the
past part ways with those that are read without it. -/
theorem partWays {past : Past} (h : Reads page input F last pieces found F') (par : past.Parallel F H)
    (sound : input.Sound past F) (lines : ∀ r ∈ scalarsOf pieces, r.isKey = true → r.start.line = r.stop.line)
    (disagree : ¬ ∀ r ∈ scalarsOf pieces, past.Agrees r)
    (h' : Reads page (input.moved past) H last pieces' found' H') : PartWays (labels found.1) (labels found'.1) := by
  induction h generalizing H pieces' found' H' with
  | @scalar S slot tag text start stop last r found read made =>
    have bad : ¬ past.Agrees r := fun agree => disagree (List.forall_mem_singleton.2 agree)
    rw [Input.moved] at h'
    cases h' with
    | @scalar _ _ _ _ _ _ _ r' _ read' made' =>
      obtain ⟨ne, settled, settled'⟩ :=
        par.kinds_of_disagree sound (by rw [read]) (by rw [read]) (congrArg ScalarReading.entry read') bad
      exact ScalarReading.partWays (by rw [read, read']) (by rw [read, read']) ne settled settled' made made'
  | sequence placed items ih =>
    rw [Input.moved] at h'
    cases h' with
    | sequence placed' items' =>
      obtain ⟨U, same, par, lt⟩ := par.itemSlot sound placed
      cases placed'.symm.trans same
      exact ih par lt lines disagree items'
  | mapping listed pairs ih =>
    rw [Input.moved] at h'
    cases h' with
    | mapping listed' pairs' =>
      cases listed'.symm.trans ((par.entry _ sound).listing_eq _ |>.trans listed)
      exact ih par ((par.sound _ sound).listing listed) lines disagree pairs'
  | bare bare root ih =>
    rw [Input.moved] at h'
    cases h' with
    | bare _ root' => exact ih par sound lines disagree root'
    | enclosed encloses' _ _ _ =>
      rw [(par.entry _ sound).encloses_eq, bare] at encloses'
      cases encloses'
  | enclosed encloses localRule indexRule root ih =>
    rw [Input.moved] at h'
    cases h' with
    | bare bare' _ =>
      rw [(par.entry _ sound).encloses_eq, encloses] at bare'
      cases bare'
    | enclosed _ localRule' indexRule' root' =>
      rw [Outline.labels_block, Outline.labels_block]
      exact .cons fun _ => ih par sound lines disagree root'
  | noItems => exact absurd (fun _ h => absurd h List.not_mem_nil) disagree
  | @item _ _ _ _ _ _ _ _ _ pieces others _ _ node items ihn ihi =>
    rw [Input.moved] at h'
    obtain ⟨lines₁, lines₂⟩ := forall_scalarsOf_append.1 lines
    cases h' with
    | item node' items' =>
      rw [Outline.labels_append, Outline.labels_append]
      -- either the outlines part in this item, or it is the same in both and they part later
      by_cases agree : ∀ r ∈ scalarsOf pieces, past.Agrees r
      · obtain ⟨_, H₁, same, par⟩ := node.follow par sound agree
        obtain ⟨⟨⟩, rfl⟩ := node'.unique same
        refine .append_left _ (ihi par (Nat.lt_of_lt_of_le sound node.grows.size) lines₂ ?_ items')
        exact fun agree' => disagree (forall_scalarsOf_append.2 ⟨agree, agree'⟩)
      · exact (ihn par sound lines₁ agree node').append_right
  | noPairs => exact absurd (fun _ h => absurd h List.not_mem_nil) disagree
  | @pair S T U V W listing seen tag key start stop value members keySlot valueSlot r last mid next final keyOutlines
      children rest pieces others placed read made valuePlaced node pairs ihn ihp =>
    rw [Input.moved] at h'
    obtain ⟨line, lines⟩ := List.forall_mem_cons.1 lines
    obtain ⟨lines₁, lines₂⟩ := forall_scalarsOf_append.1 lines
    obtain ⟨H₁, same, par, lt, named⟩ := par.keySlot sound placed
    obtain ⟨o, rfl⟩ := ScalarReading.outlined_eq_singleton made
    cases h' with
    | @pair _ _ _ _ _ _ _ _ _ _ _ _ _ _ _ r' _ _ _ _ _ _ _ _ _ placed' read' made' valuePlaced' node' pairs' =>
      cases placed'.symm.trans same
      obtain ⟨o', rfl⟩ := ScalarReading.outlined_eq_singleton made'
      rw [Outline.labels_append, Outline.labels_append, Outline.labels_below, Outline.labels_below]
      by_cases here : past.Agrees r
      · have par := par.keyword lt (by rw [read]) (by rw [read]) here
        obtain ⟨same, par⟩ := par.scalar (by rwa [Schema.size_settle]) read here
        cases read'.trans same.symm
        cases made'.symm.trans made
        obtain ⟨H₂, same, par, valueLt⟩ :=
          par.valueSlot sound (by rwa [ScalarReading.size_settle, Schema.size_settle]) named valuePlaced
        cases valuePlaced'.symm.trans same
        refine .cons fun _ => ?_
        by_cases agree : ∀ r ∈ scalarsOf pieces, past.Agrees r
        · obtain ⟨_, H₃, same, par⟩ := node.follow par valueLt agree
          obtain ⟨⟨⟩, rfl⟩ := node'.unique same
          refine .append_left _ (ihp par sound lines₂ ?_ pairs')
          exact fun agree' => disagree (List.forall_mem_cons.2 ⟨here, forall_scalarsOf_append.2 ⟨agree, agree'⟩⟩)
        · exact (ihn par valueLt lines₁ agree node').append_right
      · -- a key on one line is a token, which shows its kind
        have ne := par.keyKinds_of_disagree lt (by rw [read]) (by rw [read]) (congrArg ScalarReading.entry read') here
        have line := line (by rw [read])
        exact .head
          (ScalarReading.shown_ne (by rw [read, read']) (by rw [read, read']) (by omega) ne made made' rfl rfl)

end Reads

/-! ### Documents one after the other -/

/-- The entries and the kinds of resources refer to entries of the schema only. -/
structure ResourceSchema.Sound (R : ResourceSchema) : Prop where
  entry : ∀ s < R.schema.size, (R.schema.entry s).Sound R.schema
  kinds : ∀ p ∈ R.kinds, p.2 < R.schema.size
  pos : 0 < R.schema.size

/-- A document to be read, with its file and where the reading of the file stands. -/
structure Visit where
  file : SourceFile
  state : FileReading
  document : Yaml.Document

/-- Reads the document by the kinds of resources. -/
def Visit.read (R : ResourceSchema) (v : Visit) : Reading (Option Manifest × FileReading) :=
  readDocument v.file R.kinds v.state v.document

namespace ResourceSchema

variable {R : ResourceSchema}

/-- The schema after some documents were read, whether with success or not. -/
def schemaAfter (R : ResourceSchema) (before : List Visit) : Schema :=
  before.foldl (fun S v => ((v.read R).runFrom S).2) R.schema

theorem grows_schemaAfter (R : ResourceSchema) (before : List Visit) : R.schema.Grows (R.schemaAfter before) := by
  suffices ∀ S, R.schema.Grows S → R.schema.Grows (before.foldl (fun S v => ((v.read R).runFrom S).2) S) from
    this _ (.refl _)
  induction before with
  | nil => exact fun S h => h
  | cons v before ih =>
    intro S h
    exact ih _ (h.trans (growing_readDocument v.file R.kinds v.state v.document S))

theorem Sound.kindSlot_lt (sound : R.Sound) {kind : Option Value} (h : kindSlot R.kinds kind = .ok slot) :
    slot < R.schema.size := by
  have lookup : ∀ name other, other < R.schema.size → (R.kinds.lookup name).getD other < R.schema.size := by
    intro name other lt
    cases hl : R.kinds.lookup name with
    | none => exact lt
    | some slot => exact sound.kinds _ (mem_of_lookup hl)
  have other := lookup anyName 0 sound.pos
  unfold kindSlot at h
  split at h
  · cases h
    exact other
  · cases h
    exact lookup _ _ other
  · split at h <;> cases h
    exact other

/-- The past of a schema that has grown from that of resources. -/
def Sound.past (sound : R.Sound) {S : Schema} (grown : R.schema.Grows S) : Past :=
  .ofGrows sound.entry grown

private theorem Sound.parallel (sound : R.Sound) (grown : R.schema.Grows S) : (sound.past grown).Parallel R.schema S :=
  .ofGrows sound.entry grown

/-- A document depends on the schema by the outlines of its root only. -/
private theorem Sound.read_eq_ok (sound : R.Sound) {v : Visit} {manifest : Manifest} {next : FileReading}
    (first : (v.read R).runFrom S = (.ok (some manifest, next), T)) :
    ∃ (page : Page) (slot : Slot) (root : Node), slot < R.schema.size ∧
      (page.root slot v.state.last root).runFrom S = (.ok (manifest.anchor.parts, next.last), T) ∧
      (∀ U, (v.read R).runFrom U = match (page.root slot v.state.last root).runFrom U with
        | (.ok found, V) => (.ok (some (manifest.withOutlines found.1), ⟨next.count, found.2⟩), V)
        | (.error fault, V) => (.error fault, V)) ∧
      manifest.anchor.children = some manifest.anchor.parts := by
  rcases readDocument_eq_ok first with ⟨⟨⟩, _⟩ | ⟨root, entries, m, _, ⟨⟩, count, run, depends⟩
  obtain ⟨page, slot, outlines, _, kind, hroot, children, _, depends'⟩ := readEntries_eq_ok run
  have parts : manifest.anchor.parts = outlines := by rw [Anchor.parts, children, Option.getD_some]
  rw [parts]
  refine ⟨page, slot, root, sound.kindSlot_lt kind, hroot, ?_, children⟩
  intro U
  rw [Visit.read, depends, depends', count]
  rcases (page.root slot v.state.last root).runFrom U with ⟨_ | found, V⟩ <;> rfl

/-- What is read at the start is read after other documents too, if each scalar agrees with what they have settled. -/
private theorem Sound.read_of_agrees (sound : R.Sound) (grown : R.schema.Grows S) {page : Page} {root : Node}
    {last : Position} {pieces : List Piece} {found : Outlined}
    (reads : Reads page (.root slot root) R.schema last pieces found T) (old : slot < R.schema.size)
    (agree : ∀ r ∈ scalarsOf pieces, R.schema.Agrees S r) :
    ∃ U, (page.root slot last root).runFrom S = (.ok found, U) := by
  obtain ⟨_, U, reads', _⟩ := reads.follow (sound.parallel grown) old agree
  rw [Input.moved, (sound.past grown).move_of_lt old] at reads'
  exact ⟨U, reads'.runFrom_eq⟩

/-- If the same outlines are read after other documents as at the start, each scalar agrees with what they have
settled. -/
private theorem Sound.agrees_of_read (sound : R.Sound) (grown : R.schema.Grows S) {page : Page} {root : Node}
    {last next : Position} {pieces : List Piece} {found : Outlined}
    (reads : Reads page (.root slot root) R.schema last pieces found T) (old : slot < R.schema.size)
    (lines : ∀ s ∈ root.scalars, s.isKey = true → s.start.line = s.stop.line)
    (again : (page.root slot last root).runFrom S = (.ok (found.1, next), U)) :
    ∀ r ∈ scalarsOf pieces, R.schema.Agrees S r := by
  by_contra disagree
  have keys : ∀ r ∈ scalarsOf pieces, r.isKey = true → r.start.line = r.stop.line := by
    intro r hr
    have sources : (scalarsOf pieces).map ScalarReading.source = root.scalars := reads.map_source_scalarsOf
    exact lines r.source (sources ▸ List.mem_map_of_mem hr)
  obtain ⟨pieces', reads'⟩ := exists_reads_root root again
  rw [← (sound.past grown).move_of_lt old] at reads'
  exact (reads.partWays (sound.parallel grown) old keys disagree reads').ne rfl

set_option maxRecDepth 10000 in
theorem sound_initial : initial.Sound := by
  refine ⟨?_, ?_, ?_⟩ <;> decide +kernel

end ResourceSchema

/-- A scalar on the first line of a file, with a tag. -/
private def wordOf (tag text : String) (column : Nat) : Node :=
  .scalar (Yaml.Tag.standard tag) text ⟨column, 0, column⟩ ⟨column + text.length, 0, column + text.length⟩

/-- A document of no known kind, with a name in its metadata. -/
private def metadataVisit (tag name : String) : Visit :=
  let pairs (members : List (Node × Node)) (column : Nat) : Node :=
    .mapping (Yaml.Tag.standard "map") members ⟨column, 0, column⟩ ⟨column, 0, column⟩
  { file := ⟨"", ["\x7bmetadata: \x7bname: " ++ name ++ "\x7d\x7d"]⟩
    state := ⟨0, .origin⟩
    document :=
      ⟨pairs [(wordOf "str" "metadata" 1, pairs [(wordOf "str" "name" 12, wordOf tag name 18)] 11)] 0, false⟩ }

/-- The kinds of the tokens of a document. -/
def Visit.tokenKinds (S : Schema) (v : Visit) : List TokenKind :=
  match ((v.read .initial).runFrom S).1 with
  | .ok (some manifest, _) => (Outline.flattenAll manifest.anchor.parts).map (·.kind)
  | _ => []

end ManifestLens
