import ManifestLens.Proofs.Manifest.KeyRemarks
import ManifestLens.Proofs.Manifest.Naming
import ManifestLens.Proofs.Manifest.Placement
import ManifestLens.Proofs.Manifest.Plain
import ManifestLens.Proofs.Outline.Queries

/-!
# References to functions

A mapping that refers to a function by its kind and name is found by the two, at the place of the name.  All its other
fields are read with plain entries, so they have no names in the index, and the name is read with a copy of its entry
(`Reads.collected_pairs`).  In any other order its pairs can be read too, and they have the same names
(`Page.exists_pairs_of_perm`).
-/

namespace ManifestLens

open Yaml (Mark Node)

variable {inner keySlot slot valueSlot : Slot} {B S T : Schema} {found : Outlined}
  {key kind kindTag name nameTag tag text : String} {members : List (Node × Node)} {a b start stop : Mark}
  {n value : Node}

/-! ### Pairs in any order -/

namespace Page

variable {page : Page} {F F' : Schema} {listing : Listing} {seen : List String} {last : Position}

/-- A pair alone is read in the same way after keys other than its own. -/
private theorem pairs_singleton {p : Node × Node} (new : keyText p.1 ∉ seen) :
    page.pairs listing seen last [p] = page.pairs listing [] last [p] := by
  obtain ⟨key, value⟩ := p
  cases key with
  | scalar tag key start stop =>
    have remark : listing.remark seen key = listing.remark [] key := by
      simp only [Listing.remark, List.contains_nil, Bool.false_eq_true, if_false]
      rw [if_neg (by simpa [keyText] using new)]
    rw [pairs_eq_keyOf, pairs_eq_keyOf, keyOf, keyOf, remark]
    rfl
  | sequence tag items start stop => rfl
  | mapping tag pairs start stop => rfl

/-- Whether pairs can be read with plain entries does not depend on what was read before. -/
private theorem exists_pairs_of_grows (plain : ∀ p ∈ listing.members, B.Plain p.2) (grown : B.Grows F)
    (grown' : B.Grows F') (last' : Position)
    (read : ∃ found T, (page.pairs listing seen last members).runFrom F = (.ok found, T)) :
    ∃ found T, (page.pairs listing seen last' members).runFrom F' = (.ok found, T) := by
  obtain ⟨found, T, read⟩ := read
  obtain ⟨pieces, reads⟩ := exists_reads_pairs members read
  obtain ⟨_, found', T', reads', _⟩ := reads.transplant (.start grown grown') (.pairs plain) last'
  exact ⟨found', T', reads'.runFrom_eq⟩

/-- Pairs with different keys can be read with plain entries exactly if each of them can. -/
private theorem exists_pairs_iff (plain : ∀ p ∈ listing.members, B.Plain p.2) (grown : B.Grows F)
    (distinct : (members.map fun p => keyText p.1).Nodup) (new : ∀ p ∈ members, keyText p.1 ∉ seen) :
    (∃ found T, (page.pairs listing seen last members).runFrom F = (.ok found, T)) ↔
      ∀ p ∈ members, ∃ found T, (page.pairs listing [] .origin [p]).runFrom B = (.ok found, T) := by
  induction members generalizing F seen last with
  | nil => exact ⟨fun _ _ mem => absurd mem List.not_mem_nil, fun _ => ⟨_, F, rfl⟩⟩
  | cons p members ih =>
    rw [List.map_cons, List.nodup_cons] at distinct
    rw [List.forall_mem_cons] at new ⊢
    have later : ∀ q ∈ members, keyText q.1 ∉ keyText p.1 :: seen := by
      intro q mem
      rw [List.mem_cons, not_or]
      refine ⟨fun same => distinct.1 ?_, new.2 q mem⟩
      exact same ▸ List.mem_map_of_mem mem
    have split : page.pairs listing seen last (p :: members) = (do
        let first ← page.pairs listing [] last [p]
        let rest ← page.pairs listing (keyText p.1 :: seen) first.2 members
        return (first.1 ++ rest.1, rest.2)) := by
      rw [← pairs_singleton new.1]
      exact page.pairs_append listing seen last [p] members
    rw [split]
    constructor
    · rintro ⟨found, T, read⟩
      obtain ⟨first, U, one, read⟩ := Reading.runFrom_bind_eq_ok_iff.1 read
      obtain ⟨rest, V, others, _⟩ := Reading.runFrom_bind_eq_ok_iff.1 read
      have grownU := grown.trans ((page.growing_pairs _ _ _ _).grows one)
      exact ⟨exists_pairs_of_grows plain grown (.refl B) .origin ⟨first, U, one⟩,
        (ih grownU distinct.2 later).1 ⟨rest, V, others⟩⟩
    · rintro ⟨one, others⟩
      obtain ⟨first, U, one⟩ := exists_pairs_of_grows plain (.refl B) grown last one
      have grownU := grown.trans ((page.growing_pairs _ _ _ _).grows one)
      obtain ⟨rest, V, others⟩ := (ih grownU distinct.2 later).2 others
      exact ⟨_, _, Reading.runFrom_bind_eq_ok_iff.2 ⟨first, U, one,
        Reading.runFrom_bind_eq_ok_iff.2 ⟨rest, V, others, rfl⟩⟩⟩

/-- Pairs with different keys that can be read with plain entries can be read in any order. -/
theorem exists_pairs_of_perm {members' : List (Node × Node)} (plain : ∀ p ∈ listing.members, B.Plain p.2)
    (grown : B.Grows F) (grown' : B.Grows F') (perm : members'.Perm members)
    (distinct : (members.map fun p => keyText p.1).Nodup) (last' : Position)
    (read : ∃ found T, (page.pairs listing [] last members).runFrom F = (.ok found, T)) :
    ∃ found T, (page.pairs listing [] last' members').runFrom F' = (.ok found, T) := by
  have alone := (exists_pairs_iff plain grown distinct fun _ _ => List.not_mem_nil).1 read
  refine (exists_pairs_iff plain grown' ?_ fun _ _ => List.not_mem_nil).2 fun p mem => alone p (perm.mem_iff.1 mem)
  exact (perm.map _).nodup_iff.2 distinct

end Page

/-! ### Entries of pieces -/

/-- The entries of a piece in the index. -/
def Piece.entries (base : Position) (piece : Piece) : List (String × Range) :=
  piece.parts.filterMap fun o => Outline.keyEntry base o.indexKey o

private theorem Piece.map_fst_entries (base : Position) (piece : Piece) :
    (piece.entries base).map Prod.fst = piece.names := by
  rw [Piece.entries, List.map_filterMap]
  simp only [Outline.map_fst_keyEntry]
  rfl

private theorem Piece.entries_eq_nil {piece : Piece} (unnamed : piece.names = []) (base : Position) :
    piece.entries base = [] := by
  rw [← List.map_eq_nil_iff, Piece.map_fst_entries, unnamed]

/-- The outline of a scalar has no documents of their own inside. -/
private theorem ScalarReading.isAnchor_eq_false {r : ScalarReading} (made : r.outlined = .ok found) :
    ∀ part ∈ Outline.preorderAll found.1, part.isAnchor = false := by
  have ofTokens : ∀ localKey indexKey range (tokens : List Token), ∀ part ∈ Outline.preorderAll
      [.block localKey indexKey range (some (tokens.map fun t => .token t none))], part.isAnchor = false := by
    intro localKey indexKey range tokens
    rw [Outline.preorderAll_block_tokens, List.forall_mem_cons, List.forall_mem_map]
    exact ⟨rfl, fun _ _ => rfl⟩
  rcases outlined_cases made with ⟨_, tokens, form, _⟩ | ⟨_, _, _, _, first, others, _, _, form⟩
  · rw [form]
    exact ofTokens _ _ _ tokens
  · rw [form]
    split
    · exact List.forall_mem_singleton.2 rfl
    · exact ofTokens _ _ _ (first :: others)

/-- The parts that a piece is made of are tokens and blocks. -/
private theorem Piece.Made.isAnchor_eq_false {page : Page} {piece : Piece} (made : piece.Made page) :
    ∀ part ∈ piece.parts, part.isAnchor = false := by
  cases made with
  | value onPage notKey made => exact ScalarReading.isAnchor_eq_false made
  | key onPage isKey made =>
    obtain ⟨o, one⟩ := ScalarReading.outlined_eq_singleton made
    have plain := ScalarReading.isAnchor_eq_false made
    rw [one] at plain ⊢
    have here := plain o (List.mem_append_left _ o.mem_preorder_self)
    refine List.forall_mem_singleton.2 ?_
    cases o with
    | anchor => cases here
    | block => rfl
    | token => rfl
  | block => exact List.forall_mem_singleton.2 rfl

/-- The index of what is read is that of its pieces. -/
private theorem Reads.keyRangesAll_eq {page : Page} {input : Input} {last : Position} {pieces : List Piece}
    (h : Reads page input S last pieces found T) (base : Position) :
    Outline.keyRangesAll (some base) found.1 = pieces.flatMap (Piece.entries base) := by
  have parts := h.preorderAll_eq
  have noAnchors : ∀ part ∈ Outline.preorderAll found.1, part.isAnchor = false := by
    intro part mem
    rw [parts] at mem
    obtain ⟨piece, here, mem⟩ := List.mem_flatMap.1 mem
    exact (h.forall_made piece here).isAnchor_eq_false part mem
  rw [Outline.keyRangesAll_eq_filterMap noAnchors, parts, List.filterMap_flatMap]
  rfl

/-! ### What is read with a reference -/

namespace Schema

/-- The entry in the slot is for references by kind and name: it lists plain entries only, puts no block around what is
read with it, and reads the value of a name with an entry for words that are never expressions. -/
structure Refers (B : Schema) (slot inner : Slot) : Prop where
  lt : slot < B.size
  refers : (B.entry slot).refers = true
  bare : (B.entry slot).localKey = none ∧ (B.entry slot).indexKey = none
  members : ∀ p ∈ (B.entry slot).shape.members, B.Plain p.2
  name : ∃ keySlot, (B.entry slot).shape.members.lookup "name" = some keySlot ∧
    (B.entry keySlot).shape = .each inner
  notText : (B.entry inner).kind ≠ .string

end Schema

/-- The range by which a scalar on one line is found: from where it starts, seen from the document, as far as it
goes. -/
def Page.lineRange (page : Page) (start stop : Mark) : Range :=
  ⟨(start.position.relativeTo page.anchor).absolute page.anchor 0,
    (start.position.relativeTo page.anchor).absolute page.anchor ((stop.column : Int) - start.column)⟩

/-- How often a value is in the index, if it has a name: a scalar as often as it has outlines, a collection once, as a
block. -/
def Yaml.Node.copies : Node → Nat
  | .scalar _ _ start stop => nameCopies start stop
  | _ => 1

/-- The value of the name is read with a copy of its entry, which has the reference for its key. -/
private theorem entry_valueSlot {listing : Listing} {reference : String} (plain : B.Plain keySlot) (grown : B.Grows S)
    (shape : (B.entry keySlot).shape = .each inner) (refers : listing.reference = some reference)
    (placed : (Page.valueSlot keySlot listing "name").runFrom S = (.ok valueSlot, T)) :
    valueSlot < T.size ∧ T.entry valueSlot = { B.entry inner with indexKey := some (.constant reference) } := by
  have same := plain.entry_eq grown
  have innerPlain : B.Plain inner := plain.members (anyName, inner) (by rw [shape]; exact List.mem_singleton_self _)
  rw [Page.valueSlot_eq] at placed
  obtain ⟨entry, _, here, placed⟩ := Reading.runFrom_bind_eq_ok_iff.1 placed
  cases here
  obtain ⟨middle, U, first, placed⟩ := Reading.runFrom_bind_eq_ok_iff.1 placed
  rw [Entry.innerSlot, same, shape] at first
  cases first
  rw [Listing.referringSlot, refers, Reading.runFrom_bind, Reading.runFrom_entry] at placed
  dsimp only at placed
  rw [innerPlain.entry_eq grown, innerPlain.indexKey] at placed
  cases placed
  refine ⟨by simp, ?_⟩
  rw [Schema.entry_push, if_pos rfl]

/-- A scalar that is read with an entry for words is no expression, and its key is that of the entry. -/
private theorem word_of_read {page : Page} {last : Position} {r : ScalarReading} {e : Entry} {rule : KeyRule}
    (read : r = ⟨page, slot, (S.entry slot).ofTag tag, false, text, start, stop, last, none⟩)
    (entry : S.entry slot = { e with indexKey := some rule }) (set : e.kind ≠ .unset) (notText : e.kind ≠ .string) :
    r.isExpression = false ∧ r.entry.indexKey = some rule := by
  have kind : r.entry.kind = e.kind := by
    rw [read, entry]
    exact if_neg fun h => set (beq_iff_eq.1 h)
  refine ⟨?_, ?_⟩
  · rw [ScalarReading.isExpression, kind, beq_eq_false_iff_ne.2 notText, Bool.false_and]
  · rw [read, entry]
    rfl

/-- What is collected from pieces without names is nothing. -/
private theorem flatMap_eq_nil_of_namesIn {α : Type} {collect : Piece → List α}
    (hidden : ∀ piece : Piece, piece.names = [] → collect piece = []) {pieces : List Piece}
    (unnamed : namesIn pieces = []) : pieces.flatMap collect = [] := by
  rw [List.flatMap_eq_nil_iff]
  intro piece mem
  exact hidden piece (List.flatMap_eq_nil_iff.1 unnamed piece mem)

namespace Reads

variable {page : Page} {last : Position} {pieces : List Piece}

/-- What is collected from the pieces of a reference, where pieces without names give nothing, is what is collected from
the values of its name. -/
theorem collected_pairs {α : Type} {collect : Piece → List α}
    (hidden : ∀ piece : Piece, piece.names = [] → collect piece = []) (refers : B.Refers slot inner) {listing : Listing}
    (listed : listing.members = (B.entry slot).shape.members) {reference : String}
    (named : listing.reference = some reference) {seen : List String} (grown : B.Grows S)
    (h : Reads page (.pairs listing seen members) S last pieces found T) (values : Node → List α)
    (value : ∀ n ∈ nodesAt "name" members, ∀ {U V : Schema} {valueSlot : Slot} {last : Position} {pieces : List Piece}
      {found : Outlined}, B.Grows U →
        U.entry valueSlot = { B.entry inner with indexKey := some (.constant reference) } →
        Reads page (.node valueSlot n) U last pieces found V → pieces.flatMap collect = values n) :
    pieces.flatMap collect = (nodesAt "name" members).flatMap values := by
  have plain : ∀ p ∈ listing.members, B.Plain p.2 := by
    rw [listed]
    exact refers.members
  induction members generalizing seen S last pieces found T with
  | nil =>
    cases h
    rfl
  | cons pair members ih =>
    cases h with
    | @pair S T₁ U V W listing seen tag text start stop value' members keySlot valueSlot r last mid next final outlines
        children rest pieces others placed read made valuePlaced node pairs =>
    have silent := Listing.silent_keySlot plain grown placed
    have keyGrown := grown.trans ((Page.growing_keySlot _ _).grows placed)
    have readGrown := keyGrown.trans (grows_key read)
    have valueGrown := readGrown.trans ((Page.growing_valueSlot _ _ _).grows valuePlaced)
    rw [List.cons_append, List.flatMap_cons, List.flatMap_append, hidden _ (names_key read made silent),
      List.nil_append]
    by_cases here : text = "name"
    · subst here
      obtain ⟨nameSlot, isName, shape⟩ := refers.name
      have slot_eq : keySlot = nameSlot := by
        rcases Listing.keySlot_cases placed with ⟨found, _⟩ | ⟨none, _⟩
        · rw [listed, isName] at found
          exact (Option.some.inj found).symm
        · rw [listed, isName] at none
          cases none
      subst slot_eq
      have entry := (entry_valueSlot (refers.members _ (mem_of_lookup isName)) readGrown shape named valuePlaced).2
      rw [nodesAt_cons_of_eq] at value ⊢
      obtain ⟨first, others⟩ := List.forall_mem_cons.1 value
      rw [first valueGrown entry node, ih (valueGrown.trans node.grows) pairs others, List.flatMap_cons]
    · have silentValue := (silent.grow (grows_key read)).valueSlot readGrown (.inr here) valuePlaced
      rw [nodesAt_cons_of_ne here] at value ⊢
      rw [flatMap_eq_nil_of_namesIn hidden (node.namesIn_eq_nil valueGrown silentValue), List.nil_append]
      exact ih (valueGrown.trans node.grows) pairs value

/-- Inside a block there are no names, if its entry is one on plain ones. -/
private theorem namesIn_inside (h : Reads page (.root slot n) S last pieces found T) (grown : B.Grows S)
    (members : ∀ p ∈ (S.entry slot).shape.members, B.Plain p.2) (refers : (S.entry slot).refers = false)
    (encloses : (S.entry slot).encloses n = true) : namesIn pieces = [] := by
  cases h with
  | scalar read made => cases encloses
  | sequence placed items =>
    exact items.namesIn_eq_nil (grown.trans ((Page.growing_itemSlot _).grows placed)) (.itemSlot members grown placed)
  | mapping listed pairs =>
    obtain ⟨_, rfl, ⟨_, rfl⟩ | ⟨refers', _⟩⟩ := Entry.listing_eq_ok listed
    · exact pairs.namesIn_eq_nil grown ⟨rfl, members⟩
    · rw [refers] at refers'
      cases refers'

/-- A value that is read with a constant key has it as its name. -/
private theorem namesIn_value (plain : B.Plain inner) (notText : (B.entry inner).kind ≠ .string) {reference : String}
    (some_ : reference ≠ "") (grown : B.Grows S)
    (entry : S.entry slot = { B.entry inner with indexKey := some (.constant reference) })
    (h : Reads page (.node slot n) S last pieces found T) : namesIn pieces = List.replicate n.copies reference := by
  have named : Outline.named (some reference) = some reference := by simp [Outline.named, some_]
  have members : ∀ p ∈ (S.entry slot).shape.members, B.Plain p.2 := by
    rw [entry]
    exact plain.members
  have unbare : ¬ ((S.entry slot).localKey.isSome || (S.entry slot).indexKey.isSome) = false := by
    rw [entry]
    simp
  cases h with
  | bare bare root =>
    cases root with
    | @scalar _ _ tag text start stop _ r found read made =>
      obtain ⟨word, rule⟩ := word_of_read read entry plain.kind notText
      rcases ScalarReading.names_eq made with ⟨expression, _⟩ | ⟨_, key, ruled, names⟩
      · rw [word] at expression
        cases expression
      · rw [rule] at ruled
        cases ruled
        rw [namesIn, List.flatMap_singleton]
        refine names.trans ?_
        rw [List.filterMap_replicate_of_some named, read]
        rfl
    | sequence placed items => exact absurd bare unbare
    | mapping listed pairs => exact absurd bare unbare
  | enclosed encloses localRule indexRule root =>
    rw [entry] at indexRule
    cases indexRule
    have once : n.copies = 1 := by
      cases n with
      | scalar => cases encloses
      | sequence => rfl
      | mapping => rfl
    rw [namesIn_cons, root.namesIn_inside grown members (by rw [entry]; exact plain.refers) encloses, once,
      List.append_nil, Piece.names, Piece.parts, List.filterMap_cons, Outline.name?, Outline.indexKey, named]
    rfl

/-- A word on one line that is read with a constant key is found by it, at its place. -/
private theorem entries_word {e : Entry} (set : e.kind ≠ .unset) (notText : e.kind ≠ .string) {reference : String}
    (some_ : reference ≠ "") (entry : S.entry slot = { e with indexKey := some (.constant reference) })
    (line : start.line = stop.line) (h : Reads page (.node slot (.scalar tag text start stop)) S last pieces found T) :
    pieces.flatMap (Piece.entries page.anchor) = [(reference, page.lineRange start stop)] := by
  have named : Outline.named (some reference) = some reference := by simp [Outline.named, some_]
  cases h with
  | enclosed encloses => cases encloses
  | bare bare root =>
    cases root with
    | @scalar _ _ _ _ _ _ _ r found read made =>
      obtain ⟨word, rule⟩ := word_of_read read entry set notText
      rw [ScalarReading.outlined, if_neg (by simp [word]), Page.scalar_of_line (by rw [read]; exact line)] at made
      obtain ⟨localKey, _, made⟩ := except_bind_eq_ok_iff.1 made
      obtain ⟨indexKey, ruled, made⟩ := except_bind_eq_ok_iff.1 made
      cases made
      rw [rule] at ruled
      cases ruled
      rw [List.flatMap_singleton, Piece.entries, Piece.parts, Outline.preorderAll, Outline.preorder,
        Outline.preorderAll, List.append_nil]
      refine List.filterMap_cons_some (b := (reference, page.lineRange start stop)) ?_
      rw [read]
      exact Outline.keyEntry_of_named named page.anchor _

end Reads

/-! ### Fields of a reference -/

private theorem keyText_of_isText (h : n.content.isText key = true) : keyText n = key := by
  cases n with
  | scalar tag text start stop => simpa [Node.content, Yaml.Content.isText, keyText] using h
  | sequence => cases h
  | mapping => cases h

theorem valuesAt_eq (key : String) (members : List (Node × Node)) :
    valuesAt key members = (nodesAt key members).map Node.content := by
  rw [valuesAt, nodesAt, List.map_map]
  rfl

section Fields

variable {members' : List (Node × Node)} (distinct : (members.map fun p => keyText p.1).Nodup)

include distinct

private theorem length_nodesAt_le (key : String) : (nodesAt key members).length ≤ 1 := by
  have count := List.nodup_iff_count_le_one.1 distinct key
  rw [List.count, List.countP_map] at count
  rw [nodesAt, List.length_map, ← List.countP_eq_length_filter]
  refine Nat.le_trans (List.countP_mono_left fun p _ here => ?_) count
  exact beq_iff_eq.2 (keyText_of_isText here)

/-- A field that is there is the only one with its key. -/
private theorem nodesAt_eq_singleton (mem : (.scalar tag key start stop, value) ∈ members) :
    nodesAt key members = [value] := by
  have le := length_nodesAt_le distinct key
  have here : value ∈ nodesAt key members := by
    refine List.mem_map.2 ⟨_, List.mem_filter.2 ⟨mem, ?_⟩, rfl⟩
    simp [Node.content, Yaml.Content.isText]
  rcases nodes : nodesAt key members with _ | ⟨n, _ | ⟨m, rest⟩⟩
  · rw [nodes] at here
    cases here
  · rw [nodes] at here
    rw [List.mem_singleton.1 here]
  · rw [nodes, List.length_cons, List.length_cons] at le
    omega

private theorem nodesAt_eq_of_perm (perm : members'.Perm members) (key : String) :
    nodesAt key members' = nodesAt key members := by
  have le := length_nodesAt_le distinct key
  have same : (nodesAt key members').Perm (nodesAt key members) := (perm.filter _).map _
  rcases nodes : nodesAt key members with _ | ⟨n, _ | ⟨m, rest⟩⟩
  · rw [nodes] at same
    exact same.eq_nil
  · rw [nodes] at same
    exact List.perm_singleton.1 same
  · rw [nodes, List.length_cons, List.length_cons] at le
    omega

end Fields

/-- The names of a reference are not empty. -/
private theorem ne_of_referenceKey {reference : String} (h : referenceKey (.pairs members) = .ok (some reference)) :
    reference ≠ "" := by
  rw [referenceKey_pairs, Except.ok.injEq, Option.bind_eq_some_iff] at h
  obtain ⟨kind, _, h⟩ := h
  obtain ⟨name, _, h⟩ := Option.bind_eq_some_iff.1 h
  split at h
  · cases h
  · cases h
    intro empty
    have := congrArg String.length empty
    simp at this

/-- A pair of the mapping has the key and the value. -/
def HasField (members : List (Node × Node)) (key : String) (value : Node) : Prop :=
  ∃ tag start stop, (.scalar tag key start stop, value) ∈ members

private theorem hasField_of_mem_nodesAt (mem : value ∈ nodesAt key members) : HasField members key value := by
  obtain ⟨⟨k, v⟩, here, rfl⟩ := List.mem_map.1 mem
  obtain ⟨pair, isKey⟩ := List.mem_filter.1 here
  have text := keyText_of_isText isKey
  cases k with
  | scalar tag key' start stop =>
    rw [keyText] at text
    subst text
    exact ⟨tag, start, stop, pair⟩
  | sequence => cases isKey
  | mapping => cases isKey

/-- Without a kind or a name there is no reference. -/
private theorem referenceKey_eq_none (isKey : key = "kind" ∨ key = "name")
    (empty : ∀ value, HasField members key value → value.content.isEmpty = true) :
    referenceKey (.pairs members) = .ok none := by
  have last_empty : ∀ content, (valuesAt key members).getLast? = some content → content.isEmpty = true := by
    intro content last
    have mem := List.mem_of_getLast? last
    rw [valuesAt_eq] at mem
    obtain ⟨value, isValue, rfl⟩ := List.mem_map.1 mem
    exact empty value (hasField_of_mem_nodesAt isValue)
  rw [referenceKey_pairs, Except.ok.injEq, Option.bind_eq_none_iff]
  intro kind isKind
  rw [Option.bind_eq_none_iff]
  intro name isName
  rw [if_pos]
  rcases isKey with rfl | rfl
  · rw [last_empty kind isKind, Bool.true_or]
  · rw [last_empty name isName, Bool.or_true]

/-- With both there is one. -/
private theorem referenceKey_eq_some (isKind : nodesAt "kind" members = [.scalar kindTag kind a b])
    (isName : nodesAt "name" members = [.scalar nameTag name start stop]) (hasKind : kind ≠ "") (hasName : name ≠ "") :
    referenceKey (.pairs members) = .ok (some (kind ++ ":" ++ name ++ ":ref")) := by
  rw [referenceKey_pairs, valuesAt_eq, valuesAt_eq, isKind, isName]
  simp [Node.content, Yaml.Content.isEmpty, Yaml.Content.describe, hasKind, hasName]

private theorem exists_referenceKey (members : List (Node × Node)) :
    ∃ reference, referenceKey (.pairs members) = .ok reference :=
  ⟨_, referenceKey_pairs members⟩

namespace Schema.Refers

variable {page : Page} {last : Position} {reference : Option String}

/-- How the pairs of a reference are read. -/
def listing (B : Schema) (slot : Slot) (reference : Option String) : Listing :=
  ⟨(B.entry slot).shape.members, (B.entry slot).strict, reference⟩

/-- A reference is read as its pairs are, without a block around them. -/
private theorem runFrom_node (refers : B.Refers slot inner) (grown : B.Grows S)
    (isReference : referenceKey (.pairs members) = .ok reference) (page : Page) (last : Position) (tag : String)
    (start stop : Mark) :
    (page.node slot last (.mapping tag members start stop)).runFrom S =
      (page.pairs (listing B slot reference) [] last members).runFrom S := by
  have same := grown.entry_eq refers.lt
  have listed : (S.entry slot).listing members = .ok (listing B slot reference) := by
    have isRefers : (S.entry slot).refers = true := by rw [same]; exact refers.refers
    rw [Entry.listing, isRefers, if_pos rfl, isReference, same]
    rfl
  have bare : (S.entry slot).encloses (.mapping tag members start stop) = false := by
    show ((S.entry slot).localKey.isSome || (S.entry slot).indexKey.isSome) = false
    rw [same, refers.bare.1, refers.bare.2]
    rfl
  rw [Page.runFrom_node, Page.runFrom_rootMapping listed, bare]
  rcases (page.pairs (listing B slot reference) [] last members).runFrom S with ⟨_ | found, T⟩ <;> rfl

/-- If a kind or a name is missing, nothing is found. -/
private theorem index_eq_nil (refers : B.Refers slot inner) (grown : B.Grows S)
    (read : (page.pairs (listing B slot none) [] last members).runFrom S = (.ok found, T)) (base : Position) :
    Outline.keyRangesAll (some base) found.1 = [] := by
  obtain ⟨pieces, reads⟩ := exists_reads_pairs members read
  rw [reads.keyRangesAll_eq]
  exact flatMap_eq_nil_of_namesIn (fun piece h => piece.entries_eq_nil h base)
    (reads.namesIn_eq_nil grown ⟨rfl, refers.members⟩)

private theorem plain_inner (refers : B.Refers slot inner) : B.Plain inner := by
  obtain ⟨keySlot, found, shape⟩ := refers.name
  have member : (anyName, inner) ∈ (B.entry keySlot).shape.members := by
    rw [shape]
    exact List.mem_singleton_self _
  exact (refers.members _ (mem_of_lookup found)).members (anyName, inner) member

/-- The names in the index are one for each outline of the name. -/
private theorem map_fst_index (refers : B.Refers slot inner) (grown : B.Grows S)
    (isReference : referenceKey (.pairs members) = .ok reference)
    (read : (page.pairs (listing B slot reference) [] last members).runFrom S = (.ok found, T)) (base : Position) :
    (Outline.keyRangesAll (some base) found.1).map Prod.fst =
      reference.toList.flatMap fun key => (nodesAt "name" members).flatMap fun n => List.replicate n.copies key := by
  cases reference with
  | none => rw [refers.index_eq_nil grown read base]; rfl
  | some reference =>
    obtain ⟨pieces, reads⟩ := exists_reads_pairs members read
    rw [reads.keyRangesAll_eq, List.map_flatMap]
    simp only [Piece.map_fst_entries]
    rw [reads.collected_pairs (fun _ h => h) refers rfl rfl grown (fun n => List.replicate n.copies reference) ?_]
    · exact (List.append_nil _).symm
    · intro n _ U V valueSlot last pieces found grown entry node
      exact node.namesIn_value refers.plain_inner refers.notText (ne_of_referenceKey isReference) grown entry

/-- A name on one line is found by the kind and the name, at its place. -/
private theorem index_eq_singleton (refers : B.Refers slot inner) (grown : B.Grows S)
    (isReference : referenceKey (.pairs members) = .ok (some key))
    (one : nodesAt "name" members = [.scalar tag name start stop]) (line : start.line = stop.line)
    (read : (page.pairs (listing B slot (some key)) [] last members).runFrom S = (.ok found, T)) :
    Outline.keyRangesAll (some page.anchor) found.1 = [(key, page.lineRange start stop)] := by
  obtain ⟨pieces, reads⟩ := exists_reads_pairs members read
  rw [reads.keyRangesAll_eq, reads.collected_pairs (fun piece h => piece.entries_eq_nil h _) refers rfl rfl grown
    (fun _ => [(key, page.lineRange start stop)]) ?_, one]
  · rfl
  · rw [one, List.forall_mem_singleton]
    intro U V valueSlot last pieces found grown entry node
    exact node.entries_word refers.plain_inner.kind refers.notText (ne_of_referenceKey isReference) entry line

end Schema.Refers

/-! ### The schema of resources -/

namespace Schema

/-- The search for an entry that is not plain finds none. -/
def isPlainWithin (B : Schema) : (depth : Nat) → Slot → Bool
  | 0, _ => false
  | depth + 1, slot =>
    decide (slot < B.size) && (B.entry slot).isPlain &&
      (B.entry slot).shape.members.all fun p => B.isPlainWithin depth p.2

private theorem plain_of_isPlainWithin {depth : Nat} (h : B.isPlainWithin depth slot = true) : B.Plain slot := by
  induction depth generalizing slot with
  | zero => cases h
  | succ depth ih =>
    rw [isPlainWithin, Bool.and_eq_true, Bool.and_eq_true, decide_eq_true_eq, List.all_eq_true] at h
    exact .intro h.1.1 h.1.2 fun p mem => ih (h.2 p mem)

/-- The slot of the entry for the value of a name. -/
def nameSlot (B : Schema) (slot : Slot) : Slot :=
  match (B.entry (((B.entry slot).shape.members.lookup "name").getD B.size)).shape with
  | .each inner => inner
  | _ => B.size

/-- The search finds that the entry is one for references. -/
def refersWithin (B : Schema) (depth : Nat) (slot : Slot) : Bool :=
  (B.entry slot).localKey.isNone && (B.entry slot).indexKey.isNone &&
    ((B.entry slot).shape.members.all fun p => B.isPlainWithin depth p.2) &&
    (B.entry (((B.entry slot).shape.members.lookup "name").getD B.size)).shape == .each (B.nameSlot slot) &&
    (B.entry (B.nameSlot slot)).kind != .string

private theorem refers_of_refersWithin {depth : Nat} (lt : slot < B.size) (refers : (B.entry slot).refers = true)
    (h : B.refersWithin depth slot = true) : B.Refers slot (B.nameSlot slot) := by
  simp only [refersWithin, Bool.and_eq_true, Option.isNone_iff_eq_none, List.all_eq_true, beq_iff_eq, bne_iff_ne] at h
  obtain ⟨⟨⟨⟨noLocal, noIndex⟩, members⟩, shape⟩, notText⟩ := h
  refine ⟨lt, refers, ⟨noLocal, noIndex⟩, fun p mem => plain_of_isPlainWithin (members p mem), ?_, notText⟩
  cases found : (B.entry slot).shape.members.lookup "name" with
  | some keySlot =>
    rw [found, Option.getD_some] at shape
    exact ⟨keySlot, rfl, shape⟩
  | none =>
    -- there is no entry behind the last one
    rw [found, Option.getD_none, entry, Array.getElem?_eq_none (Nat.le_refl _)] at shape
    cases shape

end Schema

set_option maxRecDepth 10000 in
/-- All entries of the schema that refer to functions are such entries. -/
private theorem ResourceSchema.refersWithin_initial :
    ((List.range initial.schema.size).all fun slot =>
      !(initial.schema.entry slot).refers || initial.schema.refersWithin 4 slot) = true := by
  decide +kernel

/-- What a mapping with different keys that refers to a function has in the index, after whatever was read before.  With
a kind and a name that are words, it is found by the two at the place of the name; without either, it is not found at
all.  In any other order it can be read too, and it has the same names. -/
theorem ResourceSchema.reference_index {slot : Slot} (lt : slot < initial.schema.size)
    (refers : (initial.schema.entry slot).refers = true) {S T : Schema} (grown : initial.schema.Grows S) {page : Page}
    {last : Position} {tag : String} {members : List (Node × Node)} {start stop : Mark} {found : Outlined}
    (distinct : (members.map fun p => keyText p.1).Nodup)
    (read : (page.node slot last (.mapping tag members start stop)).runFrom S = (.ok found, T)) :
    (∀ kindTag kind nameTag name a b c d, HasField members "kind" (.scalar kindTag kind a b) →
      HasField members "name" (.scalar nameTag name c d) → kind ≠ "" → name ≠ "" → c.line = d.line →
      Outline.keyRangesAll (some page.anchor) found.1 = [(kind ++ ":" ++ name ++ ":ref", page.lineRange c d)] ∧
      (page.anchor ≤ c.position → c.position.ToldFrom page.anchor → page.lineRange c d = ⟨c.position, d.position⟩)) ∧
    (∀ key, key = "kind" ∨ key = "name" →
      (∀ value, HasField members key value → value.content.isEmpty = true) →
      Outline.keyRangesAll (some page.anchor) found.1 = []) ∧
    ∀ members' S' last', members'.Perm members → initial.schema.Grows S' →
      ∃ found' T', (page.node slot last' (.mapping tag members' start stop)).runFrom S' = (.ok found', T') ∧
        (Outline.keyRangesAll (some page.anchor) found'.1).map Prod.fst =
          (Outline.keyRangesAll (some page.anchor) found.1).map Prod.fst := by
  have searched := List.all_eq_true.1 refersWithin_initial slot (List.mem_range.2 lt)
  rw [refers, Bool.not_true, Bool.false_or] at searched
  have refers := Schema.refers_of_refersWithin lt refers searched
  clear searched lt
  generalize initial.schema = B at refers grown ⊢
  obtain ⟨reference, isReference⟩ := exists_referenceKey members
  rw [refers.runFrom_node grown isReference] at read
  refine ⟨?_, ?_, ?_⟩
  · rintro kindTag kind nameTag name a b c d ⟨_, _, _, hasKind⟩ ⟨_, _, _, hasName⟩ kind_ne name_ne line
    have oneName := nodesAt_eq_singleton distinct hasName
    have isSome := referenceKey_eq_some (nodesAt_eq_singleton distinct hasKind) oneName kind_ne name_ne
    cases isReference.symm.trans isSome
    refine ⟨refers.index_eq_singleton grown isSome oneName line read, fun after told => ?_⟩
    have onLine : c.position.line = d.position.line := congrArg Int.ofNat line
    rw [Page.lineRange, (Position.absolute_relativeTo_iff (Position.line_le after)).2 told]
    exact congrArg _ ((Position.absolute_relativeTo_add_iff (Position.line_le after) onLine).2 told)
  · intro key isKey empty
    cases isReference.symm.trans (referenceKey_eq_none isKey empty)
    exact refers.index_eq_nil grown read page.anchor
  · intro members' S' last' perm grown'
    have same := nodesAt_eq_of_perm distinct perm
    have isReference' : referenceKey (.pairs members') = .ok reference := by
      rw [← isReference, referenceKey_pairs, referenceKey_pairs]
      simp only [valuesAt_eq, same]
    obtain ⟨found', T', read'⟩ := Page.exists_pairs_of_perm refers.members grown grown' perm distinct last' ⟨_, _, read⟩
    refine ⟨found', T', by rw [refers.runFrom_node grown' isReference', read'], ?_⟩
    rw [refers.map_fst_index grown' isReference' read', refers.map_fst_index grown isReference read, same]

/-- A field on a line of its own, two columns in. -/
private def fieldOn (line : Nat) (key value : String) : Node × Node :=
  (.scalar "str" key ⟨0, line, 2⟩ ⟨0, line, 2 + key.length⟩,
    .scalar "str" value ⟨0, line, 4 + key.length⟩ ⟨0, line, 4 + key.length + value.length⟩)

/-- A reference with its name before its kind, and a field that is not listed between them. -/
private def nameFirst : List (Node × Node) :=
  [fieldOn 1 "name" "make", fieldOn 2 "note" "=1 + a", fieldOn 3 "kind" "ValueFunction"]

private def referencePage : Page :=
  ⟨["ref:", "  name: make", "  note: =1 + a", "  kind: ValueFunction"].map String.toList, .origin⟩

/-- How pairs are read by the entry for references. -/
private def readReference (members : List (Node × Node)) : Except Fault Outlined × Schema :=
  (referencePage.node 10 .origin (.mapping "map" members ⟨0, 1, 2⟩ ⟨0, 4, 0⟩)).runFrom ResourceSchema.initial.schema

set_option maxRecDepth 10000 in
theorem ResourceSchema.reference_index_nameFirst :
    ∃ found T, readReference nameFirst = (.ok found, T) ∧
      Outline.keyRangesAll (some .origin) found.1 = [("ValueFunction:make:ref", ⟨⟨1, 8⟩, ⟨1, 12⟩⟩)] ∧
      ∃ found' T', readReference nameFirst.reverse = (.ok found', T') ∧
        (Outline.keyRangesAll (some .origin) found'.1).map Prod.fst = ["ValueFunction:make:ref"] := by
  have isSlot : 10 < initial.schema.size ∧ (initial.schema.entry 10).refers = true := by decide +kernel
  obtain ⟨found, T, read⟩ := exists_ok_of_isSome (r := readReference nameFirst) (by decide +kernel)
  obtain ⟨isFound, _, inOrder⟩ := reference_index isSlot.1 isSlot.2 (.refl _) (by decide +kernel) read
  obtain ⟨index, _⟩ := isFound _ "ValueFunction" _ "make" _ _ _ _ ⟨_, _, _, .tail _ (.tail _ (.head _))⟩
    ⟨_, _, _, .head _⟩ (by decide) (by decide) rfl
  obtain ⟨found', T', read', names⟩ := inOrder nameFirst.reverse _ .origin (List.reverse_perm _) (.refl _)
  exact ⟨found, T, read, index, found', T', read', names.trans (congrArg (List.map Prod.fst) index)⟩

end ManifestLens
