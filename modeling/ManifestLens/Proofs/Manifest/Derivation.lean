import ManifestLens.Proofs.Manifest.Scalar

/-!
# Derivations of outlines

A reading that succeeds is a derivation (`Reads`), which tells the pieces that the outline is made of in reading order:
the scalars, each with the entry and the position with which it was read, and the blocks around collections.  A reading
succeeds exactly if there is a derivation (`Reads.runFrom_eq`, `exists_reads_root`), and the parts of the outline are
those of the pieces (`Reads.preorderAll_eq`).
-/

namespace ManifestLens

open Yaml (Mark Node)

variable {S T : Schema} {found outer : Outlined} {page : Page}

/-- What a part of the outline is made of, with the parts that it gives: a scalar, or the block around a collection. -/
inductive Piece where
  | scalar (r : ScalarReading) (parts : List Outline)
  | block (node : Node) (part : Outline)

namespace Piece

def parts : Piece → List Outline
  | .scalar _ parts => parts
  | .block _ part => [part]

def scalar? : Piece → Option ScalarReading
  | .scalar r _ => some r
  | .block _ _ => none

/-- A piece as a reading of the page makes it. -/
inductive Made (page : Page) : Piece → Prop where
  | value {r : ScalarReading} {found : Outlined} (onPage : r.page = page) (notKey : r.isKey = false)
      (made : r.outlined = .ok found) : Made page (.scalar r (Outline.preorderAll found.1))
  | key {r : ScalarReading} {found : Outlined} {children : List Outline} (onPage : r.page = page)
      (isKey : r.isKey = true) (made : r.outlined = .ok found) : Made page (.scalar r (Page.below found.1 children))
  | block {n : Node} {localKey indexKey : Option String} {outlines : List Outline} :
      Made page (.block n (.block localKey indexKey (page.range n.start n.stop) (some outlines)))

end Piece

/-- The scalars among pieces. -/
def scalarsOf (pieces : List Piece) : List ScalarReading :=
  pieces.filterMap Piece.scalar?

/-- What is read at once: the root of a document, a node with the block around it, the items of a list, or the pairs
of a mapping. -/
inductive Input where
  | root (slot : Slot) (n : Node)
  | node (slot : Slot) (n : Node)
  | items (slot : Slot) (members : List Node)
  | pairs (listing : Listing) (seen : List String) (members : List (Node × Node))

/-- The reading of an input. -/
def Input.reading (page : Page) (last : Position) : Input → Reading Outlined
  | .root slot n => page.root slot last n
  | .node slot n => page.node slot last n
  | .items slot members => page.items slot last members
  | .pairs listing seen members => page.pairs listing seen last members

/-- The entry puts a block around a node. -/
def Entry.encloses (entry : Entry) : Node → Bool
  | .scalar _ _ _ _ => false
  | _ => entry.localKey.isSome || entry.indexKey.isSome

/-- A reading of an input from a schema, with its pieces, what it gives and the schema that it leaves. -/
inductive Reads (page : Page) : Input → Schema → Position → List Piece → Outlined → Schema → Prop where
  | scalar {S : Schema} {slot : Slot} {tag text : String} {start stop : Mark} {last : Position} {r : ScalarReading}
      {found : Outlined} (read : r = ⟨page, slot, (S.entry slot).ofTag tag, false, text, start, stop, last, none⟩)
      (made : r.outlined = .ok found) :
      Reads page (.root slot (.scalar tag text start stop)) S last [.scalar r (Outline.preorderAll found.1)] found
        (r.settle S)
  | sequence {S T U : Schema} {slot inner : Slot} {tag : String} {members : List Node} {start stop : Mark}
      {last : Position} {pieces : List Piece} {found : Outlined}
      (placed : (Page.itemSlot (S.entry slot)).runFrom S = (.ok inner, T))
      (items : Reads page (.items inner members) T last pieces found U) :
      Reads page (.root slot (.sequence tag members start stop)) S last pieces found U
  | mapping {S T : Schema} {slot : Slot} {tag : String} {members : List (Node × Node)} {start stop : Mark}
      {last : Position} {pieces : List Piece} {found : Outlined} {listing : Listing}
      (listed : (S.entry slot).listing members = .ok listing)
      (pairs : Reads page (.pairs listing [] members) S last pieces found T) :
      Reads page (.root slot (.mapping tag members start stop)) S last pieces found T
  | bare {S T : Schema} {slot : Slot} {n : Node} {last : Position} {pieces : List Piece} {found : Outlined}
      (bare : (S.entry slot).encloses n = false) (root : Reads page (.root slot n) S last pieces found T) :
      Reads page (.node slot n) S last pieces found T
  | enclosed {S T : Schema} {slot : Slot} {n : Node} {last next : Position} {pieces : List Piece}
      {outlines : List Outline} {localKey indexKey : Option String} (encloses : (S.entry slot).encloses n = true)
      (localRule : ruledKey (S.entry slot).localKey n.content = .ok localKey)
      (indexRule : ruledKey (S.entry slot).indexKey n.content = .ok indexKey)
      (root : Reads page (.root slot n) S last pieces (outlines, next) T) :
      Reads page (.node slot n) S last
        (.block n (.block localKey indexKey (page.range n.start n.stop) (some outlines)) :: pieces)
        ([.block localKey indexKey (page.range n.start n.stop) (some outlines)], next) T
  | noItems {S : Schema} {slot : Slot} {last : Position} : Reads page (.items slot []) S last [] ([], last) S
  | item {S T U : Schema} {slot : Slot} {n : Node} {members : List Node} {last mid stop : Position}
      {pieces others : List Piece} {first rest : List Outline}
      (node : Reads page (.node slot n) S last pieces (first, mid) T)
      (items : Reads page (.items slot members) T mid others (rest, stop) U) :
      Reads page (.items slot (n :: members)) S last (pieces ++ others) (first ++ rest, stop) U
  | noPairs {S : Schema} {listing : Listing} {seen : List String} {last : Position} :
      Reads page (.pairs listing seen []) S last [] ([], last) S
  | pair {S T U V W : Schema} {listing : Listing} {seen : List String} {tag key : String} {start stop : Mark}
      {value : Node} {members : List (Node × Node)} {keySlot valueSlot : Slot} {r : ScalarReading}
      {last mid next final : Position} {keyOutlines children rest : List Outline} {pieces others : List Piece}
      (placed : (listing.keySlot key).runFrom S = (.ok keySlot, T))
      (read : r = ⟨page, keySlot, ((T.settle keySlot .keyword).entry keySlot).ofTag tag, true, key, start, stop, last,
        listing.remark seen key⟩)
      (made : r.outlined = .ok (keyOutlines, mid))
      (valuePlaced : (Page.valueSlot keySlot listing key).runFrom (r.settle (T.settle keySlot .keyword)) =
        (.ok valueSlot, U))
      (node : Reads page (.node valueSlot value) U mid pieces (children, next) V)
      (pairs : Reads page (.pairs listing (key :: seen) members) V next others (rest, final) W) :
      Reads page (.pairs listing seen ((.scalar tag key start stop, value) :: members)) S last
        (.scalar r (Page.below keyOutlines children) :: pieces ++ others)
        (Page.below keyOutlines children ++ rest, final) W

/-! ### Derivations and runs -/

private theorem enclose_eq (page : Page) (entry : Entry) (n : Node) (found : Outlined)
    (h : entry.encloses n = (entry.localKey.isSome || entry.indexKey.isSome)) :
    (if entry.encloses n then page.enclose entry n found else .ok found) = page.enclose entry n found := by
  rw [h, Page.enclose]
  cases entry.localKey <;> cases entry.indexKey <;> rfl

private theorem enclose_eq_ok_iff {entry : Entry} {n : Node} (h : entry.encloses n = true) :
    page.enclose entry n found = .ok outer ↔ ∃ localKey indexKey,
      ruledKey entry.localKey n.content = .ok localKey ∧ ruledKey entry.indexKey n.content = .ok indexKey ∧
        outer = ([.block localKey indexKey (page.range n.start n.stop) (some found.1)], found.2) := by
  have keys : (entry.localKey.isNone && entry.indexKey.isNone) = false := by
    cases n <;> simp only [Entry.encloses, Bool.false_eq_true] at h <;>
      cases hl : entry.localKey <;> cases hi : entry.indexKey <;> simp_all
  rw [Page.enclose, keys]
  cases ruledKey entry.localKey n.content with
  | error e =>
    constructor
    · intro h
      cases h
    · rintro ⟨_, _, ⟨⟩, _⟩
  | ok localKey =>
    cases ruledKey entry.indexKey n.content with
    | error e =>
      constructor
      · intro h
        cases h
      · rintro ⟨_, _, _, ⟨⟩, _⟩
    | ok indexKey =>
      constructor
      · intro h
        cases h
        exact ⟨localKey, indexKey, rfl, rfl, rfl⟩
      · rintro ⟨_, _, ⟨⟩, ⟨⟩, rfl⟩
        rfl

/-- A node is read like a root, and then put into a block if its entry says so. -/
theorem Page.runFrom_node (page : Page) (slot : Slot) (last : Position) (n : Node) (S : Schema) :
    (page.node slot last n).runFrom S = match (page.root slot last n).runFrom S with
      | (.ok found, T) =>
        (if (S.entry slot).encloses n then page.enclose (S.entry slot) n found else .ok found, T)
      | (.error e, T) => (.error e, T) := by
  cases n with
  | scalar tag text start stop =>
    rw [Page.node, Page.root]
    rcases (page.scalarBy slot tag text start stop last none).runFrom S with ⟨_ | found, T⟩ <;> rfl
  | sequence tag members start stop =>
    simp only [Page.node, Page.root, Reading.runFrom_bind, Reading.runFrom_entry, Reading.runFrom_ofExcept]
    rcases (itemSlot (S.entry slot)).runFrom S with ⟨_ | inner, T⟩
    · rfl
    · dsimp only
      rcases (page.items inner last members).runFrom T with ⟨_ | found, U⟩
      · rfl
      · exact congrArg (·, U) (enclose_eq page _ _ found rfl).symm
  | mapping tag members start stop =>
    simp only [Page.node, Page.root, Reading.runFrom_bind, Reading.runFrom_entry, Reading.runFrom_ofExcept]
    rcases (S.entry slot).listing members with _ | listing
    · rfl
    · dsimp only
      rcases (page.pairs listing [] last members).runFrom S with ⟨_ | found, T⟩
      · rfl
      · exact congrArg (·, T) (enclose_eq page _ _ found rfl).symm

/-- A derivation is a run. -/
theorem Reads.runFrom_eq {input : Input} {last : Position} {pieces : List Piece}
    (h : Reads page input S last pieces found T) : (input.reading page last).runFrom S = (.ok found, T) := by
  induction h with
  | scalar read made =>
    rw [Input.reading, Page.root, Page.runFrom_scalarBy _ _ _ _ _ _ _ _ _ _ read, made]
  | sequence placed items ih =>
    simp only [Input.reading, Page.root, Reading.runFrom_bind, Reading.runFrom_entry, placed]
    exact ih
  | mapping listed pairs ih =>
    simp only [Input.reading, Page.root, Reading.runFrom_bind, Reading.runFrom_entry, Reading.runFrom_ofExcept, listed]
    exact ih
  | bare bare root ih =>
    simp only [Input.reading] at ih
    simp only [Input.reading, Page.runFrom_node, ih, bare]
    rfl
  | enclosed encloses localRule indexRule root ih =>
    simp only [Input.reading] at ih
    simp only [Input.reading, Page.runFrom_node, ih, encloses, if_true]
    rw [(enclose_eq_ok_iff encloses).2 ⟨_, _, localRule, indexRule, rfl⟩]
  | noItems => rfl
  | item node items ihn ihi =>
    simp only [Input.reading] at ihn ihi
    simp only [Input.reading, Page.items, Reading.runFrom_bind, ihn, ihi]
    rfl
  | noPairs => rfl
  | pair placed read made valuePlaced node pairs ihn ihp =>
    simp only [Input.reading] at ihn ihp
    simp only [Input.reading, Page.pairs_cons, Page.keyBy, Reading.runFrom_bind, placed, Reading.runFrom_settle,
      Page.runFrom_scalarBy _ _ _ _ _ _ _ _ _ _ read, made, valuePlaced, ihn, ihp]
    rfl

/-- A successful run of a node is a derivation, if those of it as a root are. -/
theorem exists_reads_node {slot : Slot} {last : Position} {n : Node}
    (root : ∀ {found : Outlined}, (page.root slot last n).runFrom S = (.ok found, T) →
      ∃ pieces, Reads page (.root slot n) S last pieces found T)
    (h : (page.node slot last n).runFrom S = (.ok found, T)) :
    ∃ pieces, Reads page (.node slot n) S last pieces found T := by
  rw [Page.runFrom_node] at h
  split at h
  · next inner U hr =>
    simp only [Prod.mk.injEq] at h
    obtain ⟨h, rfl⟩ := h
    obtain ⟨pieces, hp⟩ := root hr
    cases he : (S.entry slot).encloses n with
    | false =>
      rw [he] at h
      cases h
      exact ⟨pieces, .bare he hp⟩
    | true =>
      rw [he, if_pos rfl] at h
      obtain ⟨localKey, indexKey, hl, hi, rfl⟩ := (enclose_eq_ok_iff he).1 h
      exact ⟨_, .enclosed he hl hi hp⟩
  · cases h

mutual

/-- A successful run of a root is a derivation. -/
theorem exists_reads_root {page : Page} {slot : Slot} {last : Position} {S T : Schema} {found : Outlined} :
    (n : Node) → (page.root slot last n).runFrom S = (.ok found, T) →
      ∃ pieces, Reads page (.root slot n) S last pieces found T
  | .scalar tag text start stop => by
    intro h
    rw [Page.root, Page.runFrom_scalarBy _ _ _ _ _ _ _ _ false _ rfl] at h
    simp only [Prod.mk.injEq] at h
    obtain ⟨made, rfl⟩ := h
    exact ⟨_, .scalar rfl made⟩
  | .sequence tag members start stop => by
    intro h
    rw [Page.root] at h
    obtain ⟨entry, _, he, h⟩ := Reading.runFrom_bind_eq_ok_iff.1 h
    cases he
    obtain ⟨inner, U, placed, h⟩ := Reading.runFrom_bind_eq_ok_iff.1 h
    obtain ⟨pieces, hp⟩ := exists_reads_items members h
    exact ⟨pieces, .sequence placed hp⟩
  | .mapping tag members start stop => by
    intro h
    rw [Page.root] at h
    obtain ⟨entry, _, he, h⟩ := Reading.runFrom_bind_eq_ok_iff.1 h
    cases he
    obtain ⟨listing, _, listed, h⟩ := Reading.runFrom_bind_eq_ok_iff.1 h
    simp only [Reading.runFrom_ofExcept, Prod.mk.injEq] at listed
    obtain ⟨listed, rfl⟩ := listed
    obtain ⟨pieces, hp⟩ := exists_reads_pairs members h
    exact ⟨pieces, .mapping listed hp⟩

private theorem exists_reads_items {page : Page} {slot : Slot} {last : Position} {S T : Schema} {found : Outlined} :
    (members : List Node) → (page.items slot last members).runFrom S = (.ok found, T) →
      ∃ pieces, Reads page (.items slot members) S last pieces found T
  | [] => by
    intro h
    cases h
    exact ⟨[], .noItems⟩
  | n :: members => by
    intro h
    rw [Page.items] at h
    obtain ⟨⟨first, mid⟩, U, hn, h⟩ := Reading.runFrom_bind_eq_ok_iff.1 h
    obtain ⟨⟨rest, stop⟩, V, hm, h⟩ := Reading.runFrom_bind_eq_ok_iff.1 h
    cases h
    obtain ⟨pieces, hp⟩ := exists_reads_node (exists_reads_root n) hn
    obtain ⟨others, ho⟩ := exists_reads_items members hm
    exact ⟨_, .item hp ho⟩

theorem exists_reads_pairs {page : Page} {listing : Listing} {seen : List String} {last : Position} {S T : Schema}
    {found : Outlined} :
    (members : List (Node × Node)) → (page.pairs listing seen last members).runFrom S = (.ok found, T) →
      ∃ pieces, Reads page (.pairs listing seen members) S last pieces found T
  | [] => by
    intro h
    cases h
    exact ⟨[], .noPairs⟩
  | (.scalar tag key start stop, value) :: members => by
    intro h
    rw [Page.pairs_cons] at h
    obtain ⟨keySlot, _, placed, h⟩ := Reading.runFrom_bind_eq_ok_iff.1 h
    obtain ⟨⟨keyOutlines, mid⟩, _, hk, h⟩ := Reading.runFrom_bind_eq_ok_iff.1 h
    obtain ⟨valueSlot, _, valuePlaced, h⟩ := Reading.runFrom_bind_eq_ok_iff.1 h
    obtain ⟨⟨children, next⟩, _, hn, h⟩ := Reading.runFrom_bind_eq_ok_iff.1 h
    obtain ⟨⟨rest, final⟩, _, hm, h⟩ := Reading.runFrom_bind_eq_ok_iff.1 h
    cases h
    rw [Page.keyBy, Reading.runFrom_bind, Reading.runFrom_settle] at hk
    simp only [Page.runFrom_scalarBy _ _ _ _ _ _ _ _ true _ rfl, Prod.mk.injEq] at hk
    obtain ⟨made, rfl⟩ := hk
    obtain ⟨pieces, hp⟩ := exists_reads_node (exists_reads_root value) hn
    obtain ⟨others, ho⟩ := exists_reads_pairs members hm
    exact ⟨_, .pair placed rfl made valuePlaced hp ho⟩
  | (.sequence _ _ _ _, _) :: _ => by
    intro h
    simp only [Page.pairs, Reading.runFrom_throw, Prod.mk.injEq, reduceCtorEq, false_and] at h
  | (.mapping _ _ _ _, _) :: _ => by
    intro h
    simp only [Page.pairs, Reading.runFrom_throw, Prod.mk.injEq, reduceCtorEq, false_and] at h

end

/-- A manifest is made from the root of its document, on the lines of the file: its outlines are those of a derivation,
and it is anchored where the root starts. -/
theorem exists_reads_of_readDocument {file : SourceFile} {kinds : List (String × Slot)} {state next : FileReading}
    {document : Yaml.Document} {manifest : Manifest}
    (h : (readDocument file kinds state document).runFrom S = (.ok (some manifest, next), T)) :
    ∃ root value page slot pieces, Yaml.valueOf file.text.toList document.root = .ok (root, value) ∧
      page = ⟨file.lines.map String.toList, root.start.position⟩ ∧ manifest.anchor.absolute = page.anchor ∧
      Reads page (.root slot root) S state.last pieces (manifest.anchor.parts, next.last) T := by
  rcases readDocument_eq_ok h with ⟨⟨⟩, _⟩ | ⟨root, entries, m, isRoot, ⟨⟩, _, run, _⟩
  obtain ⟨page, slot, outlines, isPage, _, hroot, children, anchor, _⟩ := readEntries_eq_ok run
  obtain ⟨pieces, reads⟩ := exists_reads_root root hroot
  have parts : manifest.anchor.parts = outlines := by rw [Anchor.parts, children, Option.getD_some]
  exact ⟨root, _, page, slot, pieces, isRoot, isPage, anchor, parts ▸ reads⟩

/-! ### What a derivation tells -/

/-- A scalar of a document: whether it is a key, its text and its marks. -/
structure ScalarNode where
  isKey : Bool
  text : String
  start : Mark
  stop : Mark
  deriving DecidableEq

mutual

/-- The scalars of a node in reading order. -/
def Yaml.Node.scalars : Node → List ScalarNode
  | .scalar _ text start stop => [⟨false, text, start, stop⟩]
  | .sequence _ members _ _ => itemScalars members
  | .mapping _ members _ _ => pairScalars members

def itemScalars : List Node → List ScalarNode
  | [] => []
  | n :: rest => n.scalars ++ itemScalars rest

def pairScalars : List (Node × Node) → List ScalarNode
  | [] => []
  | (key, value) :: rest => key.scalars.map ({ · with isKey := true }) ++ value.scalars ++ pairScalars rest

end

def Input.scalars : Input → List ScalarNode
  | .root _ n => n.scalars
  | .node _ n => n.scalars
  | .items _ members => itemScalars members
  | .pairs _ _ members => pairScalars members

/-- The scalar of the document that is read. -/
def ScalarReading.source (r : ScalarReading) : ScalarNode :=
  ⟨r.isKey, r.text, r.start, r.stop⟩

/-- Scalars are read one after the other, each with the position that the one before it hands on. -/
def HandedOn (p : Position) : List ScalarReading → Position → Prop
  | [], q => p = q
  | r :: rest, q => r.last = p ∧ ∃ found, r.outlined = .ok found ∧ HandedOn found.2 rest q

theorem HandedOn.append {p q m : Position} {a b : List ScalarReading} (ha : HandedOn p a m) (hb : HandedOn m b q) :
    HandedOn p (a ++ b) q := by
  induction a generalizing p with
  | nil => exact (show p = m from ha) ▸ hb
  | cons r a ih =>
    obtain ⟨hr, found, made, ha⟩ := ha
    exact ⟨hr, found, made, ih ha⟩

namespace Reads

variable {input : Input} {last : Position} {pieces : List Piece}

/-- The scalars that are read are those of the document. -/
theorem map_source_scalarsOf (h : Reads page input S last pieces found T) :
    (scalarsOf pieces).map ScalarReading.source = input.scalars := by
  induction h with
  | scalar read made => subst read; rfl
  | sequence placed items ih => exact ih
  | mapping listed pairs ih => exact ih
  | bare bare root ih => exact ih
  | enclosed encloses localRule indexRule root ih => exact ih
  | noItems => rfl
  | item node items ihn ihi =>
    simp only [scalarsOf, Input.scalars] at ihn ihi
    simp only [scalarsOf, Input.scalars, itemScalars, List.filterMap_append, List.map_append, ihn, ihi]
  | noPairs => rfl
  | pair placed read made valuePlaced node pairs ihn ihp =>
    subst read
    simp only [scalarsOf, Input.scalars] at ihn ihp
    simp only [scalarsOf, Input.scalars, pairScalars, Piece.scalar?, List.filterMap_append, List.filterMap_cons,
      List.map_append, List.map_cons, List.cons_append, ihn, ihp]
    rfl

/-- Each scalar gets the position that the one before it hands on. -/
theorem handedOn (h : Reads page input S last pieces found T) : HandedOn last (scalarsOf pieces) found.2 := by
  induction h with
  | scalar read made =>
    refine ⟨?_, _, made, rfl⟩
    rw [read]
  | sequence placed items ih => exact ih
  | mapping listed pairs ih => exact ih
  | bare bare root ih => exact ih
  | enclosed encloses localRule indexRule root ih => exact ih
  | noItems => rfl
  | item node items ihn ihi =>
    rw [scalarsOf, List.filterMap_append]
    exact ihn.append ihi
  | noPairs => rfl
  | pair placed read made valuePlaced node pairs ihn ihp =>
    rw [scalarsOf, List.cons_append, List.filterMap_cons, List.filterMap_append]
    refine ⟨?_, _, made, ihn.append ihp⟩
    rw [read]

/-- The pieces are made from scalars and blocks of the page. -/
theorem forall_made (h : Reads page input S last pieces found T) : ∀ piece ∈ pieces, piece.Made page := by
  induction h with
  | scalar read made =>
    rw [List.forall_mem_singleton]
    exact .value (by rw [read]) (by rw [read]) made
  | sequence placed items ih => exact ih
  | mapping listed pairs ih => exact ih
  | bare bare root ih => exact ih
  | enclosed encloses localRule indexRule root ih => exact List.forall_mem_cons.2 ⟨.block, ih⟩
  | noItems => exact fun _ h => absurd h List.not_mem_nil
  | item node items ihn ihi => exact List.forall_mem_append.2 ⟨ihn, ihi⟩
  | noPairs => exact fun _ h => absurd h List.not_mem_nil
  | pair placed read made valuePlaced node pairs ihn ihp =>
    refine List.forall_mem_cons.2 ⟨.key (by rw [read]) (by rw [read]) made, List.forall_mem_append.2 ⟨ihn, ihp⟩⟩

theorem forall_page (h : Reads page input S last pieces found T) : ∀ r ∈ scalarsOf pieces, r.page = page := by
  intro r mem
  obtain ⟨piece, hp, isScalar⟩ := List.mem_filterMap.1 mem
  cases h.forall_made piece hp with
  | value onPage notKey made => cases isScalar; exact onPage
  | key onPage isKey made => cases isScalar; exact onPage
  | block => cases isScalar

private theorem preorderAll_below (o : Outline) (children : List Outline) :
    Outline.preorderAll (Page.below [o] children) = Page.below [o] children ++ Outline.preorderAll children := by
  cases o <;> exact List.append_nil _

/-- The parts of the outline are those of the pieces. -/
theorem preorderAll_eq (h : Reads page input S last pieces found T) :
    Outline.preorderAll found.1 = pieces.flatMap Piece.parts := by
  induction h with
  | scalar read made => exact (List.append_nil _).symm
  | sequence placed items ih => exact ih
  | mapping listed pairs ih => exact ih
  | bare bare root ih => exact ih
  | enclosed encloses localRule indexRule root ih =>
    rw [Outline.preorderAll, Outline.preorder, ih, Outline.preorderAll, List.append_nil]
    rfl
  | noItems => rfl
  | item node items ihn ihi => rw [Outline.preorderAll_append, ihn, ihi, List.flatMap_append]
  | noPairs => rfl
  | pair placed read made valuePlaced node pairs ihn ihp =>
    obtain ⟨o, rfl⟩ := ScalarReading.outlined_eq_singleton made
    rw [Outline.preorderAll_append, preorderAll_below, ihn, ihp, List.cons_append, List.flatMap_cons,
      List.flatMap_append, List.append_assoc]
    rfl

end Reads

end ManifestLens
