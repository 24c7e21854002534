import ManifestLens.Proofs.Manifest.Items
import ManifestLens.Proofs.Manifest.KeyRemarks
import ManifestLens.Proofs.Yaml.Merging

/-!
# What a schema demands of a node

A reading ends with a fault if a rule cannot make a key of what a node holds.  Which rule meets which node follows from
the schema as it is before anything is read with it (`Schema.Admits`): what is read settles kinds and adds entries, but
it changes no rule.  So a node without expressions has outlines exactly if the schema admits it
(`Page.Carries.succeeds_iff`).
-/

namespace ManifestLens

open Yaml (Content Mark Node)

variable {start stop : Mark} {text : String}

/-! ### Readings that succeed -/

namespace Reading

variable {α β : Type} {x : Reading α} {f : α → Reading β} {S : Schema}

/-- The reading gives something from the schema. -/
def Succeeds (x : Reading α) (S : Schema) : Prop :=
  ∃ a T, x.runFrom S = (.ok a, T)

private theorem succeeds_ofExcept_iff {r : Except Fault α} : (ofExcept r).Succeeds S ↔ ∃ a, r = .ok a := by
  constructor
  · rintro ⟨a, T, run⟩
    exact ⟨a, (Prod.mk.inj run).1⟩
  · rintro ⟨a, rfl⟩
    exact ⟨a, S, rfl⟩

/-- If it does not matter what the first part gives, then both parts have to succeed. -/
private theorem succeeds_bind_iff {P : Prop} (further : ∀ a T, x.runFrom S = (.ok a, T) → ((f a).Succeeds T ↔ P)) :
    (x >>= f).Succeeds S ↔ x.Succeeds S ∧ P := by
  constructor
  · rintro ⟨b, U, run⟩
    obtain ⟨a, T, first, second⟩ := runFrom_bind_eq_ok_iff.1 run
    exact ⟨⟨a, T, first⟩, (further a T first).1 ⟨b, U, second⟩⟩
  · rintro ⟨⟨a, T, first⟩, holds⟩
    obtain ⟨b, U, second⟩ := (further a T first).2 holds
    exact ⟨b, U, runFrom_bind_eq_ok_iff.2 ⟨a, T, first, second⟩⟩

private theorem succeeds_bind_of_run {a : α} {T : Schema} (first : x.runFrom S = (.ok a, T)) :
    (x >>= f).Succeeds S ↔ (f a).Succeeds T := by
  rw [Succeeds, runFrom_bind, first]
  rfl

/-- What only puts together what was read succeeds if the reading does. -/
private theorem succeeds_bind_pure_iff {g : α → β} : (x >>= fun a => pure (g a)).Succeeds S ↔ x.Succeeds S := by
  refine (succeeds_bind_iff fun a T _ => iff_true_intro ?_).trans (and_iff_left trivial)
  exact ⟨g a, T, rfl⟩

end Reading

open Reading (succeeds_ofExcept_iff succeeds_bind_iff succeeds_bind_of_run succeeds_bind_pure_iff)

/-! ### Rules -/

/-- The rules of the entry make keys of what a node holds. -/
def Entry.Makes (e : Entry) (content : Content) : Prop :=
  (∃ key, ruledKey e.localKey content = .ok key) ∧ ∃ key, ruledKey e.indexKey content = .ok key

/-- A node is put into a block exactly if the rules make keys of what it holds. -/
private theorem Page.exists_enclose_iff {page : Page} {e : Entry} {n : Node} {found : Outlined} :
    (∃ outer, page.enclose e n found = .ok outer) ↔ e.Makes n.content := by
  rw [enclose, Entry.Makes]
  by_cases bare : (e.localKey.isNone && e.indexKey.isNone) = true
  · rw [if_pos bare]
    rw [Bool.and_eq_true, Option.isNone_iff_eq_none, Option.isNone_iff_eq_none] at bare
    rw [bare.1, bare.2]
    exact iff_of_true ⟨found, rfl⟩ ⟨⟨none, rfl⟩, none, rfl⟩
  · rw [if_neg bare]
    cases ruledKey e.localKey n.content <;> cases ruledKey e.indexKey n.content <;>
      simp [bind, Except.bind, pure, Except.pure]

namespace Schema

/-- The slot has an entry that reads a node and its parts like the given one, as far as rules go. -/
structure Holds (S : Schema) (slot : Slot) (e : Entry) : Prop where
  lt : slot < S.size
  shape : (S.entry slot).shape = e.shape
  makes : ∀ content, (S.entry slot).Makes content ↔ e.Makes content

variable {B S T : Schema} {e t : Entry} {slot : Slot}

private theorem Holds.succeeds_enclose_iff (h : S.Holds slot e) {page : Page} {n : Node} {found : Outlined} :
    (Reading.ofExcept (page.enclose (S.entry slot) n found)).Succeeds T ↔ e.Makes n.content := by
  rw [succeeds_ofExcept_iff, Page.exists_enclose_iff, h.makes]

private theorem Holds.grow (h : S.Holds slot e) (grown : S.Grows T) : T.Holds slot e := by
  have entry := grown.entry_eq h.lt
  refine ⟨Nat.lt_of_lt_of_le h.lt grown.size, ?_, ?_⟩
  · rw [entry]
    exact h.shape
  · rw [entry]
    exact h.makes

theorem Holds.of_grows (grown : B.Grows S) (lt : slot < B.size) : S.Holds slot (B.entry slot) :=
  grow ⟨lt, rfl, fun _ => .rfl⟩ grown

private theorem Holds.push (shape : t.shape = e.shape) (makes : ∀ content, t.Makes content ↔ e.Makes content) :
    Holds (S.push t) S.size e := by
  refine ⟨by simp, ?_, ?_⟩
  · rw [entry_push, if_pos rfl, shape]
  · rw [entry_push, if_pos rfl]
    exact makes

/-! ### Entries of the parts of a node -/

/-- The entry for the items of a list, or for what is below a key. -/
def innerEntry (B : Schema) (e : Entry) : Entry :=
  match e.shape with
  | .each slot => B.entry slot
  | shape => { shape := shape }

/-- The entry for a key, by its name or by the name that stands for all. -/
def keyEntry (B : Schema) (members : List (String × Slot)) (key : String) : Entry :=
  ((members.lookup key).or (members.lookup anyName)).elim {} B.entry

/-- The node can be read by the entry: all keys in it are scalars, and the rules that meet it and its parts make keys of
what these hold. -/
inductive Admits (B : Schema) : Entry → Node → Prop where
  | scalar {e : Entry} {tag text : String} {start stop : Mark} (makes : e.Makes (.text text)) :
      Admits B e (.scalar tag text start stop)
  | sequence {e : Entry} {tag : String} {items : List Node} {start stop : Mark} (makes : e.Makes (.items items))
      (members : ∀ item ∈ items, Admits B (B.innerEntry e) item) : Admits B e (.sequence tag items start stop)
  | mapping {e : Entry} {tag : String} {pairs : List (Node × Node)} {start stop : Mark} (makes : e.Makes (.pairs pairs))
      (scalars : ∀ p ∈ pairs, p.1.isScalar = true)
      (keys : ∀ p ∈ pairs, (B.keyEntry e.shape.members (keyText p.1)).Makes (.text (keyText p.1)))
      (values : ∀ p ∈ pairs, Admits B (B.innerEntry (B.keyEntry e.shape.members (keyText p.1))) p.2) :
      Admits B e (.mapping tag pairs start stop)

theorem Admits.makes {n : Node} (h : B.Admits e n) : e.Makes n.content := by
  cases h with
  | scalar makes => exact makes
  | sequence makes _ => exact makes
  | mapping makes _ _ _ => exact makes

private theorem sound_innerEntry (sound : ∀ s < B.size, (B.entry s).Sound B) (own : e.Sound B) :
    (B.innerEntry e).Sound B := by
  rw [innerEntry]
  split
  · next shape => exact sound _ (own.each_lt shape)
  · exact ⟨own.members, fun refers => by cases refers⟩

private theorem sound_keyEntry (sound : ∀ s < B.size, (B.entry s).Sound B) {members : List (String × Slot)}
    (lt : ∀ p ∈ members, p.2 < B.size) (key : String) : (B.keyEntry members key).Sound B := by
  rw [keyEntry]
  cases found : (members.lookup key).or (members.lookup anyName) with
  | none => exact ⟨fun _ mem => absurd mem List.not_mem_nil, fun refers => by cases refers⟩
  | some slot =>
    rcases Option.or_eq_some_iff.1 found with named | ⟨_, any⟩
    · exact sound slot (lt _ (mem_of_lookup named))
    · exact sound slot (lt _ (mem_of_lookup any))

/-! ### Slots of the parts of a node -/

/-- The reading gives a slot for the entry, in a schema that has grown. -/
def Places (B : Schema) (x : Reading Slot) (S : Schema) (e : Entry) : Prop :=
  ∃ slot T, x.runFrom S = (.ok slot, T) ∧ B.Grows T ∧ T.Holds slot e

private theorem places_slotOr (own : e.Sound B) (grown : B.Grows S) (shape : t.shape = e.shape)
    (makes : ∀ content, t.Makes content) : B.Places (e.shape.slotOr t) S (B.innerEntry e) := by
  unfold innerEntry Shape.slotOr
  cases isShape : e.shape with
  | each slot => exact ⟨slot, S, rfl, grown, .of_grows grown (own.each_lt isShape)⟩
  | _ =>
    refine ⟨S.size, _, rfl, grown.trans (.push S _), .push (shape.trans isShape) fun content => ?_⟩
    exact iff_of_true (makes content) ⟨⟨none, rfl⟩, none, rfl⟩

private theorem places_keySlot {listing : Listing} (lt : ∀ p ∈ listing.members, p.2 < B.size) (grown : B.Grows S)
    (key : String) : B.Places (listing.keySlot key) S (B.keyEntry listing.members key) := by
  rw [Listing.keySlot, Listing.slot?, keyEntry]
  cases named : listing.members.lookup key with
  | some slot => exact ⟨slot, S, rfl, grown, .of_grows grown (lt _ (mem_of_lookup named))⟩
  | none =>
    cases any : listing.members.lookup anyName with
    | some slot => exact ⟨slot, S, rfl, grown, .of_grows grown (lt _ (mem_of_lookup any))⟩
    | none => exact ⟨S.size, _, rfl, grown.trans (.push S _), .push rfl fun _ => .rfl⟩

/-- A rule for references is given to an entry without a rule only, and it makes a key of everything. -/
private theorem Holds.places_referringSlot (h : S.Holds slot e) (grown : B.Grows S) (listing : Listing) (key : String) :
    B.Places (listing.referringSlot key slot) S e := by
  rw [Places, Listing.referringSlot]
  split
  · exact ⟨slot, S, rfl, grown, h⟩
  · next reference _ =>
    rw [Reading.runFrom_bind, Reading.runFrom_entry]
    dsimp only
    split
    · next named =>
      rw [Bool.and_eq_true, Option.isNone_iff_eq_none] at named
      refine ⟨S.size, _, rfl, grown.trans (.push S _), .push h.shape fun content => ?_⟩
      rw [← h.makes, Entry.Makes, Entry.Makes, named.2]
      exact and_congr_right fun _ => iff_of_true ⟨some reference, rfl⟩ ⟨none, rfl⟩
    · exact ⟨slot, S, rfl, grown, h⟩

private theorem Holds.places_valueSlot (h : S.Holds slot e) (own : e.Sound B) (grown : B.Grows S) (listing : Listing)
    (key : String) : B.Places (Page.valueSlot slot listing key) S (B.innerEntry e) := by
  obtain ⟨inner, T, placed, more, holds⟩ :=
    places_slotOr (t := (S.entry slot).forValue) own grown h.shape fun _ => ⟨⟨none, rfl⟩, none, rfl⟩
  have referring := holds.places_referringSlot more listing key
  rw [Places, Page.valueSlot_eq, Reading.runFrom_bind, Reading.runFrom_entry]
  dsimp only
  rw [Entry.innerSlot_eq, h.shape, Reading.runFrom_bind, placed]
  exact referring

end Schema

/-! ### Nodes on a page -/

namespace Page

/-- The lines of a scalar are on the page, and it is no expression. -/
structure Shows (page : Page) (text : String) (start stop : Mark) : Prop where
  ordered : start.line ≤ stop.line
  upto : stop.line ≤ page.lines.length
  plain : text.toList.head? ≠ some '='

/-- All scalars of the node are on the page, and none is an expression. -/
abbrev Carries (page : Page) (n : Node) : Prop :=
  n.Every page.Shows fun _ _ => True

variable {page : Page}

private theorem exists_line {n : Nat} (lt : n < page.lines.length) : ∃ text, page.line n = .ok text := by
  rw [line, List.getElem?_eq_getElem lt]
  exact ⟨_, rfl⟩

private theorem Shows.exists_firstLength (h : page.Shows text start stop) :
    ∃ length, page.firstLength start stop = .ok length := by
  have upto := h.upto
  rw [firstLength]
  by_cases same : start.line = stop.line
  · rw [if_pos (beq_iff_eq.2 same)]
    exact ⟨_, rfl⟩
  · have before := h.ordered
    obtain ⟨text, isLine⟩ := exists_line (show start.line < page.lines.length by omega)
    rw [if_neg (fun h => same (beq_iff_eq.1 h)), isLine]
    exact ⟨_, rfl⟩

/-- A scalar on the page has an outline exactly if its entry makes keys of its text. -/
private theorem Shows.exists_scalar_iff (h : page.Shows text start stop) (e : Entry) (last : Position)
    (remark : Option Remark) :
    (∃ found, page.scalar e text start stop last remark = .ok found) ↔ e.Makes (.text text) := by
  constructor
  · rintro ⟨found, made⟩
    obtain ⟨_, _, ⟨_, localKey, indexKey, _, isLocal, isIndex, _⟩, _⟩ := scalar_eq_ok made
    exact ⟨⟨localKey, isLocal⟩, indexKey, isIndex⟩
  · rintro ⟨⟨localKey, isLocal⟩, indexKey, isIndex⟩
    obtain ⟨length, isLength⟩ := h.exists_firstLength
    refine ⟨_, scalar_of_tokens isLength isLocal isIndex (furtherTokens_eq_ok_iff.2 ⟨fun n mem => ?_, rfl⟩)⟩
    have upto := h.upto
    rw [List.mem_range'_1] at mem
    omega

variable {B S : Schema} {e : Entry} {slot : Slot}

private theorem Shows.succeeds_scalarBy_iff (h : page.Shows text start stop) (holds : S.Holds slot e) (tag : String)
    (last : Position) (remark : Option Remark) :
    (page.scalarBy slot tag text start stop last remark).Succeeds S ↔ e.Makes (.text text) := by
  rw [← holds.makes]
  show _ ↔ ((S.entry slot).ofTag tag).Makes (.text text)
  rw [← h.exists_scalar_iff ((S.entry slot).ofTag tag) last remark, Reading.Succeeds]
  simp only [runFrom_scalarBy _ _ _ _ _ _ _ _ false _ rfl, ScalarReading.outlined, ScalarReading.isExpression,
    beq_eq_false_iff_ne.2 h.plain, Bool.and_false, Bool.false_eq_true, if_false, Prod.mk.injEq, exists_and_left,
    exists_eq', and_true]

private theorem Shows.succeeds_keyBy_iff (h : page.Shows text start stop) (holds : S.Holds slot e) (tag : String)
    (last : Position) (remark : Option Remark) :
    (page.keyBy slot tag text start stop last remark).Succeeds S ↔ e.Makes (.text text) := by
  rw [keyBy, succeeds_bind_of_run (Reading.runFrom_settle slot .keyword S)]
  exact h.succeeds_scalarBy_iff (holds.grow (.settle S slot (.inl (.inl rfl)))) tag last remark

/-! ### Collections -/

/-- The items of a list can be read exactly if each of them can be read from whatever the schema has become. -/
private theorem succeeds_items_iff {members : List Node} {P : Node → Prop} (grown : B.Grows S) (holds : S.Holds slot e)
    (each : ∀ n ∈ members, ∀ {S : Schema} (last : Position), B.Grows S → S.Holds slot e →
      ((page.node slot last n).Succeeds S ↔ P n)) (last : Position) :
    (page.items slot last members).Succeeds S ↔ ∀ n ∈ members, P n := by
  induction members generalizing S last with
  | nil => exact iff_of_true ⟨_, _, rfl⟩ (List.forall_mem_nil _)
  | cons n members ih =>
    obtain ⟨first, others⟩ := List.forall_mem_cons.1 each
    rw [items, List.forall_mem_cons, ← first last grown holds]
    refine succeeds_bind_iff fun found T run => ?_
    have more : S.Grows T := (page.growing_node slot last n).grows run
    rw [← ih (grown.trans more) (holds.grow more) others found.2]
    exact succeeds_bind_pure_iff

/-- The pairs of a mapping can be read exactly if the keys in it are scalars of which keys can be made, and each value
can be read from whatever the schema has become. -/
private theorem succeeds_pairs_iff {members : List (Node × Node)} {listing : Listing} {P : Node × Node → Prop}
    (sound : ∀ s < B.size, (B.entry s).Sound B) (lt : ∀ p ∈ listing.members, p.2 < B.size) (grown : B.Grows S)
    (keys : ∀ p ∈ members, page.Carries p.1)
    (each : ∀ p ∈ members, ∀ {S : Schema} {slot : Slot} (last : Position), B.Grows S →
      S.Holds slot (B.innerEntry (B.keyEntry listing.members (keyText p.1))) →
      ((page.node slot last p.2).Succeeds S ↔ P p)) (seen : List String) (last : Position) :
    (page.pairs listing seen last members).Succeeds S ↔
      ∀ p ∈ members, p.1.isScalar = true ∧
        (B.keyEntry listing.members (keyText p.1)).Makes (.text (keyText p.1)) ∧ P p := by
  induction members generalizing S seen last with
  | nil => exact iff_of_true ⟨_, _, rfl⟩ (List.forall_mem_nil _)
  | cons p members ih =>
    obtain ⟨k, value⟩ := p
    obtain ⟨key, moreKeys⟩ := List.forall_mem_cons.1 keys
    obtain ⟨first, others⟩ := List.forall_mem_cons.1 each
    rw [List.forall_mem_cons]
    cases key with
    | @scalar tag text start stop shows =>
      have isKey : (Node.scalar tag text start stop).isScalar = true := rfl
      obtain ⟨keySlot, T, placed, grown, holds⟩ := Schema.places_keySlot lt grown text
      rw [pairs_cons, and_assoc, and_iff_right isKey, and_assoc, succeeds_bind_of_run placed, keyText,
        ← shows.succeeds_keyBy_iff holds tag last (listing.remark seen text)]
      -- whatever schema the key leaves, the entry for its value is the one from `B`
      refine succeeds_bind_iff fun found U run => ?_
      have read : T.Grows U := (page.growing_keyBy _ _ _ _ _ _ _).grows run
      obtain ⟨valueSlot, V, placed, grown, holds⟩ :=
        (holds.grow read).places_valueSlot (B.sound_keyEntry sound lt text) (grown.trans read) listing text
      rw [succeeds_bind_of_run placed, ← first found.2 grown holds]
      refine succeeds_bind_iff fun children W run => ?_
      have more := grown.trans ((page.growing_node valueSlot found.2 value).grows run)
      rw [← ih more moreKeys others (text :: seen) children.2]
      exact succeeds_bind_pure_iff
    | _ =>
      refine iff_of_false ?_ fun all => by cases all.1.1
      rintro ⟨_, _, run⟩
      cases run

/-- A node has outlines exactly if the schema admits it. -/
theorem Carries.succeeds_iff {n : Node} (carried : page.Carries n) (sound : ∀ s < B.size, (B.entry s).Sound B)
    (own : e.Sound B) (grown : B.Grows S) (holds : S.Holds slot e) (last : Position) :
    (page.node slot last n).Succeeds S ↔ B.Admits e n := by
  induction carried generalizing e S slot last with
  | scalar shows =>
    rw [node, shows.succeeds_scalarBy_iff holds]
    exact ⟨.scalar, fun admitted => admitted.makes⟩
  | @sequence tag items start stop _ members ih =>
    obtain ⟨inner, T, placed, more, inside⟩ :=
      Schema.places_slotOr (t := { shape := e.shape }) own grown rfl fun _ => ⟨⟨none, rfl⟩, none, rfl⟩
    rw [← holds.shape, ← itemSlot_eq] at placed
    rw [node, succeeds_bind_of_run (Reading.runFrom_entry slot S), succeeds_bind_of_run placed,
      succeeds_bind_iff fun found U _ => holds.succeeds_enclose_iff,
      succeeds_items_iff more inside fun item mem _ last grown holds =>
        ih item mem (B.sound_innerEntry sound own) grown holds last]
    constructor
    · rintro ⟨members, makes⟩
      exact .sequence makes members
    · intro admitted
      cases admitted with
      | sequence makes members => exact ⟨members, makes⟩
  | @mapping tag pairs start stop _ keys values _ ih =>
    obtain ⟨listing, listed⟩ := (S.entry slot).exists_listing pairs
    have isMembers : listing.members = e.shape.members := by
      obtain ⟨reference, rfl, _⟩ := Entry.listing_eq_ok listed
      rw [holds.shape]
    have lt : ∀ p ∈ listing.members, p.2 < B.size := by
      rw [isMembers]
      exact own.members
    have isListing : (Reading.ofExcept ((S.entry slot).listing pairs)).runFrom S = (.ok listing, S) := by
      rw [listed]
      rfl
    rw [node, succeeds_bind_of_run (Reading.runFrom_entry slot S), succeeds_bind_of_run isListing,
      succeeds_bind_iff fun found U _ => holds.succeeds_enclose_iff,
      succeeds_pairs_iff sound lt grown keys fun p mem _ _ last grown holds =>
        ih p mem (B.sound_innerEntry sound (B.sound_keyEntry sound lt _)) grown holds last, isMembers]
    constructor
    · rintro ⟨members, makes⟩
      exact .mapping makes (fun p mem => (members p mem).1) (fun p mem => (members p mem).2.1)
        fun p mem => (members p mem).2.2
    · intro admitted
      cases admitted with
      | mapping makes scalars keys values => exact ⟨fun p mem => ⟨scalars p mem, keys p mem, values p mem⟩, makes⟩

/-- A root is read like any other node, if its own entry cannot fail. -/
theorem succeeds_root_iff {n : Node} (makes : (S.entry slot).Makes n.content) (last : Position) :
    (page.root slot last n).Succeeds S ↔ (page.node slot last n).Succeeds S := by
  rw [Reading.Succeeds, Reading.Succeeds, runFrom_node]
  rcases (page.root slot last n).runFrom S with ⟨_ | found, T⟩
  · simp
  · refine iff_of_true ⟨found, T, rfl⟩ ?_
    dsimp only
    split
    · obtain ⟨outer, made⟩ := exists_enclose_iff.2 makes
      exact ⟨outer, T, by rw [made]⟩
    · exact ⟨found, T, rfl⟩

end Page

end ManifestLens
