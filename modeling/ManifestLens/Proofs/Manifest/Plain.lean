import ManifestLens.Proofs.Manifest.Elsewhere
import ManifestLens.Proofs.Manifest.Quiet

/-!
# Plain entries

An entry is plain if it and all entries that it refers to have a kind, make no index keys and refer to no resource
(`Schema.Plain`).  Reading with plain entries leaves them as they are, and what is read with them has no name in the
index (`Reads.namesIn_eq_nil`).  Whether something can be read with them depends neither on what was read before nor on
the position that is handed to it (`Reads.transplant`).
-/

namespace ManifestLens

open Yaml (Mark Node)

variable {key : String} {listing : Listing} {inner s s' slot : Slot}

/-- The entry itself has a kind, makes no index keys and refers to no resource. -/
def Entry.isPlain (e : Entry) : Bool :=
  e.kind != .unset && e.indexKey.isNone && !e.refers

namespace Schema

/-- The entry in the slot is plain, and so are those that it refers to. -/
inductive Plain (B : Schema) : Slot → Prop
  | intro {slot : Slot} (lt : slot < B.size) (plain : (B.entry slot).isPlain = true)
      (members : ∀ p ∈ (B.entry slot).shape.members, Plain B p.2) : Plain B slot

/-- An entry with a kind keeps it. -/
private theorem settle_of_set {S : Schema} (set : (S.entry s).kind ≠ .unset) (kind : TokenKind) :
    S.settle s kind = S := by
  apply Array.ext_getElem?
  intro i
  rw [settle, Array.getElem?_modify]
  split
  · next at_slot =>
    subst at_slot
    rw [entry] at set
    cases here : S[s]? with
    | none => rfl
    | some e =>
      rw [here, Option.getD_some] at set
      rw [Option.map_some, if_neg (fun h => set (beq_iff_eq.1 h))]
  · rfl

namespace Plain

variable {B S : Schema}

private theorem lt (h : B.Plain slot) : slot < B.size := by
  cases h with
  | intro lt _ _ => exact lt

private theorem isPlain (h : B.Plain slot) : (B.entry slot).isPlain = true := by
  cases h with
  | intro _ plain _ => exact plain

theorem members (h : B.Plain slot) : ∀ p ∈ (B.entry slot).shape.members, B.Plain p.2 := by
  cases h with
  | intro _ _ members => exact members

theorem kind (h : B.Plain slot) : (B.entry slot).kind ≠ .unset := by
  have plain := h.isPlain
  rw [Entry.isPlain, Bool.and_eq_true, Bool.and_eq_true, bne_iff_ne] at plain
  exact plain.1.1

theorem indexKey (h : B.Plain slot) : (B.entry slot).indexKey = none := by
  have plain := h.isPlain
  rw [Entry.isPlain, Bool.and_eq_true, Bool.and_eq_true, Option.isNone_iff_eq_none] at plain
  exact plain.1.2

theorem refers (h : B.Plain slot) : (B.entry slot).refers = false := by
  have plain := h.isPlain
  rw [Entry.isPlain, Bool.and_eq_true, Bool.not_eq_true'] at plain
  exact plain.2

/-- A plain entry stays as it is. -/
theorem entry_eq (h : B.Plain slot) (grown : B.Grows S) : S.entry slot = B.entry slot := by
  rw [grown.entry_eq h.lt, grown.kind_eq h.lt h.kind]

end Plain

/-- The entry in the slot makes no index keys and refers to no resource, and all that it lists is plain in the schema
before. -/
structure Silent (B S : Schema) (slot : Slot) : Prop where
  lt : slot < S.size
  indexKey : (S.entry slot).indexKey = none
  refers : (S.entry slot).refers = false
  members : ∀ p ∈ (S.entry slot).shape.members, B.Plain p.2

private theorem Plain.silent {B S : Schema} (h : B.Plain slot) (grown : B.Grows S) : B.Silent S slot := by
  have same := h.entry_eq grown
  refine ⟨Nat.lt_of_lt_of_le h.lt grown.size, ?_, ?_, ?_⟩
  · rw [same, h.indexKey]
  · rw [same, h.refers]
  · rw [same]
    exact h.members

namespace Silent

variable {B S T : Schema}

theorem grow (h : B.Silent S slot) (grown : S.Grows T) : B.Silent T slot := by
  have same := grown.entry_eq h.lt
  refine ⟨Nat.lt_of_lt_of_le h.lt grown.size, ?_, ?_, ?_⟩
  · rw [same]
    exact h.indexKey
  · rw [same]
    exact h.refers
  · rw [same]
    exact h.members

private theorem push {e : Entry} (indexKey : e.indexKey = none) (refers : e.refers = false)
    (members : ∀ p ∈ e.shape.members, B.Plain p.2) : B.Silent (S.push e) S.size := by
  have same : Schema.entry (S.push e) S.size = e := by rw [entry_push, if_pos rfl]
  refine ⟨by simp, ?_, ?_, ?_⟩
  · rw [same, indexKey]
  · rw [same, refers]
  · rw [same]
    exact members

/-- What an entry on plain ones has for all names. -/
private theorem of_each {e : Entry} (members : ∀ p ∈ e.shape.members, B.Plain p.2) (grown : B.Grows S)
    (shape : e.shape = .each inner) : B.Silent S inner :=
  (members (anyName, inner) (by rw [shape]; exact List.mem_singleton_self _)).silent grown

private theorem slotOr {e fresh : Entry} (members : ∀ p ∈ e.shape.members, B.Plain p.2) (grown : B.Grows S)
    (placed : (e.shape.slotOr fresh).runFrom S = (.ok inner, T)) (indexKey : fresh.indexKey = none)
    (refers : fresh.refers = false) (same : fresh.shape = e.shape) : B.Silent T inner := by
  unfold Shape.slotOr at placed
  split at placed
  · next shape =>
    cases placed
    exact of_each members grown shape
  · cases placed
    exact .push indexKey refers (same ▸ members)

theorem itemSlot {e : Entry} (members : ∀ p ∈ e.shape.members, B.Plain p.2) (grown : B.Grows S)
    (placed : (Page.itemSlot e).runFrom S = (.ok inner, T)) : B.Silent T inner := by
  rw [Page.itemSlot_eq] at placed
  exact slotOr members grown placed rfl rfl rfl

/-- The value of a key is read with such an entry, if it is not found by what the mapping refers to. -/
theorem valueSlot (h : B.Silent S slot) (grown : B.Grows S) (unnamed : listing.reference = none ∨ key ≠ "name")
    (placed : (Page.valueSlot slot listing key).runFrom S = (.ok inner, T)) : B.Silent T inner := by
  rw [Page.valueSlot_eq] at placed
  obtain ⟨entry, _, same, placed⟩ := Reading.runFrom_bind_eq_ok_iff.1 placed
  cases same
  obtain ⟨middle, U, first, placed⟩ := Reading.runFrom_bind_eq_ok_iff.1 placed
  rw [Entry.innerSlot_eq] at first
  have silent := slotOr h.members grown first rfl rfl rfl
  rw [Listing.referringSlot] at placed
  split at placed
  · cases placed
    exact silent
  · next reference found =>
    have other : (key == "name") = false := by
      rw [found] at unnamed
      exact beq_eq_false_iff_ne.2 (unnamed.resolve_left (fun h => by cases h))
    rw [Reading.runFrom_bind, Reading.runFrom_entry] at placed
    dsimp only at placed
    rw [other, Bool.false_and] at placed
    cases placed
    exact silent

end Silent

end Schema

/-- The slot of a key that is listed as a plain entry or not listed. -/
theorem Listing.silent_keySlot {B S T : Schema} (plain : ∀ p ∈ listing.members, B.Plain p.2) (grown : B.Grows S)
    (placed : (listing.keySlot key).runFrom S = (.ok slot, T)) : B.Silent T slot := by
  rcases Listing.keySlot_cases placed with ⟨found, rfl⟩ | ⟨_, ⟨found, rfl⟩ | ⟨rfl, rfl⟩⟩
  · exact (plain _ (mem_of_lookup found)).silent grown
  · exact (plain _ (mem_of_lookup found)).silent grown
  · exact .push rfl rfl fun _ mem => absurd mem List.not_mem_nil

/-! ### Names -/

/-- The names of pieces in the index. -/
def namesIn (pieces : List Piece) : List String :=
  pieces.flatMap Piece.names

private theorem namesIn_append (a b : List Piece) : namesIn (a ++ b) = namesIn a ++ namesIn b :=
  List.flatMap_append

theorem namesIn_cons (piece : Piece) (rest : List Piece) : namesIn (piece :: rest) = piece.names ++ namesIn rest :=
  List.flatMap_cons

/-- A scalar without a rule for index keys has no name. -/
private theorem ScalarReading.names_eq_nil {r : ScalarReading} {found : Outlined} (made : r.outlined = .ok found)
    (noRule : r.entry.indexKey = none) : Outline.names found.1 = [] := by
  rcases names_eq made with ⟨_, none⟩ | ⟨_, key, ruled, names⟩
  · exact none
  · rw [noRule] at ruled
    cases ruled
    rw [names, List.filterMap_replicate_of_none rfl]

/-- A key that is read with a silent entry has no name. -/
theorem names_key {page : Page} {r : ScalarReading} {B S : Schema} {tag text : String} {start stop : Mark}
    {last mid : Position} {remark : Option Remark} {outlines children : List Outline}
    (read : r = ⟨page, slot, ((S.settle slot .keyword).entry slot).ofTag tag, true, text, start, stop, last, remark⟩)
    (made : r.outlined = .ok (outlines, mid)) (silent : B.Silent S slot) :
    (Piece.scalar r (Page.below outlines children)).names = [] := by
  have noRule : r.entry.indexKey = none := by
    have grown : S.Grows (S.settle slot .keyword) := .settle S slot (.inl (.inl rfl))
    rw [read]
    exact (silent.grow grown).indexKey
  rw [List.eq_nil_iff_forall_not_mem]
  intro name mem
  have named := ScalarReading.mem_names_of_below made mem
  rw [ScalarReading.names_eq_nil made noRule] at named
  cases named

/-- What is read is read with silent entries. -/
def Input.Silent (B S : Schema) : Input → Prop
  | .root slot _ => B.Silent S slot
  | .node slot _ => B.Silent S slot
  | .items slot _ => B.Silent S slot
  | .pairs listing _ _ => listing.reference = none ∧ ∀ p ∈ listing.members, B.Plain p.2

namespace Reads

variable {page : Page} {input : Input} {B S T : Schema} {last : Position} {pieces : List Piece} {found : Outlined}

/-- Nothing that is read with silent entries has a name in the index. -/
theorem namesIn_eq_nil (h : Reads page input S last pieces found T) (grown : B.Grows S) (silent : input.Silent B S) :
    namesIn pieces = [] := by
  induction h with
  | scalar read made =>
    rw [namesIn, List.flatMap_singleton]
    refine ScalarReading.names_eq_nil made ?_
    rw [read]
    exact Schema.Silent.indexKey silent
  | sequence placed items ih =>
    exact ih (grown.trans ((Page.growing_itemSlot _).grows placed))
      (.itemSlot (Schema.Silent.members silent) grown placed)
  | mapping listed pairs ih =>
    obtain ⟨reference, rfl, ⟨_, rfl⟩ | ⟨refers, _⟩⟩ := Entry.listing_eq_ok listed
    · exact ih grown ⟨rfl, Schema.Silent.members silent⟩
    · rw [Schema.Silent.refers silent] at refers
      cases refers
  | bare _ root ih => exact ih grown silent
  | enclosed encloses localRule indexRule root ih =>
    rw [Schema.Silent.indexKey silent] at indexRule
    cases indexRule
    rw [namesIn_cons, ih grown silent]
    rfl
  | noItems => rfl
  | item node items ihn ihi =>
    rw [namesIn_append, ihn grown silent,
      ihi (grown.trans node.grows) (Schema.Silent.grow silent node.grows), List.append_nil]
  | noPairs => rfl
  | pair placed read made valuePlaced node pairs ihn ihp =>
    obtain ⟨unnamed, plain⟩ := silent
    have slot := Listing.silent_keySlot plain grown placed
    have keyGrown := grown.trans ((Page.growing_keySlot _ _).grows placed)
    have readGrown := keyGrown.trans (grows_key read)
    have valueGrown := readGrown.trans ((Page.growing_valueSlot _ _ _).grows valuePlaced)
    have value := (slot.grow (grows_key read)).valueSlot readGrown (.inl unnamed) valuePlaced
    rw [List.cons_append, namesIn_cons, namesIn_append, names_key read made slot, ihn valueGrown value,
      ihp (valueGrown.trans node.grows) ⟨unnamed, plain⟩]
    rfl

end Reads

/-! ### Reading with another past -/

/-- Two schemas that have grown from one, and the number of entries that each had at some time; those that were added
since then are the same. -/
structure Schema.Twins (B : Schema) (n n' : Nat) (F F' : Schema) : Prop where
  grown : B.Grows F
  grown' : B.Grows F'
  le : B.size ≤ n
  le' : B.size ≤ n'
  size : ∃ added, F.size = n + added ∧ F'.size = n' + added
  entry : ∀ i, n + i < F.size → F'.entry (n' + i) = F.entry (n + i)
  members : ∀ i, n + i < F.size → ∀ p ∈ (F.entry (n + i)).shape.members, B.Plain p.2

/-- The slots of the same entry in two such schemas. -/
inductive Schema.SameSlot (B : Schema) (n n' : Nat) (F : Schema) : Slot → Slot → Prop
  | plain {s : Slot} (plain : B.Plain s) : SameSlot B n n' F s s
  | added {i : Nat} (lt : n + i < F.size) : SameSlot B n n' F (n + i) (n' + i)

namespace Schema.Twins

variable {B F F' : Schema} {n n' : Nat}

/-- Nothing was added yet. -/
theorem start (grown : B.Grows F) (grown' : B.Grows F') : B.Twins F.size F'.size F F' :=
  ⟨grown, grown', grown.size, grown'.size, ⟨0, rfl, rfl⟩, fun i lt => absurd lt (by omega),
    fun i lt => absurd lt (by omega)⟩

private theorem entry_eq (h : B.Twins n n' F F') (same : B.SameSlot n n' F s s') : F'.entry s' = F.entry s := by
  cases same with
  | plain plain => rw [plain.entry_eq h.grown', plain.entry_eq h.grown]
  | added lt => exact h.entry _ lt

private theorem forall_members (h : B.Twins n n' F F') (same : B.SameSlot n n' F s s') :
    ∀ p ∈ (F.entry s).shape.members, B.Plain p.2 := by
  cases same with
  | plain plain =>
    rw [plain.entry_eq h.grown]
    exact plain.members
  | added lt => exact h.members _ lt

private theorem sameSlot_size (h : B.Twins n n' F F') (e : Entry) : B.SameSlot n n' (F.push e) F.size F'.size := by
  obtain ⟨added, size, size'⟩ := h.size
  rw [size, size']
  exact .added (by rw [Array.size_push]; omega)

private theorem push (h : B.Twins n n' F F') {e : Entry} (members : ∀ p ∈ e.shape.members, B.Plain p.2) :
    B.Twins n n' (F.push e) (F'.push e) := by
  obtain ⟨added, size, size'⟩ := h.size
  have here : ∀ i, n + i < (F.push e).size → (n + i = F.size ∧ n' + i = F'.size) ∨
      (n + i < F.size ∧ n + i ≠ F.size ∧ n' + i ≠ F'.size) := by
    intro i lt
    rw [Array.size_push] at lt
    omega
  refine ⟨h.grown.trans (.push F e), h.grown'.trans (.push F' e), h.le, h.le', ⟨added + 1, ?_, ?_⟩, ?_, ?_⟩
  · rw [Array.size_push]
    omega
  · rw [Array.size_push]
    omega
  · intro i lt
    rw [entry_push, entry_push]
    rcases here i lt with ⟨new, new'⟩ | ⟨old, ne, ne'⟩
    · rw [if_pos new, if_pos new']
    · rw [if_neg ne, if_neg ne']
      exact h.entry i old
  · intro i lt
    rw [entry_push]
    rcases here i lt with ⟨new, _⟩ | ⟨old, ne, _⟩
    · rw [if_pos new]
      exact members
    · rw [if_neg ne]
      exact h.members i old

private theorem settle (h : B.Twins n n' F F') (same : B.SameSlot n n' F s s') {kind : TokenKind}
    (settles : kind.IsSettled ∨ (F.entry s).kind ≠ .unset) :
    B.Twins n n' (F.settle s kind) (F'.settle s' kind) := by
  have settles' : kind.IsSettled ∨ (F'.entry s').kind ≠ .unset := by rwa [h.entry_eq same]
  cases same with
  | plain plain =>
    have set : (B.entry s).kind ≠ .unset := plain.kind
    rw [settle_of_set (by rwa [plain.entry_eq h.grown]), settle_of_set (by rwa [plain.entry_eq h.grown'])]
    exact h
  | @added j lt =>
    obtain ⟨added, size, size'⟩ := h.size
    refine ⟨h.grown.trans (.settle F _ settles), h.grown'.trans (.settle F' _ settles'), h.le, h.le',
      ⟨added, ?_, ?_⟩, ?_, ?_⟩
    · rw [size_settle, size]
    · rw [size_settle, size']
    · intro i lt'
      rw [size_settle] at lt'
      rw [entry_settle kind lt', entry_settle kind (by omega), h.entry i lt']
      simp only [Nat.add_left_cancel_iff]
    · intro i lt'
      rw [size_settle] at lt'
      rw [entry_settle kind lt']
      have members := h.members i lt'
      split
      · rw [Entry.settled]
        split <;> exact members
      · exact members

/-! ### Slots -/

private theorem keySlot {G : Schema} (h : B.Twins n n' F F') (plain : ∀ p ∈ listing.members, B.Plain p.2)
    (placed : (listing.keySlot key).runFrom F = (.ok s, G)) :
    ∃ s' G', (listing.keySlot key).runFrom F' = (.ok s', G') ∧ B.Twins n n' G G' ∧ B.SameSlot n n' G s s' := by
  have listed : ∀ slot, listing.slot? key = some slot → B.Plain slot := by
    intro slot found
    rw [Listing.slot?] at found
    split at found
    · next here =>
      cases found
      exact plain _ (mem_of_lookup here)
    · exact plain _ (mem_of_lookup found)
  rw [Listing.keySlot] at placed ⊢
  cases found : listing.slot? key with
  | none =>
    rw [found] at placed
    cases placed
    exact ⟨_, _, rfl, h.push fun _ mem => absurd mem List.not_mem_nil, h.sameSlot_size _⟩
  | some slot =>
    rw [found] at placed
    cases placed
    exact ⟨_, _, rfl, h, .plain (listed _ found)⟩

/-- An entry is shared, or a new one is made of it. -/
private theorem slotOr {G : Schema} {fresh : Entry} (h : B.Twins n n' F F') (same : B.SameSlot n n' F s s')
    (placed : ((F.entry s).shape.slotOr fresh).runFrom F = (.ok inner, G)) (shape : fresh.shape = (F.entry s).shape) :
    ∃ inner' G', ((F.entry s).shape.slotOr fresh).runFrom F' = (.ok inner', G') ∧ B.Twins n n' G G' ∧
      B.SameSlot n n' G inner inner' := by
  have members := h.forall_members same
  rw [← shape] at members
  unfold Shape.slotOr at placed ⊢
  split at placed
  · next each =>
    cases placed
    rw [shape, each] at members
    exact ⟨_, _, rfl, h, .plain (members _ (List.mem_singleton_self _))⟩
  · cases placed
    exact ⟨_, _, rfl, h.push members, h.sameSlot_size _⟩

private theorem referringSlot {G : Schema} (h : B.Twins n n' F F') (same : B.SameSlot n n' F s s')
    (placed : (listing.referringSlot key s).runFrom F = (.ok inner, G)) :
    ∃ inner' G', (listing.referringSlot key s').runFrom F' = (.ok inner', G') ∧ B.Twins n n' G G' ∧
      B.SameSlot n n' G inner inner' := by
  rw [Listing.referringSlot] at placed ⊢
  cases reference : listing.reference with
  | none =>
    rw [reference] at placed
    cases placed
    exact ⟨_, _, rfl, h, same⟩
  | some key =>
    rw [reference] at placed
    rw [Reading.runFrom_bind, Reading.runFrom_entry] at placed ⊢
    dsimp only at placed ⊢
    rw [h.entry_eq same]
    split at placed
    · next named =>
      cases placed
      rw [if_pos named]
      exact ⟨_, _, rfl, h.push (h.forall_members same), h.sameSlot_size _⟩
    · next unnamed =>
      cases placed
      rw [if_neg unnamed]
      exact ⟨_, _, rfl, h, same⟩

private theorem valueSlot {G : Schema} (h : B.Twins n n' F F') (same : B.SameSlot n n' F s s')
    (placed : (Page.valueSlot s listing key).runFrom F = (.ok inner, G)) :
    ∃ inner' G', (Page.valueSlot s' listing key).runFrom F' = (.ok inner', G') ∧ B.Twins n n' G G' ∧
      B.SameSlot n n' G inner inner' := by
  rw [Page.valueSlot_eq] at placed ⊢
  obtain ⟨entry, _, here, placed⟩ := Reading.runFrom_bind_eq_ok_iff.1 placed
  cases here
  obtain ⟨middle, U, first, placed⟩ := Reading.runFrom_bind_eq_ok_iff.1 placed
  rw [Entry.innerSlot_eq] at first
  obtain ⟨middle', U', first', twins, sameInner⟩ := h.slotOr same first rfl
  obtain ⟨inner', G', placed', twins, sameSlot⟩ := twins.referringSlot sameInner placed
  rw [Reading.runFrom_bind, Reading.runFrom_entry]
  dsimp only
  rw [h.entry_eq same, Entry.innerSlot_eq, Reading.runFrom_bind, first']
  exact ⟨inner', G', placed', twins, sameSlot⟩

/-- A scalar is read with the same entry, and leaves the schemas alike. -/
private theorem scalar (h : B.Twins n n' F F') (same : B.SameSlot n n' F s s') {page : Page} {tag text : String}
    {isKey : Bool} {start stop : Mark} {last : Position} {remark : Option Remark} {r : ScalarReading}
    (read : r = ⟨page, s, (F.entry s).ofTag tag, isKey, text, start, stop, last, remark⟩) (last' : Position) :
    (r.at s').handed last' = ⟨page, s', (F'.entry s').ofTag tag, isKey, text, start, stop, last', remark⟩ ∧
      B.Twins n n' (r.settle F) (((r.at s').handed last').settle F') := by
  have slot : r.slot = s := by rw [read]
  have entry : r.entry = (F.entry s).ofTag tag := by rw [read]
  refine ⟨by rw [read, h.entry_eq same]; rfl, ?_⟩
  have settle' : ((r.at s').handed last').settle F' = if r.isExpression then F' else F'.settle s' r.entry.kind := rfl
  rw [settle', ScalarReading.settle, slot]
  split
  · exact h
  · refine h.settle same ?_
    rw [entry]
    exact Entry.kind_ofTag _ _

end Schema.Twins

private theorem Schema.SameSlot.mono {B F G : Schema} {n n' : Nat} (h : B.SameSlot n n' F s s') (le : F.size ≤ G.size) :
    B.SameSlot n n' G s s' := by
  cases h with
  | plain plain => exact .plain plain
  | added lt => exact .added (Nat.lt_of_lt_of_le lt le)

/-- The same input with the slots of another schema. -/
inductive Input.Same (B : Schema) (n n' : Nat) (F : Schema) : Input → Input → Prop
  | root {s s' : Slot} {m : Node} (same : B.SameSlot n n' F s s') : Same B n n' F (.root s m) (.root s' m)
  | node {s s' : Slot} {m : Node} (same : B.SameSlot n n' F s s') : Same B n n' F (.node s m) (.node s' m)
  | items {s s' : Slot} {members : List Node} (same : B.SameSlot n n' F s s') :
      Same B n n' F (.items s members) (.items s' members)
  | pairs {listing : Listing} {seen : List String} {members : List (Node × Node)}
      (plain : ∀ p ∈ listing.members, B.Plain p.2) :
      Same B n n' F (.pairs listing seen members) (.pairs listing seen members)

/-- What can be read with plain entries can be read from any other position and after whatever else was read. -/
theorem Reads.transplant {page : Page} {input input' : Input} {B F F' G : Schema} {n n' : Nat} {last : Position}
    {pieces : List Piece} {found : Outlined} (h : Reads page input F last pieces found G) (twins : B.Twins n n' F F')
    (same : Input.Same B n n' F input input') (last' : Position) :
    ∃ pieces' found' G', Reads page input' F' last' pieces' found' G' ∧ B.Twins n n' G G' := by
  induction h generalizing F' input' last' with
  | scalar read made =>
    cases same with
    | root same =>
      obtain ⟨read', twins⟩ := twins.scalar same read last'
      obtain ⟨found', made', _⟩ := ScalarReading.exists_outlined_handed made last'
      exact ⟨_, found', _, .scalar read' made', twins⟩
  | sequence placed items ih =>
    cases same with
    | root same =>
      rw [Page.itemSlot_eq] at placed
      obtain ⟨inner', U', placed', after, sameInner⟩ := twins.slotOr same placed rfl
      rw [← Page.itemSlot_eq, ← twins.entry_eq same] at placed'
      obtain ⟨pieces', found', G', items', twins⟩ := ih after (.items sameInner) last'
      exact ⟨pieces', found', G', .sequence placed' items', twins⟩
  | mapping listed pairs ih =>
    cases same with
    | root same =>
      have listed' := listed
      rw [← twins.entry_eq same] at listed'
      obtain ⟨reference, rfl, _⟩ := Entry.listing_eq_ok listed
      obtain ⟨pieces', found', G', pairs', twins⟩ := ih twins (.pairs (twins.forall_members same)) last'
      exact ⟨pieces', found', G', .mapping listed' pairs', twins⟩
  | bare bare root ih =>
    cases same with
    | node same =>
      rw [← twins.entry_eq same] at bare
      obtain ⟨pieces', found', G', root', twins⟩ := ih twins (.root same) last'
      exact ⟨pieces', found', G', .bare bare root', twins⟩
  | enclosed encloses localRule indexRule root ih =>
    cases same with
    | node same =>
      rw [← twins.entry_eq same] at encloses localRule indexRule
      obtain ⟨pieces', ⟨outlines', next'⟩, G', root', twins⟩ := ih twins (.root same) last'
      exact ⟨_, _, G', .enclosed encloses localRule indexRule root', twins⟩
  | noItems =>
    cases same with
    | items same => exact ⟨[], _, F', .noItems, twins⟩
  | item node items ihn ihi =>
    cases same with
    | items same =>
      obtain ⟨pieces', ⟨first', mid'⟩, G₁, node', twins⟩ := ihn twins (.node same) last'
      obtain ⟨others', ⟨rest', stop'⟩, G₂, items', twins⟩ := ihi twins (.items (same.mono node.grows.size)) mid'
      exact ⟨_, _, G₂, .item node' items', twins⟩
  | noPairs =>
    cases same with
    | pairs plain => exact ⟨[], _, F', .noPairs, twins⟩
  | @pair S T U V W listing seen tag key start stop value members keySlot valueSlot r last mid next final keyOutlines
      children rest pieces others placed read made valuePlaced node pairs ihn ihp =>
    cases same with
    | pairs plain =>
      obtain ⟨keySlot', T', placed', twins, same⟩ := twins.keySlot plain placed
      -- the kind of the key is settled twice, before it is read and as it is read
      have twins := twins.settle same (.inl (.inl rfl) : TokenKind.keyword.IsSettled ∨ _)
      have same := same.mono (Nat.le_of_eq (T.size_settle keySlot .keyword).symm)
      obtain ⟨read', twins⟩ := twins.scalar same read last'
      have same := same.mono (Nat.le_of_eq (r.size_settle _).symm)
      obtain ⟨⟨keyOutlines', mid'⟩, made', _⟩ := ScalarReading.exists_outlined_handed made last'
      obtain ⟨valueSlot', U', valuePlaced', twins, same⟩ := twins.valueSlot same valuePlaced
      obtain ⟨pieces', ⟨children', next'⟩, V', node', twins⟩ := ihn twins (.node same) mid'
      obtain ⟨others', ⟨rest', final'⟩, W', pairs', twins⟩ := ihp twins (.pairs plain) next'
      exact ⟨_, _, W', .pair placed' read' made' valuePlaced' node' pairs', twins⟩

end ManifestLens
