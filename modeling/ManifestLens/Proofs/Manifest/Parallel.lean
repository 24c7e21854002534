import ManifestLens.Proofs.Manifest.Derivation
import ManifestLens.Proofs.Manifest.Growth

/-!
# Reading with a schema that has a past

The same input is read with a schema as it is at the start, and with one that has a past: entries were added to it, and
entries without a kind were given one.  As long as each scalar is read at the start with the kind that its entry was
given in the past, the two readings go in parallel and give the same outlines (`Reads.follow`).
-/

namespace ManifestLens

open Yaml (Mark Node)

variable {inner slot : Slot} {key tag : String}

/-! ### Sound entries -/

/-- The kind with which the value of the field `name` is read. -/
def Schema.nameKind (B : Schema) (members : List (String × Slot)) : TokenKind :=
  match members.lookup "name" with
  | none => .unset
  | some keySlot =>
    match (B.entry keySlot).shape with
    | .each slot => (B.entry slot).kind
    | _ => .unset

/-- An entry refers to entries of a schema only; if it refers to a resource, then the kind of names is known. -/
structure Entry.Sound (B : Schema) (e : Entry) : Prop where
  members : ∀ p ∈ e.shape.members, p.2 < B.size
  name : e.refers = true → B.nameKind e.shape.members ≠ .unset

instance (B : Schema) (e : Entry) : Decidable (e.Sound B) :=
  decidable_of_iff ((∀ p ∈ e.shape.members, p.2 < B.size) ∧ (e.refers = true → B.nameKind e.shape.members ≠ .unset))
    ⟨fun h => ⟨h.1, h.2⟩, fun h => ⟨h.1, h.2⟩⟩

theorem Entry.Sound.each_lt {B : Schema} {e : Entry} (h : e.Sound B) (hs : e.shape = .each slot) : slot < B.size :=
  h.members (anyName, slot) (by rw [hs]; exact List.mem_singleton_self _)

/-- The listing of a sound entry. -/
structure Listing.Sound (B : Schema) (listing : Listing) : Prop where
  members : ∀ p ∈ listing.members, p.2 < B.size
  name : listing.reference.isSome = true → B.nameKind listing.members ≠ .unset

theorem Entry.Sound.listing {B : Schema} {e : Entry} {pairs : List (Node × Node)} {listing : Listing} (h : e.Sound B)
    (hl : e.listing pairs = .ok listing) : listing.Sound B := by
  obtain ⟨reference, rfl, ⟨_, rfl⟩ | ⟨refers, _⟩⟩ := Entry.listing_eq_ok hl
  · exact ⟨h.members, fun h => absurd h Bool.false_ne_true⟩
  · exact ⟨h.members, fun _ => h.name refers⟩

theorem mem_of_lookup {l : List (String × Slot)} (h : l.lookup key = some slot) : (key, slot) ∈ l := by
  obtain ⟨l₁, l₂, rfl, _⟩ := List.lookup_eq_some_iff.1 h
  exact List.mem_append_right _ List.mem_cons_self

private theorem Listing.Sound.slot?_lt {B : Schema} {listing : Listing} (h : listing.Sound B)
    (hs : listing.slot? key = some slot) : slot < B.size := by
  rw [Listing.slot?] at hs
  split at hs
  · next found =>
    cases hs
    exact h.members _ (mem_of_lookup found)
  · exact h.members _ (mem_of_lookup hs)

/-- The scalar as it is read with the entry of another slot. -/
def ScalarReading.at (r : ScalarReading) (slot : Slot) : ScalarReading :=
  { r with slot := slot }

private theorem ScalarReading.settle_at (r : ScalarReading) (slot : Slot) (S : Schema) :
    (r.at slot).settle S = if r.isExpression then S else S.settle slot r.entry.kind :=
  rfl

theorem ScalarReading.size_settle (r : ScalarReading) (S : Schema) : (r.settle S).size = S.size := by
  rw [settle]
  split
  · rfl
  · exact Schema.size_settle S r.slot r.entry.kind

/-! ### The past -/

/-- The past of a schema: the schema at the start, the kinds that its entries were given since then, and the number of
entries that were added. -/
structure Past where
  start : Schema
  given : Slot → TokenKind
  added : Nat
  sound : ∀ s < start.size, (start.entry s).Sound start
  isSettled_given : ∀ s, given s ≠ .unset → s < start.size ∧ (start.entry s).kind = .unset ∧ (given s).IsSettled

/-- The kind that an entry of a schema without a kind was given since then. -/
def Schema.kindSince (S H : Schema) (s : Slot) : TokenKind :=
  if s < S.size ∧ (S.entry s).kind = .unset then (H.entry s).kind else .unset

/-- The entry of the scalar was not given another kind since then than the scalar is read with. -/
def Schema.Agrees (S H : Schema) (r : ScalarReading) : Prop :=
  S.kindSince H r.slot = .unset ∨ S.kindSince H r.slot = r.entry.kind

/-- The past of a schema that has grown from a sound one. -/
def Past.ofGrows {S H : Schema} (sound : ∀ s < S.size, (S.entry s).Sound S) (grown : S.Grows H) : Past where
  start := S
  given := S.kindSince H
  added := H.size - S.size
  sound := sound
  isSettled_given := by
    intro s set
    rw [Schema.kindSince] at set ⊢
    split at set
    · next old =>
      rw [if_pos old]
      exact ⟨old.1, old.2, (grown.kind_settled old.1 old.2).resolve_left set⟩
    · exact absurd rfl set

/-- The same entry with and without a past, in which it was given a kind unless that is unset. -/
structure Entry.Follows (given : TokenKind) (e e' : Entry) : Prop where
  rest : e' = { e with kind := e'.kind }
  same : given = .unset → e'.kind = e.kind
  given : given ≠ .unset → e'.kind = given ∧ (e.kind = .unset ∨ e.kind = given)

namespace Entry.Follows

variable {given : TokenKind} {e e' : Entry}

private theorem refl (e : Entry) : e.Follows .unset e :=
  ⟨rfl, fun _ => rfl, fun h => absurd rfl h⟩

private theorem eq (h : e.Follows given e') (unset : given = .unset) : e' = e := by
  rw [h.rest, h.same unset]

private theorem shape_eq (h : e.Follows given e') : e'.shape = e.shape := by rw [h.rest]

theorem encloses_eq (h : e.Follows given e') (n : Node) : e'.encloses n = e.encloses n := by
  rw [h.rest]
  cases n <;> rfl

theorem listing_eq (h : e.Follows given e') (pairs : List (Node × Node)) : e'.listing pairs = e.listing pairs := by
  rw [h.rest]
  rfl

/-- A scalar is read with the same entry, if it is read with the kind that was given in the past. -/
private theorem ofTag_eq (h : e.Follows given e') (agree : given = .unset ∨ given = (e.ofTag tag).kind) :
    e'.ofTag tag = e.ofTag tag := by
  by_cases unset : given = .unset
  · rw [h.eq unset]
  · have set := agree.resolve_left unset
    obtain ⟨kind, _⟩ := h.given unset
    have set' : e'.kind ≠ .unset := kind ▸ unset
    rw [Entry.ofTag, if_neg (fun h => set' (beq_iff_eq.1 h)), h.rest, kind, set]
    rfl

private theorem settled (h : e.Follows given e') {kind : TokenKind}
    (agree : e.kind = .unset → given ≠ .unset → kind = given) :
    (e.settled kind).Follows given (e'.settled kind) := by
  by_cases unset : given = .unset
  · rw [h.eq unset, unset]
    exact .refl _
  · obtain ⟨kind', was⟩ := h.given unset
    have set' : e'.kind ≠ .unset := kind' ▸ unset
    rw [Entry.settled, Entry.settled, if_neg (fun h => set' (beq_iff_eq.1 h))]
    by_cases first : e.kind = .unset
    · rw [if_pos (beq_iff_eq.2 first), agree first unset]
      refine ⟨?_, fun h => absurd h unset, fun _ => ⟨kind', .inr rfl⟩⟩
      rw [h.rest]
    · rw [if_neg (fun h => first (beq_iff_eq.1 h))]
      exact h

end Entry.Follows

namespace Past

variable (past : Past)

/-- Where the entry of a slot is in the schema with the past; entries that are added now stand behind those of the
past. -/
def move (s : Nat) : Nat :=
  if s < past.start.size then s else s + past.added

theorem move_of_lt {s : Nat} (h : s < past.start.size) : past.move s = s :=
  if_pos h

private theorem move_of_le {s : Nat} (h : past.start.size ≤ s) : past.move s = s + past.added :=
  if_neg (Nat.not_lt.2 h)

private theorem move_inj {s t : Nat} : past.move s = past.move t ↔ s = t := by
  rw [move, move]
  split <;> split <;> omega

/-- The scalar is read with the kind that its entry was given in the past, if it was given one. -/
def Agrees (r : ScalarReading) : Prop :=
  past.given r.slot = .unset ∨ past.given r.slot = r.entry.kind

/-- A schema without a past and one with it, in parallel readings. -/
structure Parallel (F H : Schema) : Prop where
  grown : past.start.Grows F
  size : H.size = F.size + past.added
  sound : ∀ s < F.size, (F.entry s).Sound past.start
  entry : ∀ s < F.size, (F.entry s).Follows (past.given s) (H.entry (past.move s))

namespace Parallel

variable {past} {F H : Schema}

private theorem given_of_le {s : Nat} (h : past.start.size ≤ s) : past.given s = .unset := by
  by_cases unset : past.given s = .unset
  · exact unset
  · exact absurd (past.isSettled_given s unset).1 (Nat.not_lt.2 h)

private theorem lt_of_start (h : past.Parallel F H) {s : Nat} (hs : s < past.start.size) : s < F.size :=
  Nat.lt_of_lt_of_le hs h.grown.size

private theorem move_size (h : past.Parallel F H) : past.move F.size = H.size := by
  rw [past.move_of_le h.grown.size, h.size]

theorem move_lt (h : past.Parallel F H) {s : Nat} (hs : s < F.size) : past.move s < H.size := by
  rw [h.size, move]
  split <;> omega

theorem ofGrows {S : Schema} (sound : ∀ s < S.size, (S.entry s).Sound S) (grown : S.Grows H) :
    (Past.ofGrows sound grown).Parallel S H := by
  refine ⟨.refl _, (Nat.add_sub_cancel' grown.size).symm, sound, ?_⟩
  intro s hs
  rw [(Past.ofGrows sound grown).move_of_lt hs]
  show Entry.Follows (S.kindSince H s) _ _
  by_cases unset : (S.entry s).kind = .unset
  · rw [Schema.kindSince, if_pos ⟨hs, unset⟩]
    exact ⟨grown.entry_eq hs, fun h => h.trans unset.symm, fun _ => ⟨rfl, .inl unset⟩⟩
  · rw [Schema.kindSince, if_neg (fun h => unset h.2)]
    exact ⟨grown.entry_eq hs, fun _ => grown.kind_eq hs unset, fun h => absurd rfl h⟩

private theorem push (h : past.Parallel F H) {e : Entry} (he : e.Sound past.start) :
    past.Parallel (F.push e) (H.push e) := by
  refine ⟨h.grown.trans (.push F e), ?_, ?_, ?_⟩
  · rw [Array.size_push, Array.size_push, h.size]
    omega
  · intro s hs
    rw [Array.size_push] at hs
    rw [Schema.entry_push]
    split
    · exact he
    · exact h.sound s (by omega)
  · intro s hs
    rw [Array.size_push] at hs
    rw [Schema.entry_push, Schema.entry_push, ← h.move_size]
    by_cases hsize : s = F.size
    · rw [if_pos hsize, if_pos (past.move_inj.2 hsize), given_of_le (hsize ▸ h.grown.size)]
      exact .refl e
    · rw [if_neg hsize, if_neg (fun h => hsize (past.move_inj.1 h))]
      exact h.entry s (by omega)

private theorem settle (h : past.Parallel F H) {s : Nat} {kind : TokenKind} (hs : s < F.size)
    (agree : (F.entry s).kind = .unset → past.given s ≠ .unset → kind = past.given s)
    (settles : kind.IsSettled ∨ (F.entry s).kind ≠ .unset) :
    past.Parallel (F.settle s kind) (H.settle (past.move s) kind) := by
  refine ⟨h.grown.trans (.settle F s settles), ?_, ?_, ?_⟩
  · rw [Schema.size_settle, Schema.size_settle, h.size]
  · intro t ht
    rw [Schema.size_settle] at ht
    rw [Schema.entry_settle kind ht]
    have sound := h.sound t ht
    split
    · rw [Entry.settled]
      split
      · exact ⟨sound.members, sound.name⟩
      · exact sound
    · exact sound
  · intro t ht
    rw [Schema.size_settle] at ht
    rw [Schema.entry_settle kind ht, Schema.entry_settle kind (h.move_lt ht)]
    by_cases hst : s = t
    · subst hst
      rw [if_pos rfl, if_pos rfl]
      exact (h.entry s hs).settled agree
    · rw [if_neg hst, if_neg (fun h => hst (past.move_inj.1 h))]
      exact h.entry t ht

/-! ### Slots -/

/-- The slot of a key is that of the same entry. -/
theorem keySlot (h : past.Parallel F H) {listing : Listing} (sound : listing.Sound past.start) {T : Schema}
    (placed : (listing.keySlot key).runFrom F = (.ok slot, T)) :
    ∃ U, (listing.keySlot key).runFrom H = (.ok (past.move slot), U) ∧ past.Parallel T U ∧ slot < T.size ∧
      (listing.slot? key = none ∨ listing.slot? key = some slot) := by
  rw [Listing.keySlot] at placed ⊢
  cases hs : listing.slot? key with
  | none =>
    rw [hs] at placed
    cases placed
    refine ⟨_, ?_, h.push ⟨fun _ hp => absurd hp List.not_mem_nil, fun h => absurd h Bool.false_ne_true⟩, ?_, .inl rfl⟩
    · rw [h.move_size]
      rfl
    · rw [Array.size_push]
      exact Nat.lt_succ_self _
  | some slot' =>
    rw [hs] at placed
    cases placed
    have old := sound.slot?_lt hs
    exact ⟨H, by rw [past.move_of_lt old]; rfl, h, h.lt_of_start old, .inr rfl⟩

/-- The slot of the parts is that of the same entry, or that of a new one. -/
private theorem slotOr (h : past.Parallel F H) {s : Slot} {T : Schema} (hs : s < F.size) {fresh : Entry}
    (sound : fresh.Sound past.start) (placed : ((F.entry s).shape.slotOr fresh).runFrom F = (.ok inner, T)) :
    ∃ U, ((F.entry s).shape.slotOr fresh).runFrom H = (.ok (past.move inner), U) ∧ past.Parallel T U ∧
      inner < T.size ∧ ((F.entry s).shape = .each inner ∨ past.given inner = .unset) := by
  unfold Shape.slotOr at placed ⊢
  split at placed
  · next shape =>
    cases placed
    have old : inner < past.start.size := (h.sound s hs).each_lt shape
    exact ⟨H, by rw [past.move_of_lt old]; rfl, h, h.lt_of_start old, .inl shape⟩
  · cases placed
    refine ⟨_, ?_, h.push sound, ?_, .inr (given_of_le h.grown.size)⟩
    · rw [h.move_size]
      rfl
    · rw [Array.size_push]
      exact Nat.lt_succ_self _

/-- The slot of the items is that of the same entry. -/
theorem itemSlot (h : past.Parallel F H) {s : Slot} {T : Schema} (hs : s < F.size)
    (placed : (Page.itemSlot (F.entry s)).runFrom F = (.ok inner, T)) :
    ∃ U, (Page.itemSlot (H.entry (past.move s))).runFrom H = (.ok (past.move inner), U) ∧ past.Parallel T U ∧
      inner < T.size := by
  have fresh : ({ shape := (F.entry s).shape } : Entry).Sound past.start :=
    ⟨(h.sound s hs).members, fun h => absurd h Bool.false_ne_true⟩
  rw [Page.itemSlot_eq] at placed ⊢
  rw [(h.entry s hs).shape_eq]
  obtain ⟨U, placed', par, lt, _⟩ := h.slotOr hs fresh placed
  exact ⟨U, placed', par, lt⟩

/-- In a mapping that refers to a resource, the entry for the name has no past. -/
private theorem given_name (h : past.Parallel F H) {listing : Listing} (sound : listing.Sound past.start)
    (refers : listing.reference.isSome = true) {s : Slot}
    (named : listing.slot? "name" = none ∨ listing.slot? "name" = some s) (inner : (F.entry s).shape = .each slot) :
    past.given slot = .unset := by
  have known := sound.name refers
  rw [Schema.nameKind] at known
  split at known
  · exact absurd rfl known
  · next s' found =>
    have hs : listing.slot? "name" = some s' := by rw [Listing.slot?, found]
    rw [hs] at named
    have same : s = s' := (Option.some.inj (named.resolve_left (Option.some_ne_none s'))).symm
    subst same
    have start : (past.start.entry s).shape = .each slot := by
      rw [h.grown.entry_eq (sound.slot?_lt hs)] at inner
      exact inner
    rw [start] at known
    by_cases unset : past.given slot = .unset
    · exact unset
    · exact absurd (past.isSettled_given slot unset).2.1 known

/-- The slot of a value is that of the same entry. -/
theorem valueSlot (h : past.Parallel F H) {listing : Listing} (sound : listing.Sound past.start) {s : Slot} {T : Schema}
    (hs : s < F.size) (named : listing.slot? key = none ∨ listing.slot? key = some s)
    (placed : (Page.valueSlot s listing key).runFrom F = (.ok slot, T)) :
    ∃ U, (Page.valueSlot (past.move s) listing key).runFrom H = (.ok (past.move slot), U) ∧ past.Parallel T U ∧
      slot < T.size := by
  rw [Page.valueSlot_eq] at placed ⊢
  obtain ⟨_, _, he, placed⟩ := Reading.runFrom_bind_eq_ok_iff.1 placed
  cases he
  obtain ⟨inner, F₁, hinner, placed⟩ := Reading.runFrom_bind_eq_ok_iff.1 placed
  have forValue : (H.entry (past.move s)).forValue = (F.entry s).forValue := by
    rw [(h.entry s hs).rest]
    rfl
  have fresh : (F.entry s).forValue.Sound past.start :=
    ⟨(h.sound s hs).members, fun h => absurd h Bool.false_ne_true⟩
  rw [Entry.innerSlot_eq] at hinner
  obtain ⟨H₁, hinner', h₁, hlt, past_inner⟩ := h.slotOr hs fresh hinner
  rw [← forValue, ← (h.entry s hs).shape_eq, ← Entry.innerSlot_eq] at hinner'
  suffices referring : ∃ U, (listing.referringSlot key (past.move inner)).runFrom H₁ = (.ok (past.move slot), U) ∧
      past.Parallel T U ∧ slot < T.size by
    obtain ⟨U, hU, rest⟩ := referring
    refine ⟨U, ?_, rest⟩
    rw [Reading.runFrom_bind, Reading.runFrom_entry]
    dsimp only
    rw [Reading.runFrom_bind, hinner']
    exact hU
  rw [Listing.referringSlot] at placed ⊢
  cases href : listing.reference with
  | none =>
    rw [href] at placed
    cases placed
    exact ⟨H₁, rfl, h₁, hlt⟩
  | some reference =>
    have indexKey : (H₁.entry (past.move inner)).indexKey = (F₁.entry inner).indexKey := by
      rw [(h₁.entry inner hlt).rest]
    rw [href] at placed
    dsimp only at placed ⊢
    rw [Reading.runFrom_bind, Reading.runFrom_entry] at placed ⊢
    dsimp only at placed ⊢
    rw [indexKey]
    cases new : key == "name" && (F₁.entry inner).indexKey.isNone with
    | false =>
      rw [new] at placed
      cases placed
      exact ⟨H₁, rfl, h₁, hlt⟩
    | true =>
      rw [new] at placed
      cases placed
      have hkey : key = "name" := beq_iff_eq.1 (Bool.and_eq_true_iff.1 new).1
      subst hkey
      -- a reference gives its name an entry of its own, which must not take over a kind from the past
      have unset : past.given inner = .unset :=
        past_inner.elim (h.given_name sound (by rw [href]; rfl) named) id
      have sound := h₁.sound inner hlt
      rw [(h₁.entry inner hlt).eq unset]
      refine ⟨_, ?_, h₁.push ⟨sound.members, sound.name⟩, ?_⟩
      · rw [h₁.move_size]
        rfl
      · rw [Array.size_push]
        exact Nat.lt_succ_self _

/-! ### Scalars -/

/-- A scalar is read with the same entry, and leaves the schemas in parallel. -/
theorem scalar (h : past.Parallel F H) {s : Slot} {page : Page} {tag text : String} {isKey : Bool} {start stop : Mark}
    {last : Position} {remark : Option Remark} {r : ScalarReading} (hs : s < F.size)
    (read : r = ⟨page, s, (F.entry s).ofTag tag, isKey, text, start, stop, last, remark⟩) (agree : past.Agrees r) :
    r.at (past.move s) =
        ⟨page, past.move s, (H.entry (past.move s)).ofTag tag, isKey, text, start, stop, last, remark⟩ ∧
      past.Parallel (r.settle F) ((r.at (past.move s)).settle H) := by
  have slot : r.slot = s := by rw [read]
  have entry : r.entry = (F.entry s).ofTag tag := by rw [read]
  rw [Past.Agrees, slot, entry] at agree
  constructor
  · rw [read, (h.entry s hs).ofTag_eq agree]
    rfl
  · rw [ScalarReading.settle_at, ScalarReading.settle, slot, entry]
    split
    · exact h
    · exact h.settle hs (fun _ given => (agree.resolve_left given).symm) (Entry.kind_ofTag _ _)

/-- The kind of a key is settled before it is read. -/
theorem keyword (h : past.Parallel F H) {s : Slot} {r : ScalarReading} (hs : s < F.size) (slot : r.slot = s)
    (entry : r.entry = ((F.settle s .keyword).entry s).ofTag tag) (agree : past.Agrees r) :
    past.Parallel (F.settle s .keyword) (H.settle (past.move s) .keyword) := by
  refine h.settle hs ?_ (.inl (.inl rfl))
  intro unset given
  rw [← slot] at given
  rw [← slot, agree.resolve_left given, entry, Schema.entry_settle _ hs, if_pos rfl, Entry.settled,
    if_pos (beq_iff_eq.2 unset)]
  rfl

end Parallel

end Past

/-! ### Parallel readings -/

/-- The input as it is read with a past. -/
def Input.moved (past : Past) : Input → Input
  | .root slot n => .root (past.move slot) n
  | .node slot n => .node (past.move slot) n
  | .items slot members => .items (past.move slot) members
  | .pairs listing seen members => .pairs listing seen members

/-- The input refers to entries of the schema. -/
def Input.Sound (past : Past) (F : Schema) : Input → Prop
  | .root slot _ => slot < F.size
  | .node slot _ => slot < F.size
  | .items slot _ => slot < F.size
  | .pairs listing _ _ => listing.Sound past.start

namespace Reads

variable {page : Page} {input : Input} {F H F' H' : Schema} {last : Position} {pieces : List Piece} {found : Outlined}

theorem grows (h : Reads page input F last pieces found F') : F.Grows F' := by
  have grown : Reading.Growing (input.reading page last) := by
    cases input with
    | root slot n => exact page.growing_root slot last n
    | node slot n => exact page.growing_node slot last n
    | items slot members => exact page.growing_items slot last members
    | pairs listing seen members => exact page.growing_pairs listing seen last members
  have := grown F
  rwa [h.runFrom_eq] at this

theorem forall_scalarsOf_append {p : ScalarReading → Prop} {a b : List Piece} :
    (∀ r ∈ scalarsOf (a ++ b), p r) ↔ (∀ r ∈ scalarsOf a, p r) ∧ ∀ r ∈ scalarsOf b, p r := by
  rw [scalarsOf, List.filterMap_append]
  exact List.forall_mem_append

/-- If every scalar is read with the kind that its entry was given in the past, the same outlines are read with the
past as without it. -/
theorem follow {past : Past} (h : Reads page input F last pieces found F') (par : past.Parallel F H)
    (sound : input.Sound past F) (agree : ∀ r ∈ scalarsOf pieces, past.Agrees r) :
    ∃ pieces' H', Reads page (input.moved past) H last pieces' found H' ∧ past.Parallel F' H' := by
  induction h generalizing H with
  | @scalar S slot tag text start stop last r found read made =>
    have here := agree r List.mem_cons_self
    obtain ⟨read', settled⟩ := par.scalar sound read here
    exact ⟨_, _, .scalar read' made, settled⟩
  | sequence placed items ih =>
    obtain ⟨U, placed', par, lt⟩ := par.itemSlot sound placed
    obtain ⟨pieces', H', items', par⟩ := ih par lt agree
    exact ⟨pieces', H', .sequence placed' items', par⟩
  | mapping listed pairs ih =>
    have listed' := (par.entry _ sound).listing_eq _ |>.trans listed
    obtain ⟨pieces', H', pairs', par⟩ := ih par ((par.sound _ sound).listing listed) agree
    exact ⟨pieces', H', .mapping listed' pairs', par⟩
  | bare bare root ih =>
    obtain ⟨pieces', H', root', par'⟩ := ih par sound agree
    exact ⟨pieces', H', .bare ((par.entry _ sound).encloses_eq _ |>.trans bare) root', par'⟩
  | enclosed encloses localRule indexRule root ih =>
    obtain ⟨pieces', H', root', par'⟩ := ih par sound agree
    have entry := par.entry _ sound
    have encloses' := entry.encloses_eq _ |>.trans encloses
    rw [Input.moved]
    refine ⟨_, H', .enclosed encloses' ?_ ?_ root', par'⟩
    · rw [entry.rest]
      exact localRule
    · rw [entry.rest]
      exact indexRule
  | noItems => exact ⟨[], H, .noItems, par⟩
  | item node items ihn ihi =>
    obtain ⟨agree₁, agree₂⟩ := forall_scalarsOf_append.1 agree
    obtain ⟨pieces', H₁, node', par⟩ := ihn par sound agree₁
    obtain ⟨others', H₂, items', par⟩ := ihi par (Nat.lt_of_lt_of_le sound node.grows.size) agree₂
    exact ⟨_, H₂, .item node' items', par⟩
  | noPairs => exact ⟨[], H, .noPairs, par⟩
  | @pair S T U V W listing seen tag key start stop value members keySlot valueSlot r last mid next final keyOutlines
      children rest pieces others placed read made valuePlaced node pairs ihn ihp =>
    obtain ⟨here, agree⟩ := List.forall_mem_cons.1 agree
    obtain ⟨agree₁, agree₂⟩ := forall_scalarsOf_append.1 agree
    obtain ⟨H₁, placed', par, lt, named⟩ := par.keySlot sound placed
    -- the kind of the key is settled twice, before it is read and as it is read
    have lt' : keySlot < (T.settle keySlot .keyword).size := by rwa [Schema.size_settle]
    have par := par.keyword lt (by rw [read]) (by rw [read]) here
    obtain ⟨read', par⟩ := par.scalar lt' read here
    have lt'' : keySlot < (r.settle (T.settle keySlot .keyword)).size := by rwa [ScalarReading.size_settle]
    obtain ⟨H₂, valuePlaced', par, valueLt⟩ := par.valueSlot sound lt'' named valuePlaced
    obtain ⟨pieces', H₃, node', par⟩ := ihn par valueLt agree₁
    obtain ⟨others', H₄, pairs', par⟩ := ihp par sound agree₂
    exact ⟨_, H₄, .pair placed' read' made valuePlaced' node' pairs', par⟩

end Reads

end ManifestLens
