import ManifestLens.Proofs.Manifest.Run

/-!
# How reading changes a schema

A reading, whether it succeeds or not, adds entries to the schema and gives kinds to entries that have none; else it
leaves the entries as they are (`growing_readDocument`).
-/

namespace ManifestLens

open Yaml (Mark Node)

/-- The kinds that entries get when they are read with. -/
def TokenKind.IsSettled (kind : TokenKind) : Prop :=
  kind = .keyword ∨ kind = .number ∨ kind = .string

instance (kind : TokenKind) : Decidable kind.IsSettled :=
  inferInstanceAs (Decidable (_ ∨ _ ∨ _))

/-- An entry gets a kind if it has none. -/
def Entry.settled (e : Entry) (kind : TokenKind) : Entry :=
  if e.kind == .unset then { e with kind := kind } else e

namespace Schema

@[simp] theorem size_settle (S : Schema) (s : Slot) (kind : TokenKind) : (S.settle s kind).size = S.size :=
  Array.size_modify

theorem entry_settle {S : Schema} {s t : Nat} (kind : TokenKind) (ht : t < S.size) :
    (S.settle s kind).entry t = if s = t then (S.entry t).settled kind else S.entry t := by
  rw [entry, entry, settle, Array.getElem?_modify, Array.getElem?_eq_getElem ht]
  split <;> rfl

theorem entry_push (S : Schema) (e : Entry) (t : Nat) :
    Schema.entry (S.push e) t = if t = S.size then e else S.entry t := by
  rw [entry, Array.getElem?_push]
  split <;> rfl

/-- A schema grows into another: entries are added, and entries without a kind may get one. -/
structure Grows (S T : Schema) : Prop where
  size : S.size ≤ T.size
  entry : ∀ s < S.size, T.entry s = S.entry s ∨
    (S.entry s).kind = .unset ∧ ∃ kind : TokenKind, kind.IsSettled ∧ T.entry s = { S.entry s with kind := kind }

namespace Grows

variable {S T U : Schema}

theorem refl (S : Schema) : S.Grows S :=
  ⟨Nat.le_refl _, fun _ _ => .inl rfl⟩

theorem trans (h : S.Grows T) (h' : T.Grows U) : S.Grows U := by
  refine ⟨Nat.le_trans h.size h'.size, ?_⟩
  intro s hs
  rcases h.entry s hs with h₁ | ⟨unset, kind, settled, h₁⟩
  · rw [← h₁]
    exact h'.entry s (Nat.lt_of_lt_of_le hs h.size)
  · -- an entry that got a kind keeps it
    right
    refine ⟨unset, kind, settled, ?_⟩
    rcases h'.entry s (Nat.lt_of_lt_of_le hs h.size) with h₂ | ⟨unset', _⟩
    · rw [h₂, h₁]
    · rw [h₁] at unset'
      rcases settled with rfl | rfl | rfl <;> cases unset'

theorem push (S : Schema) (e : Entry) : S.Grows (S.push e) := by
  refine ⟨by simp, ?_⟩
  intro s hs
  rw [entry_push, if_neg (Nat.ne_of_lt hs)]
  exact .inl rfl

theorem settle (S : Schema) (s : Slot) {kind : TokenKind} (h : kind.IsSettled ∨ (S.entry s).kind ≠ .unset) :
    S.Grows (S.settle s kind) := by
  refine ⟨Nat.le_of_eq (size_settle S s kind).symm, ?_⟩
  intro t ht
  rw [entry_settle kind ht]
  by_cases hst : s = t
  · subst hst
    rw [if_pos rfl, Entry.settled]
    by_cases unset : (S.entry s).kind = .unset
    · rw [if_pos (beq_iff_eq.2 unset)]
      exact .inr ⟨unset, kind, h.resolve_right (absurd unset), rfl⟩
    · rw [if_neg (fun h => unset (beq_iff_eq.1 h))]
      exact .inl rfl
  · rw [if_neg hst]
    exact .inl rfl

/-- All but the kind of an entry stays. -/
theorem entry_eq (h : S.Grows T) {s : Slot} (hs : s < S.size) :
    T.entry s = { S.entry s with kind := (T.entry s).kind } := by
  rcases h.entry s hs with h | ⟨_, kind, _, h⟩ <;> rw [h]

/-- An entry keeps its kind. -/
theorem kind_eq (h : S.Grows T) {s : Slot} (hs : s < S.size) (set : (S.entry s).kind ≠ .unset) :
    (T.entry s).kind = (S.entry s).kind := by
  rcases h.entry s hs with h | ⟨unset, _⟩
  · rw [h]
  · exact absurd unset set

/-- An entry without a kind gets none, or one of those that reading gives. -/
theorem kind_settled (h : S.Grows T) {s : Slot} (hs : s < S.size) (unset : (S.entry s).kind = .unset) :
    (T.entry s).kind = .unset ∨ (T.entry s).kind.IsSettled := by
  rcases h.entry s hs with h | ⟨_, kind, settled, h⟩
  · rw [h]
    exact .inl unset
  · rw [h]
    exact .inr settled

end Grows

end Schema

/-! ### Readings -/

theorem isSettled_scalarKind (tag : String) : (scalarKind tag).IsSettled := by
  rw [scalarKind]
  split
  · exact .inr (.inl rfl)
  · exact .inr (.inr rfl)

theorem Entry.kind_ofTag (e : Entry) (tag : String) : (e.ofTag tag).kind.IsSettled ∨ e.kind ≠ .unset := by
  by_cases unset : e.kind = .unset
  · rw [ofTag, if_pos (beq_iff_eq.2 unset)]
    exact .inl (isSettled_scalarKind tag)
  · exact .inr unset

namespace Reading

variable {α β : Type}

/-- Whatever comes of the reading, the schema grows. -/
def Growing (x : Reading α) : Prop :=
  ∀ S : Schema, S.Grows (x.runFrom S).2

private theorem growing_pure (a : α) : Growing (pure a) :=
  Schema.Grows.refl

private theorem growing_throw (e : Fault) : Growing (throw e : Reading α) :=
  Schema.Grows.refl

private theorem growing_ofExcept (r : Except Fault α) : Growing (ofExcept r) :=
  Schema.Grows.refl

private theorem growing_entry (slot : Slot) : Growing (entry slot) :=
  Schema.Grows.refl

theorem growing_allocate (e : Entry) : Growing (allocate e) :=
  fun S => .push S e

theorem Growing.bind {x : Reading α} {f : α → Reading β} (hx : Growing x) (hf : ∀ a, Growing (f a)) :
    Growing (x >>= f) := by
  intro S
  have grown := hx S
  rw [runFrom_bind]
  split
  · next a T h =>
    rw [h] at grown
    exact grown.trans (hf a T)
  · next e T h =>
    rw [h] at grown
    exact grown

end Reading

open Reading

namespace Page

variable (page : Page)

private theorem growing_scalarBy (slot : Slot) (tag text : String) (start stop : Mark) (last : Position)
    (remark : Option Remark) : Growing (page.scalarBy slot tag text start stop last remark) := by
  intro S
  rw [runFrom_scalarBy _ _ _ _ _ _ _ _ false _ rfl, ScalarReading.settle]
  split
  · exact .refl S
  · exact .settle S slot (Entry.kind_ofTag _ _)

theorem growing_keyBy (slot : Slot) (tag text : String) (start stop : Mark) (last : Position)
    (remark : Option Remark) : Growing (page.keyBy slot tag text start stop last remark) :=
  Growing.bind (fun S => .settle S slot (.inl (.inl rfl))) fun _ =>
    page.growing_scalarBy slot tag text start stop last remark

theorem growing_keySlot (listing : Listing) (key : String) : Growing (listing.keySlot key) := by
  rw [Listing.keySlot]
  split
  · exact growing_pure _
  · exact growing_allocate _

theorem growing_valueSlot (keySlot : Slot) (listing : Listing) (key : String) :
    Growing (valueSlot keySlot listing key) := by
  rw [valueSlot_eq]
  refine .bind (growing_entry keySlot) fun keyEntry => .bind ?_ fun slot => ?_
  · rw [Entry.innerSlot]
    split
    · exact growing_pure _
    · exact growing_allocate _
  · rw [Listing.referringSlot]
    split
    · exact growing_pure _
    · refine .bind (growing_entry slot) fun entry => ?_
      split
      · exact growing_allocate _
      · exact growing_pure _

theorem growing_itemSlot (entry : Entry) : Growing (itemSlot entry) := by
  rw [itemSlot]
  split
  · exact growing_pure _
  · exact growing_allocate _

mutual

theorem growing_node (slot : Slot) (last : Position) : (n : Node) → Growing (page.node slot last n)
  | .scalar tag text start stop => by
    rw [node]
    exact page.growing_scalarBy slot tag text start stop last none
  | .sequence tag members start stop => by
    rw [node]
    refine .bind (growing_entry slot) fun entry => .bind (growing_itemSlot entry) fun inner => ?_
    exact .bind (growing_items inner last members) fun found => growing_ofExcept _
  | .mapping tag members start stop => by
    rw [node]
    refine .bind (growing_entry slot) fun entry => .bind (growing_ofExcept _) fun listing => ?_
    exact .bind (growing_pairs listing [] last members) fun found => growing_ofExcept _

theorem growing_items (slot : Slot) (last : Position) : (members : List Node) → Growing (page.items slot last members)
  | [] => by
    rw [items]
    exact growing_pure _
  | n :: members => by
    rw [items]
    refine .bind (growing_node slot last n) fun first => ?_
    exact .bind (growing_items slot first.2 members) fun others => growing_pure _

theorem growing_pairs (listing : Listing) (seen : List String) (last : Position) :
    (members : List (Node × Node)) → Growing (page.pairs listing seen last members)
  | [] => by
    rw [pairs]
    exact growing_pure _
  | (.scalar tag key start stop, value) :: members => by
    rw [pairs_cons]
    refine .bind (growing_keySlot listing key) fun keySlot => ?_
    refine .bind (page.growing_keyBy keySlot tag key start stop last _) fun keyOutline => ?_
    refine .bind (growing_valueSlot keySlot listing key) fun valueSlot => ?_
    refine .bind (growing_node valueSlot keyOutline.2 value) fun children => ?_
    exact .bind (growing_pairs listing (key :: seen) children.2 members) fun others => growing_pure _
  | (.sequence _ _ _ _, _) :: _ => by
    rw [pairs]
    · exact growing_throw _
    · intros; simp_all
  | (.mapping _ _ _ _, _) :: _ => by
    rw [pairs]
    · exact growing_throw _
    · intros; simp_all

end

theorem growing_root (slot : Slot) (last : Position) (n : Node) : Growing (page.root slot last n) := by
  cases n with
  | scalar tag text start stop => exact page.growing_scalarBy slot tag text start stop last none
  | sequence tag members start stop =>
    refine .bind (growing_entry slot) fun entry => .bind (growing_itemSlot entry) fun inner => ?_
    exact page.growing_items inner last members
  | mapping tag members start stop =>
    refine .bind (growing_entry slot) fun entry => .bind (growing_ofExcept _) fun listing => ?_
    exact page.growing_pairs listing [] last members

end Page

private theorem growing_readEntries (file : SourceFile) (kinds : List (String × Slot)) (state : FileReading)
    (document : Yaml.Document) (root : Node) (entries : Entries) :
    Growing (readEntries file kinds state document root entries) := by
  rw [readEntries]
  refine .bind (growing_ofExcept _) fun slot => .bind (growing_ofExcept _) fun name => ?_
  split
  · exact .bind (growing_throw _) fun _ => .bind (Page.growing_root _ _ _ _) fun _ => growing_pure _
  · exact .bind (Page.growing_root _ _ _ _) fun _ => growing_pure _

/-- Reading a document adds entries to the schema and gives kinds to entries that have none. -/
theorem growing_readDocument (file : SourceFile) (kinds : List (String × Slot)) (state : FileReading)
    (document : Yaml.Document) : Growing (readDocument file kinds state document) := by
  rw [readDocument]
  refine .bind (growing_ofExcept _) fun found => ?_
  obtain ⟨root, value⟩ := found
  dsimp only
  split
  · exact growing_pure _
  · split
    · exact .bind (growing_readEntries file kinds state document root _) fun _ => growing_pure _
    · exact growing_throw _

end ManifestLens
