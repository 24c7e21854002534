import ManifestLens.Proofs.Index.Duplicates
import ManifestLens.Proofs.Manifest.Names
import ManifestLens.Proofs.Manifest.Parallel

/-!
# Entries that define nothing

An entry is quiet if no rule for the definition of a resource can be reached from it (`Schema.Quiet`).  Quiet entries
stay so while the schema grows, and what is read with them refers to resources at most.  So nothing that is read with a
quiet entry has a name that reads as a definition, if none of the references in it does (`Reads.quiet`).
-/

namespace ManifestLens

open Yaml (Mark Node)
open KeyPattern (readsAsDefinition)

variable {key tag text : String} {slot : Slot} {S T : Schema} {start stop : Mark}

/-! ### Nodes -/

mutual

/-- No reference in the node reads as a definition: neither one by the kind and name in a mapping, nor one to a template
by a text. -/
def Yaml.Node.refersPlainly : Node → Bool
  | .scalar _ text _ _ => !readsAsDefinition (templateKey text)
  | .sequence _ items _ _ => itemsReferPlainly items
  | .mapping _ pairs _ _ =>
    pairsReferPlainly pairs &&
      match referenceKey (.pairs pairs) with
      | .ok (some key) => !readsAsDefinition key
      | _ => true

def itemsReferPlainly : List Node → Bool
  | [] => true
  | n :: rest => n.refersPlainly && itemsReferPlainly rest

def pairsReferPlainly : List (Node × Node) → Bool
  | [] => true
  | (key, value) :: rest => key.refersPlainly && value.refersPlainly && pairsReferPlainly rest

end

theorem pairsReferPlainly_iff {pairs : List (Node × Node)} :
    pairsReferPlainly pairs = true ↔ ∀ p ∈ pairs, p.1.refersPlainly = true ∧ p.2.refersPlainly = true := by
  induction pairs with
  | nil => simp [pairsReferPlainly]
  | cons p rest ih => simp [pairsReferPlainly, ih]

/-! ### Entries -/

/-- The entry itself defines nothing: it makes no index keys, or those of references. -/
def Entry.isQuiet (e : Entry) : Bool :=
  match e.indexKey with
  | none => true
  | some (.constant key) => !readsAsDefinition key
  | some (.unlessExpression before after) => before == "ResourceTemplate:" && after == ":ref"
  | _ => false

private theorem Entry.readsAsDefinition_of_ruledKey {e : Entry} (quiet : e.isQuiet = true) {n : Node}
    (plain : n.refersPlainly = true) (h : ruledKey e.indexKey n.content = .ok (some key)) :
    readsAsDefinition key = false := by
  unfold Entry.isQuiet at quiet
  split at quiet
  · next none =>
    rw [none] at h
    cases h
  · next constant =>
    rw [constant] at h
    cases h
    simpa using quiet
  · next before after rule =>
    rw [Bool.and_eq_true, beq_iff_eq, beq_iff_eq] at quiet
    obtain ⟨rfl, rfl⟩ := quiet
    rw [rule] at h
    cases n with
    | scalar tag text start stop =>
      simp only [ruledKey, KeyRule.key, Node.content, Except.ok.injEq] at h
      split at h
      · cases h
      · cases h
        rw [Node.refersPlainly, Bool.not_eq_true'] at plain
        exact plain
    | _ => cases h
  · cases quiet

namespace Schema

/-- Nothing that is read with the entry in the slot defines a resource. -/
inductive Quiet (S : Schema) : Slot → Prop
  | intro {slot : Slot} (lt : slot < S.size) (quiet : (S.entry slot).isQuiet = true)
      (members : ∀ p ∈ (S.entry slot).shape.members, Quiet S p.2) : Quiet S slot

namespace Quiet

theorem lt (h : S.Quiet slot) : slot < S.size := by
  cases h with
  | intro lt _ _ => exact lt

theorem isQuiet (h : S.Quiet slot) : (S.entry slot).isQuiet = true := by
  cases h with
  | intro _ quiet _ => exact quiet

private theorem members (h : S.Quiet slot) : ∀ p ∈ (S.entry slot).shape.members, S.Quiet p.2 := by
  cases h with
  | intro _ _ members => exact members

/-- Quiet entries stay so. -/
theorem grow (h : S.Quiet slot) (grown : S.Grows T) : T.Quiet slot := by
  induction h with
  | intro lt quiet members ih =>
    have same := grown.entry_eq lt
    refine .intro (Nat.lt_of_lt_of_le lt grown.size) ?_ ?_
    · rw [same]
      exact quiet
    · rw [same]
      exact ih

/-- An entry that is added is quiet if it is so itself and refers to quiet ones. -/
theorem push {e : Entry} (quiet : e.isQuiet = true) (members : ∀ p ∈ e.shape.members, S.Quiet p.2) :
    Schema.Quiet (S.push e) S.size := by
  have same : Schema.entry (S.push e) S.size = e := by rw [entry_push, if_pos rfl]
  refine .intro (by simp) ?_ ?_
  · rw [same]
    exact quiet
  · rw [same]
    exact fun p mem => (members p mem).grow (.push S e)

end Quiet

end Schema

/-- Nothing that is read by the listing defines a resource. -/
structure Listing.Quiet (S : Schema) (listing : Listing) : Prop where
  members : ∀ p ∈ listing.members, S.Quiet p.2
  reference : ∀ key, listing.reference = some key → readsAsDefinition key = false

/-! ### Slots -/

namespace Schema.Quiet

variable {inner : Slot}

private theorem each (h : S.Quiet slot) (shape : (S.entry slot).shape = .each inner) : S.Quiet inner :=
  h.members (anyName, inner) (by rw [shape]; exact List.mem_singleton_self _)

private theorem slotOr {fresh : Entry} (h : S.Quiet slot)
    (placed : ((S.entry slot).shape.slotOr fresh).runFrom S = (.ok inner, T)) (quiet : fresh.isQuiet = true)
    (same : fresh.shape = (S.entry slot).shape) : T.Quiet inner := by
  unfold Shape.slotOr at placed
  split at placed
  · next shape =>
    cases placed
    exact h.each shape
  · cases placed
    exact .push quiet (same ▸ h.members)

private theorem referringSlot {listing : Listing} (h : S.Quiet slot)
    (reference : ∀ key, listing.reference = some key → readsAsDefinition key = false)
    (placed : (listing.referringSlot key slot).runFrom S = (.ok inner, T)) : T.Quiet inner := by
  unfold Listing.referringSlot at placed
  split at placed
  · cases placed
    exact h
  · next referred found =>
    rw [Reading.runFrom_bind, Reading.runFrom_entry] at placed
    dsimp only at placed
    split at placed
    · cases placed
      refine .push ?_ h.members
      simpa [Entry.isQuiet] using reference referred found
    · cases placed
      exact h

theorem valueSlot {listing : Listing} (h : S.Quiet slot)
    (reference : ∀ key, listing.reference = some key → readsAsDefinition key = false)
    (placed : (Page.valueSlot slot listing key).runFrom S = (.ok inner, T)) : T.Quiet inner := by
  rw [Page.valueSlot_eq] at placed
  obtain ⟨entry, _, same, placed⟩ := Reading.runFrom_bind_eq_ok_iff.1 placed
  cases same
  obtain ⟨middle, U, first, placed⟩ := Reading.runFrom_bind_eq_ok_iff.1 placed
  rw [Entry.innerSlot_eq] at first
  exact (h.slotOr first rfl rfl).referringSlot reference placed

end Schema.Quiet

namespace Listing

variable {listing : Listing}

private theorem Quiet.grow (h : listing.Quiet S) (grown : S.Grows T) : listing.Quiet T :=
  ⟨fun p mem => (h.members p mem).grow grown, h.reference⟩

/-- The slot of a key is that of its name, that of all names, or a new one. -/
theorem keySlot_cases (placed : (listing.keySlot key).runFrom S = (.ok slot, T)) :
    listing.members.lookup key = some slot ∧ T = S ∨
      listing.members.lookup key = none ∧
        (listing.members.lookup anyName = some slot ∧ T = S ∨ slot = S.size ∧ T = S.push {}) := by
  rw [keySlot, slot?] at placed
  cases here : listing.members.lookup key with
  | some found =>
    rw [here] at placed
    cases placed
    exact .inl ⟨rfl, rfl⟩
  | none =>
    rw [here] at placed
    cases all : listing.members.lookup anyName with
    | some found =>
      rw [all] at placed
      cases placed
      exact .inr ⟨rfl, .inl ⟨rfl, rfl⟩⟩
    | none =>
      rw [all] at placed
      cases placed
      exact .inr ⟨rfl, .inr ⟨rfl, rfl⟩⟩

private theorem Quiet.keySlot (h : listing.Quiet S) (placed : (listing.keySlot key).runFrom S = (.ok slot, T)) :
    T.Quiet slot := by
  rcases keySlot_cases placed with ⟨found, rfl⟩ | ⟨_, ⟨found, rfl⟩ | ⟨rfl, rfl⟩⟩
  · exact h.members _ (mem_of_lookup found)
  · exact h.members _ (mem_of_lookup found)
  · exact .push rfl fun _ mem => absurd mem List.not_mem_nil

end Listing

private theorem Entry.quiet_of_listing (h : S.Quiet slot) {members : List (Node × Node)}
    (plain : (Node.mapping tag members start stop).refersPlainly = true) {listing : Listing}
    (listed : (S.entry slot).listing members = .ok listing) : listing.Quiet S := by
  obtain ⟨reference, rfl, ⟨_, rfl⟩ | ⟨_, made⟩⟩ := Entry.listing_eq_ok listed
  · exact ⟨h.members, fun _ named => by cases named⟩
  · refine ⟨h.members, ?_⟩
    rintro key rfl
    rw [Node.refersPlainly, Bool.and_eq_true, made] at plain
    simpa using plain.2

/-! ### Readings -/

/-- The names of a piece in the index. -/
def Piece.names (piece : Piece) : List String :=
  piece.parts.filterMap Outline.name?

/-- The names of pieces in the index that read as definitions. -/
def definitionsIn (pieces : List Piece) : List String :=
  (pieces.flatMap Piece.names).filter readsAsDefinition

theorem definitionsIn_append (a b : List Piece) : definitionsIn (a ++ b) = definitionsIn a ++ definitionsIn b := by
  rw [definitionsIn, List.flatMap_append, List.filter_append]
  rfl

theorem definitionsIn_cons (piece : Piece) (rest : List Piece) :
    definitionsIn (piece :: rest) = definitionsIn [piece] ++ definitionsIn rest :=
  definitionsIn_append [piece] rest

/-- What is read defines no resource, as the schema and the document say. -/
def Input.Quiet (S : Schema) : Input → Prop
  | .root slot n => S.Quiet slot ∧ n.refersPlainly = true
  | .node slot n => S.Quiet slot ∧ n.refersPlainly = true
  | .items slot members => S.Quiet slot ∧ itemsReferPlainly members = true
  | .pairs listing _ members => listing.Quiet S ∧ pairsReferPlainly members = true

private theorem definitionsIn_eq_nil_iff {pieces : List Piece} :
    definitionsIn pieces = [] ↔ ∀ piece ∈ pieces, ∀ name ∈ piece.names, readsAsDefinition name = false := by
  simp only [definitionsIn, List.filter_eq_nil_iff, List.mem_flatMap, Bool.not_eq_true]
  constructor
  · intro h piece mem name named
    exact h name ⟨piece, mem, named⟩
  · rintro h name ⟨piece, mem, named⟩
    exact h piece mem name named

namespace ScalarReading

variable {r : ScalarReading} {found : Outlined}

private theorem quiet_names (made : r.outlined = .ok found) (quiet : r.entry.isQuiet = true)
    (plain : readsAsDefinition (templateKey r.text) = false) :
    ∀ name ∈ Outline.names found.1, readsAsDefinition name = false := by
  intro name mem
  rcases names_eq made with ⟨_, none⟩ | ⟨_, key, ruled, names⟩
  · rw [none] at mem
    cases mem
  · rw [names] at mem
    obtain ⟨same, copy, named⟩ := List.mem_filterMap.1 mem
    obtain ⟨rfl, _⟩ := Option.filter_eq_some_iff.1 named
    rw [← List.eq_of_mem_replicate copy] at ruled
    have plain : (Node.scalar "" r.text r.start r.stop).refersPlainly = true := by
      simpa [Node.refersPlainly] using plain
    exact Entry.readsAsDefinition_of_ruledKey quiet plain ruled

/-- The outline of a key has the name that it has without what is below it. -/
theorem mem_names_of_below (made : r.outlined = .ok found) {children : List Outline} {name : String}
    (mem : name ∈ (Piece.scalar r (Page.below found.1 children)).names) : name ∈ Outline.names found.1 := by
  obtain ⟨o, single⟩ := outlined_eq_singleton made
  rw [single] at mem ⊢
  obtain ⟨part, here, named⟩ := List.mem_filterMap.1 mem
  cases List.mem_singleton.1 here
  rw [Outline.name?_withChildren] at named
  refine List.mem_filterMap.2 ⟨o, ?_, named⟩
  rw [Outline.preorderAll, Outline.preorderAll, List.append_nil]
  exact o.mem_preorder_self

end ScalarReading

theorem Reading.Growing.grows {α : Type} {x : Reading α} (h : x.Growing) {result : Except Fault α}
    (run : x.runFrom S = (result, T)) : S.Grows T := by
  have grown := h S
  rwa [run] at grown

/-- The schema grows while a key is read. -/
theorem grows_key {page : Page} {r : ScalarReading} {last : Position} {remark : Option Remark}
    (read : r = ⟨page, slot, ((S.settle slot .keyword).entry slot).ofTag tag, true, text, start, stop, last, remark⟩) :
    S.Grows (r.settle (S.settle slot .keyword)) := by
  have grown := page.growing_keyBy slot tag text start stop last remark S
  rw [Page.keyBy, Reading.runFrom_bind, Reading.runFrom_settle] at grown
  simp only [Page.runFrom_scalarBy _ _ _ _ _ _ _ _ true _ read] at grown
  exact grown

/-- A key that is read with a quiet entry does not read as a definition. -/
theorem definitionsIn_key {page : Page} {r : ScalarReading} {last mid : Position} {remark : Option Remark}
    {outlines children : List Outline}
    (read : r = ⟨page, slot, ((S.settle slot .keyword).entry slot).ofTag tag, true, text, start, stop, last, remark⟩)
    (made : r.outlined = .ok (outlines, mid)) (lt : slot < S.size) (quiet : (S.entry slot).isQuiet = true)
    (plain : (Node.scalar tag text start stop).refersPlainly = true) :
    definitionsIn [.scalar r (Page.below outlines children)] = [] := by
  rw [definitionsIn_eq_nil_iff, List.forall_mem_singleton]
  intro name mem
  refine ScalarReading.quiet_names made ?_ ?_ name (ScalarReading.mem_names_of_below made mem)
  · have grown : S.Grows (S.settle slot .keyword) := .settle S slot (.inl (.inl rfl))
    rw [read, grown.entry_eq lt]
    exact quiet
  · rw [read]
    simpa [Node.refersPlainly] using plain

/-- A block by a quiet entry does not read as a definition. -/
theorem definitionsIn_block {e : Entry} {n : Node} {localKey indexKey : Option String} {range : Range}
    {children : Option (List Outline)} (quiet : e.isQuiet = true) (plain : n.refersPlainly = true)
    (rule : ruledKey e.indexKey n.content = .ok indexKey) :
    definitionsIn [.block n (.block localKey indexKey range children)] = [] := by
  rw [definitionsIn_eq_nil_iff, List.forall_mem_singleton]
  intro name mem
  obtain ⟨part, here, named⟩ := List.mem_filterMap.1 mem
  cases List.mem_singleton.1 here
  obtain ⟨rfl, _⟩ := Option.filter_eq_some_iff.1 named
  exact Entry.readsAsDefinition_of_ruledKey quiet plain rule

namespace Reads

variable {page : Page} {input : Input} {last : Position} {pieces : List Piece} {found : Outlined}

/-- Nothing that is read with quiet entries has a name that reads as a definition. -/
theorem quiet (h : Reads page input S last pieces found T) (quiet : input.Quiet S) : definitionsIn pieces = [] := by
  induction h with
  | scalar read made =>
    obtain ⟨slot, plain⟩ := quiet
    rw [definitionsIn_eq_nil_iff, List.forall_mem_singleton]
    refine ScalarReading.quiet_names made ?_ ?_
    · rw [read]
      exact slot.isQuiet
    · rw [read]
      rwa [Node.refersPlainly, Bool.not_eq_true'] at plain
  | sequence placed items ih =>
    rw [Page.itemSlot_eq] at placed
    exact ih ⟨quiet.1.slotOr placed rfl rfl, quiet.2⟩
  | mapping listed pairs ih =>
    obtain ⟨slot, plain⟩ := quiet
    refine ih ⟨Entry.quiet_of_listing slot plain listed, ?_⟩
    rw [Node.refersPlainly, Bool.and_eq_true] at plain
    exact plain.1
  | bare _ root ih => exact ih quiet
  | enclosed encloses localRule indexRule root ih =>
    rw [definitionsIn_cons, ih quiet, definitionsIn_block quiet.1.isQuiet quiet.2 indexRule]
    rfl
  | noItems => rfl
  | item node items ihn ihi =>
    obtain ⟨slot, plain⟩ := quiet
    rw [itemsReferPlainly, Bool.and_eq_true] at plain
    rw [definitionsIn_append, ihn ⟨slot, plain.1⟩, ihi ⟨slot.grow node.grows, plain.2⟩, List.append_nil]
  | noPairs => rfl
  | pair placed read made valuePlaced node pairs ihn ihp =>
    obtain ⟨listing, plain⟩ := quiet
    rw [pairsReferPlainly, Bool.and_eq_true, Bool.and_eq_true] at plain
    have keyGrown := (Page.growing_keySlot _ _).grows placed
    have valueGrown := (grows_key read).trans ((Page.growing_valueSlot _ _ _).grows valuePlaced)
    have slot := listing.keySlot placed
    rw [List.cons_append, definitionsIn_cons, definitionsIn_append,
      definitionsIn_key read made slot.lt slot.isQuiet plain.1.1,
      ihn ⟨(slot.grow (grows_key read)).valueSlot listing.reference valuePlaced, plain.1.2⟩,
      ihp ⟨listing.grow (keyGrown.trans (valueGrown.trans node.grows)), plain.2⟩]
    rfl

end Reads

end ManifestLens
