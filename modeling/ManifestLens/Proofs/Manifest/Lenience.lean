import ManifestLens.Proofs.Manifest.Demands
import ManifestLens.Proofs.Manifest.Naming

/-!
# Entries that refuse little

An entry is lenient if no rule that can be reached from it can fail (`Schema.Lenient`); it admits everything in which
all keys are scalars.  Where only what is below one field can be refused, and below that again one field, a node is
admitted exactly if all that it holds at this path of fields is (`Schema.admits_iff_of_demandAt?`).  A list stands for
its items here, since these are read like the list itself.
-/

namespace ManifestLens

open Yaml (Content Mark Node)

/-! ### Nodes -/

namespace Yaml.Node

/-- What holds of a node if it holds of its parts holds of all nodes. -/
@[elab_as_elim]
theorem induction {motive : Node → Prop} (scalar : ∀ tag text start stop, motive (.scalar tag text start stop))
    (sequence : ∀ tag items start stop, (∀ item ∈ items, motive item) → motive (.sequence tag items start stop))
    (mapping : ∀ tag pairs start stop, (∀ p ∈ pairs, motive p.1 ∧ motive p.2) →
      motive (.mapping tag pairs start stop)) (n : Node) : motive n :=
  @Node.rec motive (fun items => ∀ item ∈ items, motive item) (fun pairs => ∀ p ∈ pairs, motive p.1 ∧ motive p.2)
    (fun p => motive p.1 ∧ motive p.2) scalar sequence mapping (List.forall_mem_nil _)
    (fun _ _ first others => List.forall_mem_cons.2 ⟨first, others⟩) (List.forall_mem_nil _)
    (fun _ _ first others => List.forall_mem_cons.2 ⟨first, others⟩) (fun _ _ key value => ⟨key, value⟩) n

mutual

/-- All keys in the node are scalars. -/
def hasScalarKeys : Node → Bool
  | .scalar _ _ _ _ => true
  | .sequence _ items _ _ => itemsHaveScalarKeys items
  | .mapping _ pairs _ _ => pairsHaveScalarKeys pairs

def itemsHaveScalarKeys : List Node → Bool
  | [] => true
  | n :: rest => n.hasScalarKeys && itemsHaveScalarKeys rest

def pairsHaveScalarKeys : List (Node × Node) → Bool
  | [] => true
  | (key, value) :: rest => key.isScalar && value.hasScalarKeys && pairsHaveScalarKeys rest

end

mutual

/-- The values of the key, in the node or in the items of a list. -/
def inside (key : String) : Node → List Node
  | .sequence _ items _ _ => itemsInside key items
  | n => n.fieldsAt key

def itemsInside (key : String) : List Node → List Node
  | [] => []
  | n :: rest => n.inside key ++ itemsInside key rest

end

/-- What the node holds at a path of keys. -/
def reached : List String → Node → List Node
  | [], n => [n]
  | key :: path, n => (n.inside key).flatMap (reached path)

variable {key tag : String} {items : List Node} {pairs : List (Node × Node)} {start stop : Mark}

theorem hasScalarKeys_sequence :
    (Node.sequence tag items start stop).hasScalarKeys = true ↔ ∀ item ∈ items, item.hasScalarKeys = true := by
  rw [hasScalarKeys]
  induction items with
  | nil => simp [itemsHaveScalarKeys]
  | cons n rest ih => simp [itemsHaveScalarKeys, ih]

theorem hasScalarKeys_mapping :
    (Node.mapping tag pairs start stop).hasScalarKeys = true ↔
      ∀ p ∈ pairs, p.1.isScalar = true ∧ p.2.hasScalarKeys = true := by
  rw [hasScalarKeys]
  induction pairs with
  | nil => simp [pairsHaveScalarKeys]
  | cons p rest ih => simp [pairsHaveScalarKeys, ih, and_assoc]

theorem inside_sequence : (Node.sequence tag items start stop).inside key = items.flatMap (inside key) := by
  rw [inside]
  induction items with
  | nil => rfl
  | cons n rest ih => rw [itemsInside, ih, List.flatMap_cons]

/-- What holds of the values of a key, by the pairs in which they are. -/
theorem forall_inside_mapping_iff {P : Node → Prop} (scalars : ∀ p ∈ pairs, p.1.isScalar = true) :
    (∀ m ∈ (Node.mapping tag pairs start stop).inside key, P m) ↔ ∀ p ∈ pairs, keyText p.1 = key → P p.2 := by
  rw [inside, fieldsAt, nodesAt, List.forall_mem_map]
  · simp only [List.mem_filter, and_imp]
    refine forall₂_congr fun p mem => ?_
    have isKey := scalars p mem
    obtain ⟨key, value⟩ := p
    cases key with
    | scalar tag text => simp [keyText, content, Content.isText]
    | _ => cases isKey
  · intro _ _ _ _ isSequence
    cases isSequence

theorem hasScalarKeys_of_mem_inside {n : Node} (keys : n.hasScalarKeys = true) :
    ∀ m ∈ n.inside key, m.hasScalarKeys = true := by
  induction n using Node.induction with
  | scalar => exact List.forall_mem_nil _
  | sequence tag items start stop ih =>
    rw [inside_sequence, List.forall_mem_flatMap]
    exact fun item mem => ih item mem (hasScalarKeys_sequence.1 keys item mem)
  | mapping tag pairs start stop =>
    rw [hasScalarKeys_mapping] at keys
    rw [forall_inside_mapping_iff fun p mem => (keys p mem).1]
    exact fun p mem _ => (keys p mem).2

end Yaml.Node

/-! ### Entries that can read everything -/

/-- The rule makes a key of everything. -/
def KeyRule.isTotal : KeyRule → Bool
  | .constant _ => true
  | .around _ _ => true
  | _ => false

def Entry.isTotal (e : Entry) : Bool :=
  e.localKey.all KeyRule.isTotal && e.indexKey.all KeyRule.isTotal

theorem Entry.makes_of_isTotal {e : Entry} (h : e.isTotal = true) (content : Content) : e.Makes content := by
  have made {rule : Option KeyRule} (total : rule.all KeyRule.isTotal = true) :
      ∃ key, ruledKey rule content = .ok key := by
    cases rule with
    | none => exact ⟨none, rfl⟩
    | some rule =>
      cases rule with
      | constant key => exact ⟨some key, rfl⟩
      | around before after => exact ⟨some (before ++ content.describe ++ after), rfl⟩
      | _ => cases total
  rw [isTotal, Bool.and_eq_true] at h
  exact ⟨made h.1, made h.2⟩

namespace Schema

/-- Everything can be read with the entry, as far as rules go. -/
inductive Lenient (B : Schema) : Entry → Prop where
  | intro {e : Entry} (total : e.isTotal = true) (members : ∀ p ∈ e.shape.members, Lenient B (B.entry p.2)) :
      Lenient B e

/-- All that the entry lists is lenient. -/
def HasLenientParts (B : Schema) (e : Entry) : Prop :=
  ∀ p ∈ e.shape.members, B.Lenient (B.entry p.2)

variable {B : Schema} {e : Entry} {n : Node} {key : String} {slot : Slot}

private theorem Lenient.makes (h : B.Lenient e) (content : Content) : e.Makes content := by
  cases h with
  | intro total _ => exact Entry.makes_of_isTotal total content

private theorem Lenient.parts (h : B.Lenient e) : B.HasLenientParts e := by
  cases h with
  | intro _ members => exact members

theorem HasLenientParts.innerEntry (h : B.HasLenientParts e) : B.Lenient (B.innerEntry e) := by
  rw [Schema.innerEntry]
  split
  · next slot shape =>
    refine h (anyName, slot) ?_
    rw [shape]
    exact List.mem_singleton_self _
  · exact .intro rfl h

private theorem lenient_keyEntry {members : List (String × Slot)}
    (named : ∀ p ∈ members, p.1 = key ∨ p.1 = anyName → B.Lenient (B.entry p.2)) :
    B.Lenient (B.keyEntry members key) := by
  rw [keyEntry]
  cases found : (members.lookup key).or (members.lookup anyName) with
  | none => exact .intro rfl fun p mem => absurd mem List.not_mem_nil
  | some slot =>
    rcases Option.or_eq_some_iff.1 found with here | ⟨_, any⟩
    · exact named (key, slot) (mem_of_lookup here) (.inl rfl)
    · exact named (anyName, slot) (mem_of_lookup any) (.inr rfl)

theorem Admits.hasScalarKeys (h : B.Admits e n) : n.hasScalarKeys = true := by
  induction h with
  | scalar => rfl
  | sequence _ _ ih => exact Node.hasScalarKeys_sequence.2 ih
  | mapping _ scalars _ _ ih => exact Node.hasScalarKeys_mapping.2 fun p mem => ⟨scalars p mem, ih p mem⟩

/-- If only the entry's own rules can fail, these decide. -/
theorem HasLenientParts.admits_iff (h : B.HasLenientParts e) (keys : n.hasScalarKeys = true) :
    B.Admits e n ↔ e.Makes n.content := by
  refine ⟨Admits.makes, fun makes => ?_⟩
  induction n using Node.induction generalizing e with
  | scalar => exact .scalar makes
  | sequence tag items start stop ih =>
    rw [Node.hasScalarKeys_sequence] at keys
    have lenient := h.innerEntry
    exact .sequence makes fun item mem => ih item mem lenient.parts (keys item mem) (lenient.makes _)
  | mapping tag pairs start stop ih =>
    rw [Node.hasScalarKeys_mapping] at keys
    have named (key : String) : B.Lenient (B.keyEntry e.shape.members key) :=
      lenient_keyEntry fun p mem _ => h p mem
    refine .mapping makes (fun p mem => (keys p mem).1) (fun p _ => (named _).makes _) fun p mem => ?_
    have lenient := (named (keyText p.1)).parts.innerEntry
    exact (ih p mem).2 lenient.parts (keys p mem).2 (lenient.makes _)

theorem Lenient.admits (h : B.Lenient e) (keys : n.hasScalarKeys = true) : B.Admits e n :=
  (h.parts.admits_iff keys).2 (h.makes _)

/-! ### Entries that demand something of one field -/

/-- Of the fields that the entry lists, only what is below the given one may be refused. -/
structure Demands (B : Schema) (e : Entry) (key : String) (slot : Slot) : Prop where
  named : key ≠ anyName
  total : e.isTotal = true
  found : e.shape.members.lookup key = some slot
  keyTotal : (B.entry slot).isTotal = true
  others : ∀ p ∈ e.shape.members, p.1 ≠ key → B.Lenient (B.entry p.2)

namespace Demands

/-- The items of a list are read like the list itself. -/
private theorem innerEntry (h : B.Demands e key slot) : B.Demands (B.innerEntry e) key slot := by
  rw [Schema.innerEntry]
  split
  · next shape =>
    have found := h.found
    rw [shape] at found
    have isKey := List.mem_singleton.1 (mem_of_lookup found)
    exact absurd (Prod.mk.inj isKey).1 h.named
  · exact { h with total := rfl }

private theorem keyEntry_eq (h : B.Demands e key slot) : B.keyEntry e.shape.members key = B.entry slot := by
  rw [keyEntry, h.found]
  rfl

private theorem lenient_keyEntry (h : B.Demands e key slot) {other : String} (ne : other ≠ key) :
    B.Lenient (B.keyEntry e.shape.members other) := by
  refine Schema.lenient_keyEntry fun p mem isName => h.others p mem ?_
  rcases isName with isOther | isAny
  · rw [isOther]
    exact ne
  · rw [isAny]
    exact h.named.symm

/-- A node can be read exactly if all values of the field can be read. -/
private theorem admits_iff (h : B.Demands e key slot) (keys : n.hasScalarKeys = true) :
    B.Admits e n ↔ ∀ m ∈ n.inside key, B.Admits (B.innerEntry (B.entry slot)) m := by
  have makes {e : Entry} (h : B.Demands e key slot) (content : Content) := Entry.makes_of_isTotal h.total content
  induction n using Node.induction generalizing e with
  | scalar => exact iff_of_true (.scalar (makes h _)) (List.forall_mem_nil _)
  | sequence tag items start stop ih =>
    rw [Node.hasScalarKeys_sequence] at keys
    rw [Node.inside_sequence, List.forall_mem_flatMap,
      ← forall₂_congr fun item mem => ih item mem h.innerEntry (keys item mem)]
    constructor
    · intro admitted
      cases admitted with
      | sequence _ members => exact members
    · exact .sequence (makes h _)
  | mapping tag pairs start stop ih =>
    rw [Node.hasScalarKeys_mapping] at keys
    rw [Node.forall_inside_mapping_iff fun p mem => (keys p mem).1]
    constructor
    · intro admitted
      cases admitted with
      | mapping _ _ _ values =>
        intro p mem isKey
        have value := values p mem
        rw [isKey, h.keyEntry_eq] at value
        exact value
    · intro values
      -- keys of other names meet lenient entries, so only values of the field can be refused
      refine .mapping (makes h _) (fun p mem => (keys p mem).1) (fun p mem => ?_) fun p mem => ?_
      · by_cases isKey : keyText p.1 = key
        · rw [isKey, h.keyEntry_eq]
          exact Entry.makes_of_isTotal h.keyTotal _
        · exact (h.lenient_keyEntry isKey).makes _
      · by_cases isKey : keyText p.1 = key
        · rw [isKey, h.keyEntry_eq]
          exact values p mem isKey
        · exact (h.lenient_keyEntry isKey).parts.innerEntry.admits (keys p mem).2

end Demands

/-! ### Searches -/

/-- The search finds that everything can be read with the entry. -/
def isLenientWithin (B : Schema) : (depth : Nat) → Entry → Bool
  | 0, _ => false
  | depth + 1, e => e.isTotal && e.shape.members.all fun p => B.isLenientWithin depth (B.entry p.2)

theorem lenient_of_isLenientWithin {depth : Nat} (h : B.isLenientWithin depth e = true) : B.Lenient e := by
  induction depth generalizing e with
  | zero => cases h
  | succ depth ih =>
    rw [isLenientWithin, Bool.and_eq_true, List.all_eq_true] at h
    exact .intro h.1 fun p mem => ih (h.2 p mem)

/-- The search finds which entry reads what is at the end of the path, if only that may be refused. -/
def demandAt? (B : Schema) (depth : Nat) : Entry → List String → Option Entry
  | e, [] => some e
  | e, key :: path =>
    (e.shape.members.lookup key).bind fun slot =>
      if key ≠ anyName ∧ e.isTotal = true ∧ (B.entry slot).isTotal = true ∧
          ∀ p ∈ e.shape.members, p.1 ≠ key → B.isLenientWithin depth (B.entry p.2) = true
      then B.demandAt? depth (B.innerEntry (B.entry slot)) path else none

/-- A node can be read exactly if all that it holds at the end of the path can be read. -/
theorem admits_iff_of_demandAt? {depth : Nat} {path : List String} {e' : Entry} {P : Node → Prop}
    (h : B.demandAt? depth e path = some e') (keys : n.hasScalarKeys = true)
    (ends : ∀ {m : Node}, m.hasScalarKeys = true → (B.Admits e' m ↔ P m)) :
    B.Admits e n ↔ ∀ m ∈ n.reached path, P m := by
  induction path generalizing e n with
  | nil =>
    cases h
    rw [ends keys, Node.reached, List.forall_mem_singleton]
  | cons key path ih =>
    rw [demandAt?] at h
    obtain ⟨slot, found, h⟩ := Option.bind_eq_some_iff.1 h
    split at h
    · next demands =>
      obtain ⟨named, total, keyTotal, others⟩ := demands
      have field : B.Demands e key slot :=
        ⟨named, total, found, keyTotal, fun p mem ne => lenient_of_isLenientWithin (others p mem ne)⟩
      rw [field.admits_iff keys, Node.reached, List.forall_mem_flatMap]
      exact forall₂_congr fun m mem => ih h (Node.hasScalarKeys_of_mem_inside keys m mem)
    · cases h

end Schema

end ManifestLens
