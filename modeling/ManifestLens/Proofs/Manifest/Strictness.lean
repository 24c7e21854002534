import ManifestLens.Proofs.Manifest.Quiet

/-!
# Keys that the schema does not list

A mapping that is read with a strict entry has a remark on each key that the entry does not list, where the key is new
(`Reads.map_remark_pairs`).  In a list under such an entry the items are read with an entry of their own, which lists
the same names but is not strict, so only keys that are there twice have a remark (`Reads.map_remark_items`).
-/

namespace ManifestLens

open Yaml (Mark Node)

/-- The remark on an outline. -/
def Outline.remark? : Outline → Option Remark
  | .token t _ => t.remark
  | _ => none

/-- The remarks on keys, given the keys before them: a key that was there before is a duplicate, and what is remarked on
any other is given. -/
def keyRemarks (onNew : String → Option Remark) (seen : List String) : List String → List (Option Remark)
  | [] => []
  | key :: rest =>
    (if seen.contains key then some duplicateKey else onNew key) :: keyRemarks onNew (key :: seen) rest

/-- The remark on a key that is new, if all names must be listed. -/
def unlisted (members : List (String × Slot)) (key : String) : Option Remark :=
  if (members.lookup key).isNone then some unknownKey else none

/-- The remarks are the same exactly if they are on the keys that are new. -/
private theorem keyRemarks_eq_iff {f g : String → Option Remark} {seen keys : List String} :
    keyRemarks f seen keys = keyRemarks g seen keys ↔ ∀ key ∈ keys, key ∈ seen ∨ f key = g key := by
  induction keys generalizing seen with
  | nil => exact ⟨fun _ _ h => absurd h List.not_mem_nil, fun _ => rfl⟩
  | cons key rest ih =>
    rw [keyRemarks, keyRemarks, List.cons.injEq, ih, List.forall_mem_cons]
    have here : ((if seen.contains key then some duplicateKey else f key) =
        if seen.contains key then some duplicateKey else g key) ↔ key ∈ seen ∨ f key = g key := by
      by_cases old : key ∈ seen <;> simp [old]
    rw [here]
    refine and_congr_right fun agree => forall₂_congr fun other _ => ?_
    -- a later key that is the same as this one is no longer new
    rw [List.mem_cons]
    constructor
    · rintro ((rfl | old) | same)
      · exact agree
      · exact .inl old
      · exact .inr same
    · rintro (old | same)
      · exact .inl (.inr old)
      · exact .inr same

/-! ### The keys of a mapping -/

/-- The text of a key. -/
def keyText : Node → String
  | .scalar _ text _ _ => text
  | _ => ""

/-- The key is a scalar on one line, and no expression: no entry is listed for it that may say so, if it starts with an
equals sign. -/
def IsPlainKey (members : List (String × Slot)) : Node → Prop
  | .scalar _ text start stop =>
    start.line = stop.line ∧
      (text.toList.head? = some '=' → members.lookup text = none ∧ members.lookup anyName = none)
  | _ => False

instance (members : List (String × Slot)) : (n : Node) → Decidable (IsPlainKey members n)
  | .scalar _ text start stop =>
    inferInstanceAs (Decidable (start.line = stop.line ∧
      (text.toList.head? = some '=' → members.lookup text = none ∧ members.lookup anyName = none)))
  | .sequence _ _ _ _ => .isFalse id
  | .mapping _ _ _ _ => .isFalse id

/-- The texts of the keys of a mapping. -/
def Yaml.Node.keys : Node → List String
  | .mapping _ members _ _ => members.map fun p => keyText p.1
  | _ => []

/-- A mapping all whose keys are plain. -/
def Yaml.Node.HasPlainKeys (members : List (String × Slot)) : Node → Prop
  | .mapping _ pairs _ _ => ∀ p ∈ pairs, IsPlainKey members p.1
  | _ => False

instance (members : List (String × Slot)) : (n : Node) → Decidable (n.HasPlainKeys members)
  | .mapping _ pairs _ _ => inferInstanceAs (Decidable (∀ p ∈ pairs, IsPlainKey members p.1))
  | .sequence _ _ _ _ => .isFalse id
  | .scalar _ _ _ _ => .isFalse id

/-! ### Remarks of readings -/

/-- The remark on a key that is new. -/
def Listing.onNew (listing : Listing) : String → Option Remark :=
  if listing.strict then unlisted listing.members else fun _ => none

private theorem Listing.remark_eq (listing : Listing) (seen : List String) (key : String) :
    listing.remark seen key = if seen.contains key then some duplicateKey else listing.onNew key := by
  rw [remark, onNew]
  cases listing.strict <;> rfl

/-- A plain key is a token with the remark of the key, whatever stands below it. -/
private theorem ScalarReading.map_remark_below {r : ScalarReading} {found : Outlined} (made : r.outlined = .ok found)
    (line : r.start.line = r.stop.line) (plain : r.isExpression = false) (children : List Outline) :
    (Page.below found.1 children).map Outline.remark? = [r.remark] := by
  rcases outlined_cases made with ⟨expression, _⟩ | ⟨_, _, _, _, first, _, _, isFirst, form⟩
  · rw [plain] at expression
    cases expression
  · rw [if_pos (by omega)] at form
    rw [form, isFirst]
    rfl

namespace Reads

variable {page : Page} {S T : Schema} {last : Position} {pieces : List Piece} {found : Outlined}

/-- A key for which no entry is listed is read as a keyword, also if it starts with an equals sign. -/
private theorem isExpression_key {listing : Listing} {key tag : String} {keySlot : Slot} {r : ScalarReading}
    (placed : (listing.keySlot key).runFrom S = (.ok keySlot, T)) (text : r.text = key)
    (entry : r.entry = ((T.settle keySlot .keyword).entry keySlot).ofTag tag)
    (plain : key.toList.head? = some '=' → listing.members.lookup key = none ∧ listing.members.lookup anyName = none) :
    r.isExpression = false := by
  rw [ScalarReading.isExpression, Bool.and_eq_false_iff, text]
  by_cases sign : key.toList.head? = some '='
  · obtain ⟨unlisted, noName⟩ := plain sign
    refine .inl ?_
    rcases Listing.keySlot_cases placed with ⟨found, -⟩ | ⟨-, ⟨found, -⟩ | ⟨rfl, rfl⟩⟩
    · rw [unlisted] at found
      cases found
    · rw [noName] at found
      cases found
    · rw [entry, Schema.entry_settle _ (by simp), if_pos rfl, Schema.entry_push, if_pos rfl]
      rfl
  · exact .inr (beq_eq_false_iff_ne.2 sign)

theorem map_remark_pairs {listing : Listing} {seen : List String} {members : List (Node × Node)}
    (h : Reads page (.pairs listing seen members) S last pieces found T)
    (plain : ∀ p ∈ members, IsPlainKey listing.members p.1) :
    found.1.map Outline.remark? = keyRemarks listing.onNew seen (members.map fun p => keyText p.1) := by
  induction members generalizing seen S last pieces found with
  | nil =>
    cases h
    rfl
  | cons p members ih =>
    cases h with
    | pair placed read made valuePlaced node pairs =>
      obtain ⟨⟨line, sign⟩, plain⟩ := List.forall_mem_cons.1 plain
      have here := ScalarReading.map_remark_below made (by rw [read]; exact line)
        (isExpression_key placed (by rw [read]) (by rw [read]) sign)
      rw [List.map_append, ih pairs plain, List.map_cons, keyRemarks]
      refine (congrArg (· ++ _) (here _)).trans ?_
      rw [read, Listing.remark_eq]
      rfl

/-- A mapping that is read without a block around it has the remarks of its keys. -/
private theorem map_remark_root {slot : Slot} {n : Node} (h : Reads page (.root slot n) S last pieces found T)
    {members : List (String × Slot)} {strict : Bool} (plain : n.HasPlainKeys members)
    (lists : (S.entry slot).shape.members = members) (isStrict : (S.entry slot).strict = strict) :
    found.1.map Outline.remark? = keyRemarks (if strict then unlisted members else fun _ => none) [] n.keys := by
  cases h with
  | scalar read made => cases plain
  | sequence placed items => cases plain
  | mapping listed pairs =>
    obtain ⟨reference, rfl, _⟩ := Entry.listing_eq_ok listed
    rw [pairs.map_remark_pairs (by rw [lists]; exact plain), Listing.onNew, lists, isStrict]
    rfl

/-- The items of a list have remarks by what their entry lists, if it puts no blocks around them. -/
theorem map_remark_items {slot : Slot} {items : List Node} (h : Reads page (.items slot items) S last pieces found T)
    (old : slot < S.size) {e : Entry} (isEntry : S.entry slot = e) (plain : ∀ n ∈ items, n.HasPlainKeys e.shape.members)
    (bare : ∀ n, e.encloses n = false) :
    found.1.map Outline.remark? = items.flatMap fun n =>
      keyRemarks (if e.strict then unlisted e.shape.members else fun _ => none) [] n.keys := by
  induction items generalizing S last pieces found e with
  | nil =>
    cases h
    rfl
  | cons n items ih =>
    obtain ⟨here, plain⟩ := List.forall_mem_cons.1 plain
    cases h with
    | @item _ U _ _ _ _ _ _ _ _ _ _ _ node items =>
      have later := node.grows.entry_eq old
      rw [isEntry] at later
      cases node with
      | enclosed encloses =>
        rw [isEntry, bare] at encloses
        cases encloses
      | bare _ root =>
        have first := root.map_remark_root here (congrArg (·.shape.members) isEntry) (congrArg Entry.strict isEntry)
        rw [List.map_append, first, List.flatMap_cons,
          ih items (Nat.lt_of_lt_of_le old root.grows.size) later plain fun n => ?_]
        rw [← bare n]
        cases n <;> rfl

end Reads

/-- An entry that lists names is strict.  A mapping that is read with it has a remark on each key that is new and not
listed.  In a list that is read with it, the items have no remarks on such keys, but only on keys that are there twice;
so an item has the same remarks in the list and on its own exactly if all its keys are listed. -/
theorem remarks_items_iff {page : Page} {slot : Slot} {S T : Schema} {members : List (String × Slot)} {tag : String}
    {items : List Node} {start stop : Mark} {last : Position} {found : Outlined}
    (lists : (S.entry slot).shape = .fields members) (strict : (S.entry slot).strict = true)
    (plain : ∀ n ∈ items, n.HasPlainKeys members)
    (read : (page.root slot last (.sequence tag items start stop)).runFrom S = (.ok found, T)) :
    found.1.map Outline.remark? = items.flatMap (fun n => keyRemarks (fun _ => none) [] n.keys) ∧
    ∀ n ∈ items,
      (∀ last' found' T', (page.root slot last' n).runFrom S = (.ok found', T') →
        found'.1.map Outline.remark? = keyRemarks (unlisted members) [] n.keys) ∧
      (keyRemarks (fun _ => none) [] n.keys = keyRemarks (unlisted members) [] n.keys ↔
        ∀ key ∈ n.keys, (members.lookup key).isSome = true) := by
  have listed : (S.entry slot).shape.members = members := by rw [lists]; rfl
  refine ⟨?_, fun n mem => ⟨fun last' found' T' read' => ?_, ?_⟩⟩
  · obtain ⟨pieces, reads⟩ := exists_reads_root _ read
    cases reads with
    | sequence placed items =>
      -- the new entry for the items takes the names over, but not that they are strict
      rw [Page.itemSlot, lists] at placed
      cases placed
      refine items.map_remark_items (by simp) (e := { shape := .fields members }) ?_ plain ?_
      · rw [Schema.entry_push, if_pos rfl]
      · intro n
        cases n <;> rfl
  · obtain ⟨pieces, reads⟩ := exists_reads_root n read'
    exact reads.map_remark_root (plain n mem) listed strict
  · rw [keyRemarks_eq_iff]
    refine forall₂_congr fun key _ => ?_
    rw [unlisted]
    cases members.lookup key <;> simp

/-- A pair of words on a line. -/
private def pairOn (line : Nat) (key value : String) : Node × Node :=
  (.scalar "str" key ⟨0, line, 2⟩ ⟨0, line, 2 + key.length⟩,
    .scalar "str" value ⟨0, line, 4 + key.length⟩ ⟨0, line, 4 + key.length + value.length⟩)

/-- A schema with an entry for checks, which lists two names and is strict. -/
private def checks : Schema := #[{}, { shape := .fields [("assert", 0), ("skip", 0)], strict := true }]

/-- How an item is read with the entry for checks, on its own or in a list. -/
private def readChecks (n : Node) : Except Fault Outlined × Schema :=
  (Page.root ⟨["- assert: a", "  skip: b", "  skip: c", "- asert: d"].map String.toList, .origin⟩ 1 .origin n).runFrom
    checks

private def firstCheck : Node :=
  .mapping "map" [pairOn 0 "assert" "a", pairOn 1 "skip" "b", pairOn 2 "skip" "c"] ⟨0, 0, 2⟩ ⟨0, 3, 0⟩

private def secondCheck : Node :=
  .mapping "map" [pairOn 3 "asert" "d"] ⟨0, 3, 2⟩ ⟨0, 4, 0⟩

private def checkList : Node :=
  .sequence "seq" [firstCheck, secondCheck] ⟨0, 0, 0⟩ ⟨0, 4, 0⟩

theorem remarks_items_checkList :
    ∃ found T, readChecks checkList = (.ok found, T) ∧
      found.1.map Outline.remark? = [none, none, some duplicateKey, none] := by
  obtain ⟨found, T, read⟩ := exists_ok_of_isSome (r := readChecks checkList) (by decide +kernel)
  exact ⟨found, T, read, (remarks_items_iff rfl rfl (by decide +kernel) read).1⟩

/-- A key that is not listed has a remark on its own, but not in a list. -/
theorem remarks_secondCheck :
    secondCheck.HasPlainKeys [("assert", 0), ("skip", 0)] ∧
      (readChecks secondCheck).1.toOption.map (·.1.map Outline.remark?) = some [some unknownKey] ∧
      (readChecks (.sequence "seq" [secondCheck] ⟨0, 3, 0⟩ ⟨0, 4, 0⟩)).1.toOption.map (·.1.map Outline.remark?) =
        some [none] := by
  decide +kernel

end ManifestLens
