import ManifestLens.Proofs.Manifest.Elsewhere

/-!
# The items of a list

All items of a list are read with one entry, and so with all that it refers to, in which the items that come first
settle kinds.  An item is shown as in a list of its own if each of its scalars is read there with the kind that its
entry was given by the items before, and if its keys stand on one line, only then (`Reads.labels_eq_iff`).  Among
scalars it is the first that is no expression that gives its kind to all after it (`Reads.kind_items`).
-/

namespace ManifestLens

open Outline (labels)
open Yaml (Mark Node)

/-! ### Sound schemas -/

namespace Schema

variable {S T : Schema}

/-- The entries of a schema refer to entries of it only. -/
def Sound (S : Schema) : Prop :=
  ∀ s < S.size, (S.entry s).Sound S

instance (S : Schema) : Decidable S.Sound :=
  inferInstanceAs (Decidable (∀ s < S.size, (S.entry s).Sound S))

private theorem nameKind_push (sound : S.Sound) (e : Entry) {members : List (String × Slot)}
    (old : ∀ p ∈ members, p.2 < S.size) : nameKind (S.push e) members = S.nameKind members := by
  have kept : ∀ s < S.size, entry (S.push e) s = S.entry s := by
    intro s lt
    rw [entry_push, if_neg (Nat.ne_of_lt lt)]
  rw [nameKind, nameKind]
  cases found : members.lookup "name" with
  | none => rfl
  | some keySlot =>
    have lt := old _ (mem_of_lookup found)
    dsimp only
    rw [kept keySlot lt]
    cases shape : (S.entry keySlot).shape with
    | each slot =>
      dsimp only
      rw [kept slot ((sound keySlot lt).each_lt shape)]
    | _ => rfl

private theorem Sound.push (sound : S.Sound) {e : Entry} (isSound : e.Sound S) : Schema.Sound (S.push e) := by
  have still : ∀ {e' : Entry}, e'.Sound S → e'.Sound (S.push e) := by
    intro e' h
    refine ⟨fun p hp => ?_, fun refers => ?_⟩
    · rw [Array.size_push]
      exact Nat.lt_succ_of_lt (h.members p hp)
    · rw [nameKind_push sound e h.members]
      exact h.name refers
  intro s hs
  rw [Array.size_push] at hs
  rw [entry_push]
  split
  · exact still isSound
  · exact still (sound s (by omega))

private theorem Sound.itemSlot (sound : S.Sound) {slot inner : Slot} (old : slot < S.size)
    (placed : (Page.itemSlot (S.entry slot)).runFrom S = (.ok inner, T)) : T.Sound ∧ inner < T.size := by
  have isSound := sound slot old
  have fresh : ({ shape := (S.entry slot).shape } : Entry).Sound S :=
    ⟨isSound.members, fun h => absurd h Bool.false_ne_true⟩
  rw [Page.itemSlot] at placed
  cases shape : (S.entry slot).shape with
  | each inner' =>
    rw [shape] at placed
    cases placed
    exact ⟨sound, isSound.each_lt shape⟩
  | _ =>
    rw [shape] at placed fresh
    cases placed
    exact ⟨sound.push fresh, by rw [Array.size_push]; exact Nat.lt_succ_self _⟩

end Schema

/-! ### Items -/

namespace Reads

variable {page : Page} {slot : Slot} {S H T T' : Schema} {last last' mid : Position} {pieces pieces' : List Piece}
  {found : Outlined}

/-- A list is read item by item, each from the position and with the schema that the items before leave. -/
private theorem exists_item {before : List Node} {n : Node} {after : List Node}
    (h : Reads page (.items slot (before ++ n :: after)) S last pieces found T) :
    ∃ earlier mid H here next H' later, (∃ pieces, Reads page (.items slot before) S last pieces (earlier, mid) H) ∧
      (∃ pieces, Reads page (.node slot n) H mid pieces (here, next) H') ∧ found.1 = earlier ++ here ++ later := by
  induction before generalizing S last pieces found with
  | nil =>
    cases h with
    | item node items => exact ⟨[], last, S, _, _, _, _, ⟨_, .noItems⟩, ⟨_, node⟩, rfl⟩
  | cons m before ih =>
    cases h with
    | @item _ _ _ _ _ _ _ _ _ _ _ first _ node items =>
      obtain ⟨earlier, mid, H, here, next, H', later, ⟨pieces, reads⟩, isHere, parts⟩ := ih items
      refine ⟨first ++ earlier, mid, H, here, next, H', later, ⟨_, .item node reads⟩, isHere, ?_⟩
      exact (congrArg (first ++ ·) parts).trans (by simp only [List.append_assoc])

/-- A node is shown with a schema that has grown as it is without, if its scalars agree with what was settled since; and
if its keys stand on one line, only then. -/
theorem labels_eq_iff {n : Node} {here : Outlined} (sound : S.Sound) (old : slot < S.size) (grown : S.Grows H)
    (alone : Reads page (.node slot n) S last pieces found T)
    (isHere : Reads page (.node slot n) H last' pieces' here T') :
    ((∀ r ∈ scalarsOf pieces, S.Agrees H r) → labels here.1 = labels found.1) ∧
    ((∀ s ∈ n.scalars, s.isKey = true → s.start.line = s.stop.line) → labels here.1 = labels found.1 →
      ∀ r ∈ scalarsOf pieces, S.Agrees H r) := by
  have par := Past.Parallel.ofGrows sound grown
  have stays : (Past.ofGrows sound grown).move slot = slot := (Past.ofGrows sound grown).move_of_lt old
  -- read without the past, but from the position where the node is read with it
  obtain ⟨pieces₂, found₂, moved, same, entries⟩ := alone.elsewhere last'
  have agrees_iff : (∀ r ∈ scalarsOf pieces₂, S.Agrees H r) ↔ ∀ r ∈ scalarsOf pieces, S.Agrees H r := by
    have := congrArg (fun l : List (Slot × Entry) => ∀ p ∈ l,
      S.kindSince H p.1 = .unset ∨ S.kindSince H p.1 = p.2.kind) entries
    simpa only [readWith, List.forall_mem_map, Schema.Agrees] using iff_of_eq this
  rw [← same, ← agrees_iff]
  constructor
  · intro agree
    obtain ⟨_, _, followed, _⟩ := moved.follow par old agree
    rw [Input.moved, stays] at followed
    rw [(followed.unique isHere).1]
  · intro lines shown
    by_contra disagree
    have keys : ∀ r ∈ scalarsOf pieces₂, r.isKey = true → r.start.line = r.stop.line := by
      intro r hr
      have sources : (scalarsOf pieces₂).map ScalarReading.source = n.scalars := moved.map_source_scalarsOf
      exact lines r.source (sources ▸ List.mem_map_of_mem hr)
    rw [← stays] at isHere
    exact (moved.partWays par old keys disagree isHere).ne shown.symm

end Reads

/-! ### Lists of scalars -/

/-- The kind of the first scalar that is no expression, if nothing is known of it. -/
def firstKind : List Node → TokenKind
  | [] => .unset
  | .scalar tag text _ _ :: rest =>
    if scalarKind tag == .string && text.toList.head? == some '=' then firstKind rest else scalarKind tag
  | _ :: rest => firstKind rest

def Yaml.Node.isScalar : Node → Bool
  | .scalar _ _ _ _ => true
  | _ => false

/-- The first scalar that is no expression gives its kind to the entry of all of them. -/
theorem Reads.kind_items {page : Page} {slot : Slot} {S T : Schema} {last : Position} {pieces : List Piece}
    {found : Outlined} {members : List Node} (h : Reads page (.items slot members) S last pieces found T)
    (old : slot < S.size) (scalars : ∀ n ∈ members, n.isScalar = true) (unset : (S.entry slot).kind = .unset) :
    (T.entry slot).kind = firstKind members := by
  induction members generalizing S last pieces found with
  | nil =>
    cases h
    exact unset
  | cons n members ih =>
    obtain ⟨isScalar, others⟩ := List.forall_mem_cons.1 scalars
    cases n with
    | sequence => cases isScalar
    | mapping => cases isScalar
    | scalar tag text start stop =>
      cases h with
      | item node items =>
        cases node with
        | enclosed encloses => cases encloses
        | bare _ root =>
          cases root with
          | @scalar _ _ _ _ _ _ _ r _ read made =>
            have kind : r.entry.kind = scalarKind tag := by
              rw [read]
              show ((S.entry slot).ofTag tag).kind = _
              rw [Entry.ofTag, if_pos (beq_iff_eq.2 unset)]
            have isExpression : r.isExpression =
                (scalarKind tag == .string && text.toList.head? == some '=') := by
              rw [ScalarReading.isExpression, kind, read]
            have isSlot : r.slot = slot := by rw [read]
            rw [firstKind, ← isExpression]
            rw [ScalarReading.settle, isSlot, kind] at items
            split at items
            · next expression =>
              rw [if_pos expression]
              exact ih items old others unset
            · next plain =>
              rw [if_neg plain]
              have settled : ((S.settle slot (scalarKind tag)).entry slot).kind = scalarKind tag := by
                rw [Schema.entry_settle _ old, if_pos rfl, Entry.settled, if_pos (beq_iff_eq.2 unset)]
              have set : scalarKind tag ≠ .unset := by
                rcases isSettled_scalarKind tag with h | h | h <;> rw [h] <;> decide
              rw [items.grows.kind_eq (by rwa [Schema.size_settle]) (by rwa [settled]), settled]

/-- A list is read with a sound schema, and so is a list that has one of its items only.  The item is shown in both in
the same way, its tokens by their kinds, if each of its scalars is read in the list of its own with the kind that its
entry was given by the items before, where it was given one; and if its keys stand on one line, only then.  If the
items before are scalars, then the entry of the items was given the kind of the first that is no expression. -/
theorem labels_item_iff {page : Page} {slot : Slot} {S T T' : Schema} {tag tag' : String} {before after : List Node}
    {n : Node} {start stop start' stop' : Mark} {last last' : Position} {found alone : Outlined} (sound : S.Sound)
    (old : slot < S.size)
    (read : (page.root slot last (.sequence tag (before ++ n :: after) start stop)).runFrom S = (.ok found, T))
    (readAlone : (page.root slot last' (.sequence tag' [n] start' stop')).runFrom S = (.ok alone, T')) :
    ∃ inner S' H earlier here later mid pieces, (Page.itemSlot (S.entry slot)).runFrom S = (.ok inner, S') ∧
      (page.items inner last before).runFrom S' = (.ok (earlier, mid), H) ∧ found.1 = earlier ++ here ++ later ∧
      (∃ next H', (page.node inner mid n).runFrom H = (.ok (here, next), H')) ∧
      Reads page (.node inner n) S' last' pieces alone T' ∧
      ((∀ r ∈ scalarsOf pieces, S'.Agrees H r) → labels here = labels alone.1) ∧
      ((∀ s ∈ n.scalars, s.isKey = true → s.start.line = s.stop.line) → labels here = labels alone.1 →
        ∀ r ∈ scalarsOf pieces, S'.Agrees H r) ∧
      ((∀ m ∈ before, m.isScalar = true) → (S'.entry inner).kind = .unset →
        (H.entry inner).kind = firstKind before) := by
  obtain ⟨pieces, reads⟩ := exists_reads_root _ read
  obtain ⟨pieces', readsAlone⟩ := exists_reads_root _ readAlone
  cases reads with
  | @sequence _ S' _ _ inner _ _ _ _ _ _ _ placed items =>
    obtain ⟨sound', lt⟩ := sound.itemSlot old placed
    cases readsAlone with
    | sequence placed' items' =>
      cases placed'.symm.trans placed
      obtain ⟨earlier, mid, H, here, next, H', later, ⟨_, readBefore⟩, ⟨_, readHere⟩, parts⟩ := items.exists_item
      -- a list of one item is shown as the item
      cases items' with
      | item node none_ =>
        cases none_
        rw [List.append_nil]
        obtain ⟨same, only⟩ := Reads.labels_eq_iff sound' lt readBefore.grows node readHere
        exact ⟨inner, S', H, earlier, here, later, mid, _, placed, readBefore.runFrom_eq, parts,
          ⟨next, H', readHere.runFrom_eq⟩, node, same, only, readBefore.kind_items lt⟩

/-- A scalar with a tag, on a line of its own. -/
private def itemOn (line : Nat) (tag text : String) : Node :=
  .scalar (Yaml.Tag.standard tag) text ⟨0, line, 2⟩ ⟨0, line, 2 + text.length⟩

private def itemsPage : Page := ⟨["- =a + 1", "- b", "- c"].map String.toList, .origin⟩

/-- The reading of a list, of which nothing is known. -/
private def readItems (items : List Node) : Except Fault Outlined × Schema :=
  (itemsPage.root 0 .origin (.sequence (Yaml.Tag.standard "seq") items ⟨0, 0, 0⟩ ⟨0, 3, 0⟩)).runFrom #[{}]

theorem labels_item_texts :
    ∃ found alone earlier here later,
      (readItems [itemOn 0 "str" "=a + 1", itemOn 1 "str" "b", itemOn 2 "str" "c"]).1 = .ok found ∧
      (readItems [itemOn 2 "str" "c"]).1 = .ok alone ∧ found.1 = earlier ++ here ++ later ∧
      labels here = labels alone.1 := by
  have sound : Schema.Sound #[{}] := by decide +kernel
  obtain ⟨found, T, read⟩ := exists_ok_of_isSome
    (r := readItems [itemOn 0 "str" "=a + 1", itemOn 1 "str" "b", itemOn 2 "str" "c"]) (by decide +kernel)
  obtain ⟨alone, T', readAlone⟩ := exists_ok_of_isSome (r := readItems [itemOn 2 "str" "c"]) (by decide +kernel)
  obtain ⟨inner, S', H, earlier, here, later, mid, pieces, placed, items, parts, _, node, same, _, first⟩ :=
    @labels_item_iff _ _ _ _ _ _ _ [itemOn 0 "str" "=a + 1", itemOn 1 "str" "b"] [] _ _ _ _ _ _ _ _ _ sound
      (by decide) read readAlone
  refine ⟨found, alone, earlier, here, later, by rw [read], by rw [readAlone], parts, same ?_⟩
  cases placed
  have kind := first (by decide) rfl
  cases node with
  | enclosed encloses => cases encloses
  | bare _ root =>
    cases root with
    | scalar isRead made =>
      refine List.forall_mem_singleton.2 (.inr ?_)
      rw [isRead]
      exact kind

/-- The second item is a text or an expression on its own, but a number after a number. -/
theorem labels_after_number :
    (readItems [itemOn 0 "int" "5"]).1.toOption.map (labels ·.1) = some [some .number] ∧
      (readItems [itemOn 1 "str" "b"]).1.toOption.map (labels ·.1) = some [some .string] ∧
      (readItems [itemOn 0 "int" "5", itemOn 1 "str" "b"]).1.toOption.map (labels ·.1) =
        some [some .number, some .number] ∧
      (readItems [itemOn 1 "str" "b", itemOn 0 "int" "5"]).1.toOption.map (labels ·.1) =
        some [some .string, some .string] ∧
      (readItems [itemOn 0 "str" "=a"]).1.toOption.map (labels ·.1) = some [none, some .operator, some .variable] ∧
      (readItems [itemOn 1 "int" "5", itemOn 0 "str" "=a"]).1.toOption.map (labels ·.1) =
        some [some .number, some .number] := by
  decide +kernel

end ManifestLens
