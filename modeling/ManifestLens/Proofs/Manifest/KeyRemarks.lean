import Mathlib.Data.Finset.Card
import ManifestLens.Proofs.Manifest.Strictness

/-!
# The keys of a mapping

A mapping whose keys are words has one token for each pair, in order, with the outlines of the value below it
(`Page.pairs_append` and `Page.runFrom_keyOf`).  The remark on a key depends on the keys before it and on what the entry
lists, and there are as many remarks on duplicates as there are pairs beyond the distinct keys
(`count_keyRemarks`).
-/

namespace ManifestLens

open Yaml (Mark Node)

variable {S T : Schema} {page : Page} {last : Position} {found : Outlined} {listing : Listing}
  {members : List (Node × Node)}

/-- A word: a scalar on one line that does not start with an equals sign. -/
def Yaml.Node.isWord : Node → Bool
  | .scalar _ text start stop => start.line == stop.line && text.toList.head? != some '='
  | _ => false

/-! ### Counting the duplicates -/

private theorem keyRemarks_append (onNew : String → Option Remark) (seen before after : List String) :
    keyRemarks onNew seen (before ++ after) =
      keyRemarks onNew seen before ++ keyRemarks onNew (before.reverse ++ seen) after := by
  induction before generalizing seen with
  | nil => rfl
  | cons key before ih => simp [keyRemarks, ih]

/-- Each pair has a new key or a remark that its key is a duplicate. -/
theorem count_keyRemarks {onNew : String → Option Remark} (other : ∀ key, onNew key ≠ some duplicateKey)
    (keys : List String) :
    (keyRemarks onNew [] keys).count (some duplicateKey) + keys.toFinset.card = keys.length := by
  induction keys using List.reverseRecOn with
  | nil => rfl
  | append_singleton keys key ih =>
    rw [keyRemarks_append, List.count_append, List.toFinset_append, List.length_append]
    by_cases old : key ∈ keys
    · have ofLast : keyRemarks onNew (keys.reverse ++ []) [key] = [some duplicateKey] := by simp [keyRemarks, old]
      have union : keys.toFinset ∪ [key].toFinset = keys.toFinset := by simpa using old
      rw [ofLast, union, List.count_singleton_self, List.length_singleton]
      omega
    · have ofLast : keyRemarks onNew (keys.reverse ++ []) [key] = [onNew key] := by simp [keyRemarks, old]
      have card : (keys.toFinset ∪ [key].toFinset).card = keys.toFinset.card + 1 := by
        rw [Finset.card_union_of_disjoint (by simpa using old)]
        rfl
      rw [ofLast, card, List.count_singleton, if_neg (by simpa using other key), List.length_singleton]
      omega

/-! ### Reading one pair after the other -/

private theorem Reading.runFrom_bind_eq_error_iff {α β : Type} {x : Reading α} {f : α → Reading β} {e : Fault} :
    (x >>= f).runFrom S = (.error e, T) ↔
      x.runFrom S = (.error e, T) ∨ ∃ a S', x.runFrom S = (.ok a, S') ∧ (f a).runFrom S' = (.error e, T) := by
  rw [runFrom_bind]
  rcases x.runFrom S with ⟨_ | a, S'⟩ <;> simp

/-- Settling a kind leaves all else of the entries. -/
private theorem Schema.exists_entry_settle (S : Schema) (s t : Slot) (kind : TokenKind) :
    ∃ k, (S.settle s kind).entry t = { S.entry t with kind := k } := by
  rw [entry, entry, settle, Array.getElem?_modify]
  rcases S[t]? with _ | e
  · exact ⟨_, by split <;> rfl⟩
  · by_cases same : s = t
    · by_cases unset : e.kind = .unset
      · exact ⟨kind, by simp [same, unset]⟩
      · exact ⟨e.kind, by simp [same, unset]⟩
    · exact ⟨e.kind, by simp [same]⟩

namespace Page

/-- Reads a key, and gives the position after it and the slot of its value as well. -/
def keyOf (page : Page) (listing : Listing) (seen : List String) (last : Position) (tag key : String)
    (start stop : Mark) : Reading (List Outline × Position × Slot) := do
  let keySlot ← listing.keySlot key
  let found ← page.keyBy keySlot tag key start stop last (listing.remark seen key)
  let valueSlot ← valueSlot keySlot listing key
  return (found.1, found.2, valueSlot)

theorem pairs_eq_keyOf (page : Page) (listing : Listing) (seen : List String) (last : Position) (tag key : String)
    (start stop : Mark) (value : Node) (members : List (Node × Node)) :
    page.pairs listing seen last ((.scalar tag key start stop, value) :: members) = (do
      let found ← page.keyOf listing seen last tag key start stop
      let children ← page.node found.2.2 found.2.1 value
      let others ← page.pairs listing (key :: seen) children.2 members
      return (below found.1 children.1 ++ others.1, others.2)) := by
  rw [pairs_cons, keyOf]
  simp only [bind_assoc, pure_bind]

/-- The first pairs of a mapping are read as if there were no others, and then the others. -/
theorem pairs_append (page : Page) (listing : Listing) (seen : List String) (last : Position)
    (before after : List (Node × Node)) :
    page.pairs listing seen last (before ++ after) = (do
      let first ← page.pairs listing seen last before
      let rest ← page.pairs listing ((before.map fun p => keyText p.1).reverse ++ seen) first.2 after
      return (first.1 ++ rest.1, rest.2)) := by
  induction before generalizing seen last with
  | nil => simp [pairs]
  | cons p before ih =>
    obtain ⟨key, value⟩ := p
    cases key with
    | scalar tag key start stop =>
      rw [List.cons_append, pairs_eq_keyOf, pairs_eq_keyOf]
      simp only [ih, bind_assoc, pure_bind, List.map_cons, keyText, List.reverse_cons, List.append_assoc,
        List.singleton_append]
    | sequence tag items start stop => rfl
    | mapping tag pairs start stop => rfl

/-- A scalar on one line that is no expression is one token, unless one of its rules cannot make a key. -/
theorem scalar_of_line {entry : Entry} {text : String} {start stop : Mark} {remark : Option Remark}
    (line : start.line = stop.line) :
    page.scalar entry text start stop last remark = (do
      let localKey ← ruledKey entry.localKey (.text text)
      let indexKey ← ruledKey entry.indexKey (.text text)
      return ([.token (page.firstToken entry start last ((stop.column : Int) - start.column) localKey indexKey remark)
        none], start.position)) := by
  have oneLine : stop.line - start.line - 1 = 0 := by omega
  rw [scalar, firstLength, if_pos (beq_iff_eq.2 line), oneLine]
  rfl

private theorem exists_runFrom_keySlot (listing : Listing) (key : String) (S : Schema) :
    ∃ slot T, (listing.keySlot key).runFrom S = (.ok slot, T) := by
  rw [Listing.keySlot]
  cases listing.slot? key <;> exact ⟨_, _, rfl⟩

private theorem exists_runFrom_valueSlot (keySlot : Slot) (listing : Listing) (key : String) (S : Schema) :
    ∃ slot T, (valueSlot keySlot listing key).runFrom S = (.ok slot, T) := by
  have inner : ∃ slot T, (S.entry keySlot).innerSlot.runFrom S = (.ok slot, T) := by
    rw [Entry.innerSlot]
    cases (S.entry keySlot).shape <;> exact ⟨_, _, rfl⟩
  obtain ⟨slot, T, inner⟩ := inner
  rw [valueSlot_eq, Reading.runFrom_bind, Reading.runFrom_entry]
  dsimp only
  rw [Reading.runFrom_bind, inner]
  dsimp only
  rw [Listing.referringSlot]
  cases listing.reference with
  | none => exact ⟨_, _, rfl⟩
  | some reference =>
    rw [Reading.runFrom_bind, Reading.runFrom_entry]
    dsimp only
    split <;> exact ⟨_, _, rfl⟩

section Key

variable {tag key : String} {start stop : Mark} (word : (Node.scalar tag key start stop).isWord = true)

include word

/-- A word is read as a scalar on one line, with the rules of its slot. -/
private theorem runFrom_keyBy (page : Page) (keySlot : Slot) (last : Position) (remark : Option Remark) (S : Schema) :
    ∃ entry : Entry, entry.localKey = (S.entry keySlot).localKey ∧ entry.indexKey = (S.entry keySlot).indexKey ∧
      ((page.keyBy keySlot tag key start stop last remark).runFrom S).1 = (do
        let localKey ← ruledKey entry.localKey (.text key)
        let indexKey ← ruledKey entry.indexKey (.text key)
        return ([.token (page.firstToken entry start last ((stop.column : Int) - start.column) localKey indexKey remark)
          none], start.position)) := by
  rw [Node.isWord, Bool.and_eq_true, beq_iff_eq, bne_iff_ne] at word
  obtain ⟨line, sign⟩ := word
  obtain ⟨kind, isEntry⟩ := S.exists_entry_settle keySlot keySlot .keyword
  refine ⟨((S.settle keySlot .keyword).entry keySlot).ofTag tag, ?_, ?_, ?_⟩
  · rw [isEntry]
    rfl
  · rw [isEntry]
    rfl
  · rw [keyBy, Reading.runFrom_bind, Reading.runFrom_settle]
    dsimp only
    rw [runFrom_scalarBy _ _ _ _ _ _ _ _ true _ rfl, ScalarReading.outlined, if_neg, scalar_of_line line]
    simp [ScalarReading.isExpression, sign]

variable {seen : List String}

/-- The token of a key. -/
private theorem token_of_keyOf {outlines : List Outline} {next : Position} {valueSlot : Slot}
    (read : (page.keyOf listing seen last tag key start stop).runFrom S = (.ok (outlines, next, valueSlot), T)) :
    ∃ t, outlines = [.token t none] ∧ t.place = start.position.relativeTo page.anchor ∧
      t.length = (stop.column : Int) - start.column ∧ t.remark = listing.remark seen key := by
  obtain ⟨keySlot, U, _, read⟩ := Reading.runFrom_bind_eq_ok_iff.1 read
  obtain ⟨found, V, isKey, read⟩ := Reading.runFrom_bind_eq_ok_iff.1 read
  obtain ⟨valueSlot, W, _, read⟩ := Reading.runFrom_bind_eq_ok_iff.1 read
  cases read
  obtain ⟨entry, _, _, made⟩ := runFrom_keyBy word page keySlot last (listing.remark seen key) U
  rw [isKey] at made
  obtain ⟨localKey, _, made⟩ := except_bind_eq_ok_iff.1 made.symm
  obtain ⟨indexKey, _, made⟩ := except_bind_eq_ok_iff.1 made
  cases made
  exact ⟨_, rfl, rfl, rfl, rfl⟩

/-- A key cannot be read only if one of the rules of its slot makes no key of it. -/
private theorem rule_of_keyOf {fault : Fault}
    (read : (page.keyOf listing seen last tag key start stop).runFrom S = (.error fault, T)) :
    ∃ keySlot U, (listing.keySlot key).runFrom S = (.ok keySlot, U) ∧
      (ruledKey (U.entry keySlot).localKey (.text key) = .error fault ∨
        ruledKey (U.entry keySlot).indexKey (.text key) = .error fault) := by
  obtain ⟨keySlot, U, placed⟩ := exists_runFrom_keySlot listing key S
  refine ⟨keySlot, U, placed, ?_⟩
  rw [keyOf, Reading.runFrom_bind, placed] at read
  obtain ⟨entry, sameLocal, sameIndex, made⟩ := runFrom_keyBy word page keySlot last (listing.remark seen key) U
  rw [← sameLocal, ← sameIndex]
  rcases Reading.runFrom_bind_eq_error_iff.1 read with isKey | ⟨found, V, isKey, read⟩
  · rw [isKey] at made
    rcases isLocal : ruledKey entry.localKey (.text key) with e | localKey
    · rw [isLocal] at made
      cases made
      exact .inl rfl
    · rw [isLocal] at made
      rcases isIndex : ruledKey entry.indexKey (.text key) with e | indexKey
      · rw [isIndex] at made
        cases made
        exact .inr rfl
      · rw [isIndex] at made
        cases made
  · obtain ⟨valueSlot, W, isValue⟩ := exists_runFrom_valueSlot keySlot listing key V
    rw [Reading.runFrom_bind, isValue] at read
    cases read

end Key

/-- What the reading of the pairs before, of a key and of its value give, in this order. -/
def ReadsPair (page : Page) (listing : Listing) (last : Position) (S : Schema) (before : List (Node × Node))
    (tag key : String) (start stop : Mark) (value : Node) (first : Outlined) (keyed : List Outline × Position × Slot)
    (below : Except Fault Outlined) (T : Schema) : Prop :=
  ∃ U V, (page.pairs listing [] last before).runFrom S = (.ok first, U) ∧
    (page.keyOf listing (before.map fun p => keyText p.1).reverse first.2 tag key start stop).runFrom U =
      (.ok keyed, V) ∧
    (page.node keyed.2.2 keyed.2.1 value).runFrom V = (below, T)

/-- Each pair is read after those before it, and the outlines of its value stand below its key. -/
private theorem exists_readsPair {before after : List (Node × Node)} {tag key : String} {start stop : Mark}
    {value : Node}
    (read : (page.pairs listing [] last
      (before ++ (.scalar tag key start stop, value) :: after)).runFrom S = (.ok found, T)) :
    ∃ first keyed children U rest, ReadsPair page listing last S before tag key start stop value first keyed
      (.ok children) U ∧ found.1 = first.1 ++ (below keyed.1 children.1 ++ rest) := by
  rw [pairs_append, List.append_nil] at read
  obtain ⟨first, U, isFirst, read⟩ := Reading.runFrom_bind_eq_ok_iff.1 read
  obtain ⟨others, V, isOthers, read⟩ := Reading.runFrom_bind_eq_ok_iff.1 read
  cases read
  rw [pairs_eq_keyOf] at isOthers
  obtain ⟨keyed, W, isKeyed, isOthers⟩ := Reading.runFrom_bind_eq_ok_iff.1 isOthers
  obtain ⟨children, X, isChildren, isOthers⟩ := Reading.runFrom_bind_eq_ok_iff.1 isOthers
  obtain ⟨rest, Y, isRest, isOthers⟩ := Reading.runFrom_bind_eq_ok_iff.1 isOthers
  cases isOthers
  exact ⟨first, keyed, children, X, rest.1, ⟨U, W, isFirst, isKeyed, isChildren⟩, rfl⟩

/-- If the pairs cannot be read, then there is a first key or value that cannot be read. -/
private theorem exists_fault {fault : Fault} (words : ∀ p ∈ members, p.1.isWord = true)
    (read : (page.pairs listing [] last members).runFrom S = (.error fault, T)) :
    ∃ before tag key start stop value after, members = before ++ (.scalar tag key start stop, value) :: after ∧
      ((∃ first U, (page.pairs listing [] last before).runFrom S = (.ok first, U) ∧
        (page.keyOf listing (before.map fun p => keyText p.1).reverse first.2 tag key start stop).runFrom U =
          (.error fault, T)) ∨
      ∃ first keyed, ReadsPair page listing last S before tag key start stop value first keyed (.error fault) T) := by
  induction members using List.reverseRecOn with
  | nil => cases read
  | append_singleton members p ih =>
    rw [pairs_append, List.append_nil] at read
    rcases Reading.runFrom_bind_eq_error_iff.1 read with isFirst | ⟨first, U, isFirst, read⟩
    · obtain ⟨before, tag, key, start, stop, value, after, rfl, isFault⟩ :=
        ih (fun q mem => words q (List.mem_append_left _ mem)) isFirst
      exact ⟨before, tag, key, start, stop, value, after ++ [p], by simp, isFault⟩
    · obtain ⟨key, value⟩ := p
      have word := words (key, value) (List.mem_append_right _ (List.mem_singleton.2 rfl))
      cases key with
      | sequence tag items start stop => cases word
      | mapping tag pairs start stop => cases word
      | scalar tag key start stop =>
        refine ⟨members, tag, key, start, stop, value, [], rfl, ?_⟩
        rcases Reading.runFrom_bind_eq_error_iff.1 read with pair | ⟨_, _, _, read⟩
        · rw [pairs_eq_keyOf] at pair
          rcases Reading.runFrom_bind_eq_error_iff.1 pair with isKey | ⟨keyed, V, isKey, pair⟩
          · exact .inl ⟨first, U, isFirst, isKey⟩
          · rcases Reading.runFrom_bind_eq_error_iff.1 pair with isValue | ⟨children, W, _, pair⟩
            · exact .inr ⟨first, keyed, U, V, isFirst, isKey, isValue⟩
            · cases pair
        · cases read

end Page

/-! ### Mappings -/

/-- What a mapping refers to, by its last kind and its last name. -/
theorem referenceKey_pairs (members : List (Node × Node)) :
    referenceKey (.pairs members) = .ok ((valuesAt "kind" members).getLast?.bind fun kind =>
      (valuesAt "name" members).getLast?.bind fun name =>
        if kind.isEmpty || name.isEmpty then none else some (kind.describe ++ ":" ++ name.describe ++ ":ref")) := by
  rw [referenceKey, Yaml.Content.pairs?]
  dsimp only [bind, Except.bind, pure, Except.pure]
  rcases (valuesAt "kind" members).getLast? with _ | kind
  · rfl
  · rcases (valuesAt "name" members).getLast? with _ | name
    · rfl
    · exact (apply_ite Except.ok _ _ _).symm

theorem Entry.exists_listing (e : Entry) (members : List (Node × Node)) :
    ∃ listing, e.listing members = .ok listing := by
  rw [Entry.listing, referenceKey_pairs]
  cases e.refers <;> exact ⟨_, rfl⟩

theorem Page.runFrom_rootMapping {slot : Slot} (listed : (S.entry slot).listing members = .ok listing) (last : Position)
    (tag : String) (start stop : Mark) :
    (page.root slot last (.mapping tag members start stop)).runFrom S =
      (page.pairs listing [] last members).runFrom S := by
  simp only [Page.root, Reading.runFrom_bind, Reading.runFrom_entry, Reading.runFrom_ofExcept, listed]

/-- A node is a root, or a block around the outlines of one. -/
private theorem Page.exists_rootRead_of_node {slot : Slot} {n : Node} {outer : Outlined}
    (read : (page.node slot last n).runFrom S = (.ok outer, T)) :
    ∃ found, (page.root slot last n).runFrom S = (.ok found, T) ∧
      (outer.1 = found.1 ∨
        ∃ localKey indexKey, outer.1 = [.block localKey indexKey (page.range n.start n.stop) (some found.1)]) := by
  obtain ⟨pieces, reads⟩ := exists_reads_node (exists_reads_root n) read
  cases reads with
  | bare _ root => exact ⟨outer, root.runFrom_eq, .inl rfl⟩
  | enclosed _ _ _ root => exact ⟨_, root.runFrom_eq, .inr ⟨_, _, rfl⟩⟩

/-- The remark on a key by the keys before it, and by the names that are listed where others are faults. -/
def keyRemark (earlier names : List String) (strict : Bool) (key : String) : Option Remark :=
  if key ∈ earlier then some duplicateKey else if strict = true ∧ key ∉ names then some unknownKey else none

private theorem Listing.remark_reverse (listing : Listing) (earlier : List String) (key : String) :
    listing.remark earlier.reverse key = keyRemark earlier (listing.members.map Prod.fst) listing.strict key := by
  have isListed : (listing.members.lookup key).isNone = true ↔ key ∉ listing.members.map Prod.fst := by
    rw [Option.isNone_iff_eq_none, List.lookup_eq_none_iff]
    simp only [List.mem_map, not_exists, not_and, bne_iff_ne, ne_eq, @eq_comm _ key]
  simp only [remark, keyRemark, List.contains_iff_mem, List.mem_reverse, Bool.and_eq_true, isListed]

private theorem Listing.onNew_ne_duplicateKey (listing : Listing) (key : String) :
    listing.onNew key ≠ some duplicateKey := by
  rw [Listing.onNew]
  cases listing.strict
  · simp
  · simp only [if_true, unlisted]
    split
    · decide
    · simp

private theorem length_keyRemarks (onNew : String → Option Remark) (seen keys : List String) :
    (keyRemarks onNew seen keys).length = keys.length := by
  induction keys generalizing seen with
  | nil => rfl
  | cons key keys ih => rw [keyRemarks, List.length_cons, ih, List.length_cons]

private theorem isPlainKey_of_isWord {n : Node} (word : n.isWord = true) (names : List (String × Slot)) :
    IsPlainKey names n := by
  cases n with
  | scalar tag text start stop =>
    rw [Node.isWord, Bool.and_eq_true, beq_iff_eq, bne_iff_ne] at word
    exact ⟨word.1, fun sign => absurd sign word.2⟩
  | sequence tag items start stop => cases word
  | mapping tag pairs start stop => cases word

private theorem Page.map_remark_pairs (words : ∀ p ∈ members, p.1.isWord = true)
    (read : (page.pairs listing [] last members).runFrom S = (.ok found, T)) :
    found.1.map Outline.remark? = keyRemarks listing.onNew [] (members.map fun p => keyText p.1) := by
  obtain ⟨pieces, reads⟩ := exists_reads_pairs members read
  exact reads.map_remark_pairs fun p mem => isPlainKey_of_isWord (words p mem) listing.members

/-- There is one outline for each pair. -/
private theorem Page.length_pairs (words : ∀ p ∈ members, p.1.isWord = true)
    (read : (page.pairs listing [] last members).runFrom S = (.ok found, T)) : found.1.length = members.length := by
  rw [← List.length_map Outline.remark?, Page.map_remark_pairs words read, length_keyRemarks, List.length_map]

/-- A mapping whose keys are words has a token for each pair, with the outlines of the value below it and the remark by
the keys before it.  A block around them changes nothing, and only rules and values can fail. -/
theorem keys_of_mapping (page : Page) (slot : Slot) (S : Schema) (last : Position) (tag : String)
    {members : List (Node × Node)} (start stop : Mark) (words : ∀ p ∈ members, p.1.isWord = true) :
    ∃ listing, (S.entry slot).listing members = .ok listing ∧
      (∀ found T, (page.root slot last (.mapping tag members start stop)).runFrom S = (.ok found, T) →
        found.1.length = members.length ∧
        (∀ before tag key start stop value after, members = before ++ (.scalar tag key start stop, value) :: after →
          ∃ t first keyed children U, found.1[before.length]? = some (.token t (some children.1)) ∧
            t.place = start.position.relativeTo page.anchor ∧ t.length = (stop.column : Int) - start.column ∧
            t.remark = keyRemark (before.map fun p => keyText p.1) ((S.entry slot).shape.members.map Prod.fst)
              (S.entry slot).strict key ∧
            page.ReadsPair listing last S before tag key start stop value first keyed (.ok children) U) ∧
        found.1.countP (fun o => o.remark? == some duplicateKey) + (members.map fun p => keyText p.1).toFinset.card =
          members.length) ∧
      (∀ outer T, (page.node slot last (.mapping tag members start stop)).runFrom S = (.ok outer, T) →
        ∃ found, (page.root slot last (.mapping tag members start stop)).runFrom S = (.ok found, T) ∧
          (outer.1 = found.1 ∨
            ∃ localKey indexKey, outer.1 = [.block localKey indexKey (page.range start stop) (some found.1)])) ∧
      ∀ fault T, (page.root slot last (.mapping tag members start stop)).runFrom S = (.error fault, T) →
        ∃ before tag key start stop value after, members = before ++ (.scalar tag key start stop, value) :: after ∧
          ((∃ first U keySlot V, (page.pairs listing [] last before).runFrom S = (.ok first, U) ∧
              (listing.keySlot key).runFrom U = (.ok keySlot, V) ∧
              (ruledKey (V.entry keySlot).localKey (.text key) = .error fault ∨
                ruledKey (V.entry keySlot).indexKey (.text key) = .error fault)) ∨
            ∃ first keyed, page.ReadsPair listing last S before tag key start stop value first keyed
              (.error fault) T) := by
  obtain ⟨listing, listed⟩ := (S.entry slot).exists_listing members
  refine ⟨listing, listed, fun found T read => ?_, fun outer T read => Page.exists_rootRead_of_node read,
    fun fault T read => ?_⟩
  all_goals rw [Page.runFrom_rootMapping listed] at read
  · refine ⟨Page.length_pairs words read, ?_, ?_⟩
    · rintro before tag key start stop value after rfl
      obtain ⟨first, ⟨outlines, next, valueSlot⟩, children, W, rest, pair, isFound⟩ := Page.exists_readsPair read
      obtain ⟨U, V, isFirst, isKey, isValue⟩ := pair
      have length : first.1.length = before.length :=
        Page.length_pairs (fun p mem => words p (List.mem_append_left _ mem)) isFirst
      obtain ⟨t, rfl, place, long, remark⟩ :=
        Page.token_of_keyOf (words (.scalar tag key start stop, value) (by simp)) isKey
      obtain ⟨reference, rfl, _⟩ := Entry.listing_eq_ok listed
      refine ⟨t, first, _, children, W, ?_, place, long, ?_, ⟨U, V, isFirst, isKey, isValue⟩⟩
      · rw [isFound, ← length, List.getElem?_append_right (Nat.le_refl _), Nat.sub_self]
        rfl
      · rw [remark, Listing.remark_reverse]
    · have count := count_keyRemarks listing.onNew_ne_duplicateKey (members.map fun p => keyText p.1)
      rw [← Page.map_remark_pairs words read, List.count, List.countP_map, List.length_map] at count
      exact count
  · obtain ⟨before, tag, key, start, stop, value, after, rfl, isFault⟩ := Page.exists_fault words read
    refine ⟨before, tag, key, start, stop, value, after, rfl, isFault.imp_left ?_⟩
    rintro ⟨first, U, isFirst, isKey⟩
    obtain ⟨keySlot, V, placed, rule⟩ :=
      Page.rule_of_keyOf (words (.scalar tag key start stop, value) (by simp)) isKey
    exact ⟨first, U, keySlot, V, isFirst, placed, rule⟩

/-- A word at the start of a line, with a value on the same line. -/
private def wordOn (line : Nat) (key value : String) : Node × Node :=
  (.scalar "str" key ⟨0, line, 0⟩ ⟨0, line, key.length⟩,
    .scalar "str" value ⟨0, line, key.length + 2⟩ ⟨0, line, key.length + 2 + value.length⟩)

/-- The name that stands for all, and another one twice. -/
private def starred : List (Node × Node) := [wordOn 0 "*" "x", wordOn 1 "a" "y", wordOn 2 "a" "z"]

/-- The starred pairs, read with a strict entry that has one entry for all names. -/
private def readStarred : Except Fault Outlined × Schema :=
  (Page.root ⟨["*: x", "a: y", "a: z"].map String.toList, .origin⟩ 1 .origin
    (.mapping "map" starred ⟨0, 0, 0⟩ ⟨0, 3, 0⟩)).runFrom #[{}, { shape := .each 0, strict := true }]

theorem keys_of_starred :
    (∀ p ∈ starred, p.1.isWord = true) ∧ ∃ found T, readStarred = (.ok found, T) ∧ found.1.length = 3 ∧
      (∃ t children, found.1[1]? = some (.token t (some children)) ∧ t.remark = some unknownKey) ∧
      (∃ t children, found.1[2]? = some (.token t (some children)) ∧ t.remark = some duplicateKey) ∧
      found.1.countP (fun o => o.remark? == some duplicateKey) = 1 := by
  have words : ∀ p ∈ starred, p.1.isWord = true := by decide +kernel
  refine ⟨words, ?_⟩
  obtain ⟨found, T, read⟩ := exists_ok_of_isSome (r := readStarred) (by decide +kernel)
  obtain ⟨listing, _, keys, _⟩ :=
    keys_of_mapping _ 1 #[{}, { shape := .each 0, strict := true }] .origin "map" _ _ words
  obtain ⟨length, pairs, count⟩ := keys found T read
  obtain ⟨t₁, _, _, children₁, _, there₁, _, _, remark₁, _⟩ := pairs [wordOn 0 "*" "x"] _ _ _ _ _ _ rfl
  obtain ⟨t₂, _, _, children₂, _, there₂, _, _, remark₂, _⟩ :=
    pairs [wordOn 0 "*" "x", wordOn 1 "a" "y"] _ _ _ _ _ _ rfl
  refine ⟨found, T, read, length, ⟨t₁, _, there₁, ?_⟩, ⟨t₂, _, there₂, ?_⟩, ?_⟩
  · rw [remark₁]
    decide +kernel
  · rw [remark₂]
    decide +kernel
  · have card : (starred.map fun p => keyText p.1).toFinset.card = 2 := by decide +kernel
    rw [card] at count
    exact Nat.add_right_cancel count

end ManifestLens
