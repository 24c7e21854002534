import ManifestLens.Proofs.Manifest.Run
import ManifestLens.Yaml.Node.Value

/-!
# What merge keys leave as it is

Replacing merge keys by the pairs that they stand for moves nodes around and may change the tags of keys, but each
scalar keeps its text and its marks, and each collection its marks.  So what holds of all scalars and collections in a
node by these (`Node.Every`) holds of all of them after merge keys are replaced (`Node.Every.expand`).
-/

namespace ManifestLens.Yaml

/-- Something holds of the text and marks of all scalars in a node, and something of the marks of all collections. -/
inductive Node.Every (leaf : String → Mark → Mark → Prop) (inner : Mark → Mark → Prop) : Node → Prop where
  | scalar {tag text : String} {start stop : Mark} (own : leaf text start stop) :
      Every leaf inner (.scalar tag text start stop)
  | sequence {tag : String} {items : List Node} {start stop : Mark} (own : inner start stop)
      (members : ∀ item ∈ items, Every leaf inner item) : Every leaf inner (.sequence tag items start stop)
  | mapping {tag : String} {pairs : List (Node × Node)} {start stop : Mark} (own : inner start stop)
      (keys : ∀ p ∈ pairs, Every leaf inner p.1) (values : ∀ p ∈ pairs, Every leaf inner p.2) :
      Every leaf inner (.mapping tag pairs start stop)

/-- Something holds of all nodes in pairs. -/
def EveryPair (leaf : String → Mark → Mark → Prop) (inner : Mark → Mark → Prop) (pairs : List (Node × Node)) : Prop :=
  ∀ p ∈ pairs, p.1.Every leaf inner ∧ p.2.Every leaf inner

variable {leaf : String → Mark → Mark → Prop} {inner : Mark → Mark → Prop}

theorem Node.Every.pairs {tag : String} {pairs : List (Node × Node)} {start stop : Mark}
    (h : (Node.mapping tag pairs start stop).Every leaf inner) : EveryPair leaf inner pairs := by
  cases h with
  | mapping own keys values => exact fun p mem => ⟨keys p mem, values p mem⟩

theorem Node.Every.of_pairs {tag : String} {pairs : List (Node × Node)} {start stop : Mark} (own : inner start stop)
    (h : EveryPair leaf inner pairs) : (Node.mapping tag pairs start stop).Every leaf inner :=
  .mapping own (fun p mem => (h p mem).1) (fun p mem => (h p mem).2)

private theorem Node.Every.asKey {node : Node} (h : node.Every leaf inner) : node.asKey.Every leaf inner := by
  cases h with
  | scalar own => exact .scalar own
  | sequence own members => exact .sequence own members
  | mapping own keys values => exact .mapping own keys values

private theorem EveryPair.append {a b : List (Node × Node)} (ha : EveryPair leaf inner a)
    (hb : EveryPair leaf inner b) :
    EveryPair leaf inner (a ++ b) :=
  List.forall_mem_append.2 ⟨ha, hb⟩

/-! ### Pairs that are taken over -/

mutual

private theorem everyPair_splitMerges {since : Mark} : {pairs taken own : List (Node × Node)} →
    splitMerges since pairs = .ok (taken, own) → EveryPair leaf inner pairs →
      EveryPair leaf inner taken ∧ EveryPair leaf inner own
  | [], _, _, h, every => by
    cases h
    exact ⟨every, every⟩
  | (key, value) :: rest, taken, own, h, every => by
    obtain ⟨first, every⟩ := List.forall_mem_cons.1 every
    unfold splitMerges at h
    split at h
    · obtain ⟨merges, merged, h⟩ := except_bind_eq_ok_iff.1 h
      obtain ⟨⟨others, own'⟩, split, h⟩ := except_bind_eq_ok_iff.1 h
      cases h
      obtain ⟨takenEvery, ownEvery⟩ := everyPair_splitMerges split every
      exact ⟨(everyPair_mergedFrom merged first.2).append takenEvery, ownEvery⟩
    · obtain ⟨⟨others, own'⟩, split, h⟩ := except_bind_eq_ok_iff.1 h
      cases h
      obtain ⟨takenEvery, ownEvery⟩ := everyPair_splitMerges split every
      exact ⟨takenEvery, List.forall_mem_cons.2 ⟨⟨first.1.asKey, first.2⟩, ownEvery⟩⟩

private theorem everyPair_mergedFrom {since : Mark} : {node : Node} → {pairs : List (Node × Node)} →
    mergedFrom since node = .ok pairs → node.Every leaf inner → EveryPair leaf inner pairs
  | .mapping _ _ start _, pairs, h, every => by
    unfold mergedFrom at h
    obtain ⟨⟨taken, own⟩, split, h⟩ := except_bind_eq_ok_iff.1 h
    cases h
    obtain ⟨takenEvery, ownEvery⟩ := everyPair_splitMerges split every.pairs
    exact takenEvery.append ownEvery
  | .sequence _ items _ _, pairs, h, every => by
    unfold mergedFrom at h
    obtain ⟨sources, merged, h⟩ := except_bind_eq_ok_iff.1 h
    cases h
    have members : ∀ item ∈ items, item.Every leaf inner := by
      cases every with
      | sequence own members => exact members
    have all := everyPair_mergedFromItems merged members
    intro p mem
    obtain ⟨source, listed, mem⟩ := List.mem_flatten.1 mem
    exact all source (List.mem_reverse.1 listed) p mem
  | .scalar _ _ _ _, _, h, _ => by
    unfold mergedFrom at h
    cases h

private theorem everyPair_mergedFromItems {since : Mark} : {items : List Node} → {sources : List (List (Node × Node))} →
    mergedFromItems since items = .ok sources → (∀ item ∈ items, item.Every leaf inner) →
      ∀ source ∈ sources, EveryPair leaf inner source
  | [], _, h, _ => by
    unfold mergedFromItems at h
    cases h
    exact List.forall_mem_nil _
  | .mapping _ _ start _ :: rest, sources, h, every => by
    obtain ⟨first, every⟩ := List.forall_mem_cons.1 every
    unfold mergedFromItems at h
    obtain ⟨⟨taken, own⟩, split, h⟩ := except_bind_eq_ok_iff.1 h
    obtain ⟨others, merged, h⟩ := except_bind_eq_ok_iff.1 h
    cases h
    obtain ⟨takenEvery, ownEvery⟩ := everyPair_splitMerges split first.pairs
    exact List.forall_mem_cons.2 ⟨takenEvery.append ownEvery, everyPair_mergedFromItems merged every⟩
  | .scalar _ _ _ _ :: _, _, h, _ => by
    unfold mergedFromItems at h
    cases h
  | .sequence _ _ _ _ :: _, _, h, _ => by
    unfold mergedFromItems at h
    cases h

end

/-! ### Merges in place -/

private theorem Node.Every.mapSingle {f : Node → Node}
    (keeps : ∀ node, node.Every leaf inner → (f node).Every leaf inner) {node : Node} (h : node.Every leaf inner) :
    (node.mapSingle f).Every leaf inner := by
  cases h with
  | scalar own => exact .scalar own
  | sequence own members => exact .sequence own members
  | mapping own keys values =>
    refine .mapping own ?_ ?_
    · rw [List.forall_mem_map]
      exact fun p mem => keeps _ (keys p mem)
    · rw [List.forall_mem_map]
      exact fun p mem => keeps _ (values p mem)

private theorem EveryPair.mapMerged {f : Node → Node}
    (keeps : ∀ node, node.Every leaf inner → (f node).Every leaf inner) {start : Mark} {pairs : List (Node × Node)}
    (h : EveryPair leaf inner pairs) :
    EveryPair leaf inner (mapMerged f start pairs) := by
  unfold Yaml.mapMerged
  split
  · next merged found =>
    have every : EveryPair leaf inner merged := by
      cases split : splitMerges start pairs with
      | error e =>
        rw [mergedPairs, split] at found
        cases found
      | ok r =>
        rw [mergedPairs, split] at found
        cases found
        obtain ⟨takenEvery, ownEvery⟩ := everyPair_splitMerges split h
        exact takenEvery.append ownEvery
    rw [EveryPair, List.forall_mem_map]
    exact fun p mem => ⟨(every p mem).1, keeps _ (every p mem).2⟩
  · exact h

/-- What holds of all scalars and collections holds after merge keys are replaced. -/
theorem Node.Every.expand (fuel : Nat) {node : Node} (h : node.Every leaf inner) :
    (expand fuel node).Every leaf inner := by
  induction fuel generalizing node with
  | zero => exact h
  | succ fuel ih =>
    have items {f : Node → Node} (keeps : ∀ node, node.Every leaf inner → (f node).Every leaf inner)
        {tag : String} {items : List Node} {start stop : Mark}
        (h : (Node.sequence tag items start stop).Every leaf inner) :
        (Node.sequence tag (items.map f) start stop).Every leaf inner := by
      cases h with
      | sequence own members =>
        refine .sequence own ?_
        rw [List.forall_mem_map]
        exact fun item mem => keeps item (members item mem)
    have pairs {tag : String} {pairs : List (Node × Node)} {start stop : Mark}
        (h : (Node.mapping tag pairs start stop).Every leaf inner) :
        (Node.mapping tag (mapMerged (Yaml.expand fuel) start pairs) start stop).Every leaf inner := by
      cases h with
      | mapping own keys values =>
        exact .of_pairs own (EveryPair.mapMerged (fun _ => ih) fun p mem => ⟨keys p mem, values p mem⟩)
    unfold Yaml.expand
    split
    · exact items (fun _ => ih) h
    · exact items (fun _ => .mapSingle fun _ => ih) h
    · exact items (fun _ => .mapSingle fun _ => ih) h
    · exact pairs h
    · exact pairs h
    · exact h

end ManifestLens.Yaml
