import ManifestLens.Outline.Search
import ManifestLens.Proofs.Outline.Preorder

/-!
# What is asked of an outline

The tokens of a document, its two tables of ranges and the search for a local key are separate walks through the
outline.  Below one anchor they all meet the same parts in the same order: each of them is what it takes from a part,
collected along the pre-order (`visitAll_eq_filterMap`), so what a search finds can be counted in the table of local
keys (`length_search`).
-/

namespace ManifestLens.Outline

/-- The outline is an anchor, and so the root of a document of its own. -/
def isAnchor : Outline → Bool
  | .anchor .. => true
  | _ => false

/-- The entry of a part in a table of ranges that are counted from `base`. -/
def keyEntry (base : Position) (key : Option String) (o : Outline) : Option (String × Range) :=
  (named key).map fun k => (k, o.absoluteRange base)

/-- How many entries a table has for a key. -/
def timesIn (table : List (String × Range)) (key : String) : Nat :=
  (table.map Prod.fst).count key

/-- The error at one of several parts with the same local key. -/
def ambiguous (base : Position) (key : String) (o : Outline) : Diagnostic :=
  ⟨.error, o.absoluteRange base, s!"Multiple instances of ('{key}')."⟩

theorem preorder_eq (o : Outline) : preorder o = o :: preorderAll o.parts := by
  rcases o with ⟨_, _, _, _ | _⟩ | ⟨_, _, _, _ | _⟩ | ⟨_, _ | _⟩ <;> rfl

/-! ### One induction for all walks -/

section Walk

variable {α : Type} {visit : Outline → List α} {visitAll : List Outline → List α} {take : Outline → Option α}
  {P : Outline → Prop}

private theorem visit_of_parts (visits : ∀ o, P o → visit o = (take o).toList ++ visitAll o.parts) {o : Outline}
    (holds : P o) (isBelow : visitAll o.parts = (preorderAll o.parts).filterMap take) :
    visit o = (preorder o).filterMap take := by
  rw [visits o holds, isBelow, preorder_eq, List.filterMap_cons]
  cases take o <;> rfl

mutual

private theorem visit_eq_filterMap (onNil : visitAll [] = [])
    (onCons : ∀ o rest, visitAll (o :: rest) = visit o ++ visitAll rest)
    (visits : ∀ o, P o → visit o = (take o).toList ++ visitAll o.parts) :
    (o : Outline) → (∀ part ∈ preorder o, P part) → visit o = (preorder o).filterMap take
  | .anchor _ _ _ none, all | .block _ _ _ none, all | .token _ none, all =>
    visit_of_parts visits (all _ List.mem_cons_self) onNil
  | .anchor _ _ _ (some below), all | .block _ _ _ (some below), all | .token _ (some below), all =>
    visit_of_parts visits (all _ List.mem_cons_self)
      (visitAll_eq_filterMap onNil onCons visits below fun part mem => all part (List.mem_cons_of_mem _ mem))

/-- A walk that takes something from each part before it goes below it takes it along the pre-order. -/
theorem visitAll_eq_filterMap (onNil : visitAll [] = [])
    (onCons : ∀ o rest, visitAll (o :: rest) = visit o ++ visitAll rest)
    (visits : ∀ o, P o → visit o = (take o).toList ++ visitAll o.parts) :
    (os : List Outline) → (∀ part ∈ preorderAll os, P part) → visitAll os = (preorderAll os).filterMap take
  | [], _ => onNil
  | o :: rest, all => by
    have holds := visit_eq_filterMap onNil onCons visits o fun part mem => all part (List.mem_append_left _ mem)
    have others := visitAll_eq_filterMap onNil onCons visits rest
      fun part mem => all part (List.mem_append_right _ mem)
    rw [onCons, preorderAll, List.filterMap_append, holds, others]

end

end Walk

/-! ### The tables and the search -/

theorem keyed_eq (key : Option String) (base : Position) (o : Outline) :
    keyed key (some base) o = (keyEntry base key o).toList := by
  unfold keyed keyEntry
  cases named key <;> rfl

theorem map_fst_keyEntry (base : Position) (key : Option String) (o : Outline) :
    (keyEntry base key o).map Prod.fst = named key := by
  unfold keyEntry
  cases named key <;> rfl

theorem keyEntry_of_named {key : Option String} {k : String} (isNamed : named key = some k) (base : Position)
    (o : Outline) : keyEntry base key o = some (k, o.absoluteRange base) := by
  rw [keyEntry, isNamed, Option.map_some]

theorem named_eq_some_iff {key : Option String} {k : String} : named key = some k ↔ key = some k ∧ k ≠ "" := by
  simp [named, Option.filter_eq_some_iff]

/-- Also where documents stand inside of others, a search meets the parts in reading order. -/
private theorem searchAll_eq_filter (key : String) (os : List Outline) :
    searchAll key os = (preorderAll os).filter fun o => o.localKey == some key := by
  rw [← List.filterMap_eq_filter]
  refine visitAll_eq_filterMap (P := fun _ => True) (by rw [searchAll]) (fun o rest => by rw [searchAll])
    (fun o _ => ?_) os fun _ _ => trivial
  rcases o with ⟨_, _, _, _ | _⟩ | ⟨_, _, _, _ | _⟩ | ⟨_, _ | _⟩
  all_goals simp [searchIn, searchAll, localKey, parts, children?, Option.guard]; split <;> rfl

private theorem search_eq_filter {key : String} (filled : key ≠ "") (os : List Outline) :
    search key os = (preorderAll os).filter fun o => o.localKey == some key := by
  rw [search, if_neg (by simpa using filled), searchAll_eq_filter]

section Tables

variable {os : List Outline} (noAnchors : ∀ part ∈ preorderAll os, part.isAnchor = false)

include noAnchors

theorem keyRangesAll_eq_filterMap (base : Position) :
    keyRangesAll (some base) os = (preorderAll os).filterMap fun o => keyEntry base o.indexKey o := by
  refine visitAll_eq_filterMap (by rw [keyRangesAll]) (fun o rest => by rw [keyRangesAll]) (fun o plain => ?_) os
    noAnchors
  rw [← keyed_eq]
  rcases o with _ | ⟨_, _, _, _ | _⟩ | ⟨_, _ | _⟩
  case anchor => cases plain
  all_goals simp [keyRanges, keyRangesAll, indexKey, parts, children?]

private theorem localRangesAll_eq_filterMap (base : Position) :
    localRangesAll (some base) os = (preorderAll os).filterMap fun o => keyEntry base o.localKey o := by
  refine visitAll_eq_filterMap (by rw [localRangesAll]) (fun o rest => by rw [localRangesAll]) (fun o plain => ?_) os
    noAnchors
  rw [← keyed_eq]
  rcases o with _ | ⟨_, _, _, _ | _⟩ | ⟨_, _ | _⟩
  case anchor => cases plain
  all_goals simp [localRanges, localRangesAll, localKey, parts, children?]

/-- A search finds as many parts as the table of local keys has entries of its key. -/
theorem length_search (base : Position) (key : String) :
    (search key os).length = timesIn (localRangesAll (some base) os) key := by
  rw [timesIn, localRangesAll_eq_filterMap noAnchors, List.map_filterMap, List.count_filterMap]
  simp only [map_fst_keyEntry]
  by_cases empty : key = ""
  · -- the empty key is searched nowhere, and it names nothing
    have none : ∀ o ∈ preorderAll os, ¬ (named o.localKey == some key) = true := fun o _ h =>
      (named_eq_some_iff.1 (beq_iff_eq.1 h)).2 empty
    rw [List.countP_eq_zero.2 none, search, if_pos (by simpa using empty), List.length_nil]
  · rw [search_eq_filter empty, ← List.countP_eq_length_filter]
    refine List.countP_congr fun o _ => ?_
    rw [beq_iff_eq, beq_iff_eq, named_eq_some_iff, and_iff_left empty]

end Tables

/-! ### Finding one part -/

theorem find_of_length_search {base : Position} {key : String} {os : List Outline} :
    ((search key os).length = 0 → find base key os = .missing) ∧
    ((search key os).length = 1 → ∃ o, search key os = [o] ∧ find base key os = .part o) ∧
    (1 < (search key os).length → find base key os = .faulty ((search key os).map (ambiguous base key))) := by
  unfold find
  rcases search key os with _ | ⟨o, _ | ⟨o', rest⟩⟩
  · simp
  · simp
  · refine ⟨by simp, by simp, fun _ => rfl⟩

/-! ### Counting local keys -/

/-- How often a local key occurs below an outline. -/
def timesBelow (key : String) (o : Outline) : Nat :=
  (preorderAll o.parts).countP fun part => part.localKey == some key

theorem length_search_parts {key : String} (filled : key ≠ "") (o : Outline) :
    (search key o.parts).length = o.timesBelow key := by
  rw [search_eq_filter filled, timesBelow, List.countP_eq_length_filter]

end ManifestLens.Outline

namespace ManifestLens

open Outline

/-- The table of a whole document: its own entry and those of its parts. -/
private theorem Anchor.keyRanges_outline (a : Anchor) (noAnchors : ∀ part ∈ preorderAll a.parts, part.isAnchor = false)
    (base : Option Position) :
    a.outline.keyRanges base = (keyEntry a.absolute a.key a.outline).toList ++
      (preorderAll a.parts).filterMap fun o => keyEntry a.absolute o.indexKey o := by
  rw [← keyRangesAll_eq_filterMap noAnchors, ← keyed_eq]
  obtain ⟨key, absolute, relative, _ | below⟩ := a
  · rw [Anchor.outline, keyRanges, Anchor.parts, Option.getD_none, keyRangesAll]
  · rw [Anchor.outline, keyRanges, Anchor.parts, Option.getD_some]

theorem Anchor.flatten_outline (a : Anchor) : a.outline.flatten = (preorderAll a.parts).filterMap token? := by
  rw [flatten_eq_filterMap, preorder_eq]
  rfl

/-- All that is asked of a document goes through its parts in one order, that of `preorderAll`: its tokens, its entries
in both tables, the parts with a local key, and the one part or the errors that a search for a local key gives. -/
theorem Anchor.queries_eq_preorder (a : Anchor) (noAnchors : ∀ part ∈ preorderAll a.parts, part.isAnchor = false) :
    a.outline.flatten = (preorderAll a.parts).filterMap token? ∧
    (∀ base, a.outline.keyRanges base = (keyEntry a.absolute a.key a.outline).toList ++
      (preorderAll a.parts).filterMap fun o => keyEntry a.absolute o.indexKey o) ∧
    localRangesAll (some a.absolute) a.parts =
      (preorderAll a.parts).filterMap (fun o => keyEntry a.absolute o.localKey o) ∧
    (∀ key, key ≠ "" → search key a.parts = (preorderAll a.parts).filter fun o => o.localKey == some key) ∧
    (∀ key, timesIn (localRangesAll (some a.absolute) a.parts) key = 0 → find a.absolute key a.parts = .missing) ∧
    (∀ key, timesIn (localRangesAll (some a.absolute) a.parts) key = 1 →
      ∃ o, (preorderAll a.parts).filter (fun o => o.localKey == some key) = [o] ∧
        find a.absolute key a.parts = .part o) ∧
    ∀ key, 1 < timesIn (localRangesAll (some a.absolute) a.parts) key → find a.absolute key a.parts = .faulty
      (((preorderAll a.parts).filter fun o => o.localKey == some key).map (ambiguous a.absolute key)) := by
  have searched : ∀ key, 0 < (search key a.parts).length →
      search key a.parts = (preorderAll a.parts).filter fun o => o.localKey == some key := by
    intro key found
    refine search_eq_filter (fun empty => ?_) _
    subst empty
    exact absurd found (by simp [search])
  refine ⟨a.flatten_outline, a.keyRanges_outline noAnchors, localRangesAll_eq_filterMap noAnchors _,
    fun key filled => search_eq_filter filled _, fun key times => ?_, fun key times => ?_, fun key times => ?_⟩
  all_goals rw [← length_search noAnchors a.absolute key] at times
  · exact find_of_length_search.1 times
  · rw [← searched key (by omega)]
    exact find_of_length_search.2.1 times
  · rw [← searched key (by omega)]
    exact find_of_length_search.2.2 times

/-- A document with one local key twice: inside the block below `spec`, and after it. -/
def Anchor.withNameTwice : Anchor :=
  ⟨some "Function:a", ⟨7, 0⟩, ⟨0, 0⟩, some [
    .token ⟨⟨0, 0⟩, ⟨0, 0⟩, 4, some "spec", none, .keyword, none, none⟩ (some [
      .block (some "value") none ⟨⟨1, 0⟩, ⟨3, 0⟩⟩ (some [
        .token ⟨⟨1, 2⟩, ⟨1, 2⟩, 4, some "name", some "Value:b", .property, none, none⟩ none]),
      .token ⟨⟨2, 2⟩, ⟨3, 2⟩, 4, some "name", none, .property, none, none⟩ none])]⟩

theorem Anchor.queries_eq_preorder_withNameTwice :
    (∀ part ∈ preorderAll Anchor.withNameTwice.parts, part.isAnchor = false) ∧
    Anchor.withNameTwice.outline.keyRanges none =
      [("Function:a", ⟨⟨7, 0⟩, ⟨10, 6⟩⟩), ("Value:b", ⟨⟨8, 2⟩, ⟨8, 6⟩⟩)] ∧
    find ⟨7, 0⟩ "name" Anchor.withNameTwice.parts = .faulty [
      ⟨.error, ⟨⟨8, 2⟩, ⟨8, 6⟩⟩, "Multiple instances of ('name')."⟩,
      ⟨.error, ⟨⟨10, 2⟩, ⟨10, 6⟩⟩, "Multiple instances of ('name')."⟩] := by
  have noAnchors : ∀ part ∈ preorderAll Anchor.withNameTwice.parts, part.isAnchor = false := by decide
  have queries := Anchor.withNameTwice.queries_eq_preorder noAnchors
  exact ⟨noAnchors, queries.2.1 none, queries.2.2.2.2.2.2 "name" (by decide)⟩

end ManifestLens
