import ManifestLens.Proofs.Value.Names
import ManifestLens.Value.Compare
import Mathlib.Data.List.Perm.Subperm

/-!
# Values without differences

Equality of values takes a number for what it stands for, so `1`, `1.0` and the truth value are equal, at the top and
anywhere inside a collection.  The comparison with an expected value does not: it reports nothing exactly if the two
are equal and, wherever a path leads in both of them, have the same type (`Value.Identical`).
-/

namespace ManifestLens.Value

variable {base field : String}

/-! ### Data -/

/-- A value that is built from nothing, truth values, numbers and texts, by lists and by mappings of names. -/
inductive IsData : Value → Prop where
  | null : IsData .null
  | bool (b : Bool) : IsData (.bool b)
  | int (n : Int) : IsData (.int n)
  | float (x : Float) : IsData (.float x)
  | str (s : String) : IsData (.str s)
  | list {items : List Value} (each : ∀ v ∈ items, IsData v) : IsData (.list items)
  | map {fields : List (String × Value)} (once : (fields.map Prod.fst).Nodup) (each : ∀ f ∈ fields, IsData f.2) :
      IsData (.map (Entries.ofNames fields))

/-- Lists and mappings, which are compared part by part. -/
def hasParts : Value → Bool
  | .list _ => true
  | .map _ => true
  | _ => false

theorem hasParts_eq (v : Value) : v.hasParts = (v.typeName == "list" || v.typeName == "dict") := by
  cases v <;> rfl

/-! ### Types at every level -/

/-- A way down into a value: to an item of a list, or to the value of a name. -/
inductive Way where
  | item (n : Nat)
  | name (s : String)

/-- The part of a value that a way leads to. -/
def part? : Value → Way → Option Value
  | .list items, .item n => items[n]?
  | .map entries, .name s => Entries.get? entries s
  | _, _ => none

/-- The value at the end of a path. -/
def below? : Value → List Way → Option Value
  | v, [] => some v
  | v, way :: path => (v.part? way).bind fun w => w.below? path

/-- Wherever a path leads in both values, it leads to values of the same type. -/
def SameTypes (x y : Value) : Prop :=
  ∀ path v w, x.below? path = some v → y.below? path = some w → v.typeName = w.typeName

/-- Equal values that have the same type at every level. -/
def Identical (x y : Value) : Prop :=
  x.equals y = true ∧ SameTypes x y

variable {x y : Value}

private theorem sameTypes_iff :
    SameTypes x y ↔
      x.typeName = y.typeName ∧ ∀ way v w, x.part? way = some v → y.part? way = some w → SameTypes v w := by
  constructor
  · intro same
    refine ⟨same [] x y rfl rfl, ?_⟩
    intro way v w hv hw path v' w' hv' hw'
    apply same (way :: path) v' w'
    · rw [below?, hv]
      exact hv'
    · rw [below?, hw]
      exact hw'
  · rintro ⟨top, parts⟩ path v w hv hw
    cases path with
    | nil =>
      cases hv
      cases hw
      exact top
    | cons way path =>
      obtain ⟨v', hv', hv⟩ := Option.bind_eq_some_iff.1 hv
      obtain ⟨w', hw', hw⟩ := Option.bind_eq_some_iff.1 hw
      exact parts way v' w' hv' hw' path v w hv hw

private theorem Identical.typeName_eq (h : Identical x y) : x.typeName = y.typeName :=
  (sameTypes_iff.1 h.2).1

private theorem part?_eq_none (leaf : x.hasParts = false) (way : Way) : x.part? way = none := by
  cases x with
  | list => cases leaf
  | map => cases leaf
  | _ => rfl

private theorem identical_iff_of_leaf (leaf : x.hasParts = false) :
    Identical x y ↔ x.typeName = y.typeName ∧ x.equals y = true := by
  constructor
  · exact fun h => ⟨h.typeName_eq, h.1⟩
  · rintro ⟨top, equal⟩
    refine ⟨equal, sameTypes_iff.2 ⟨top, ?_⟩⟩
    intro way v w hv
    rw [part?_eq_none leaf] at hv
    cases hv

/-! ### Lists -/

section Lists

/-- The lists are as long, and the items at each place are related. -/
def Itemwise (R : Nat → Value → Value → Prop) (xs ys : List Value) : Prop :=
  xs.length = ys.length ∧ ∀ (n : Nat) (v w : Value), xs[n]? = some v → ys[n]? = some w → R n v w

variable {xs ys : List Value} {R S : Nat → Value → Value → Prop}

private theorem itemwise_cons_iff {a b : Value} :
    Itemwise R (a :: xs) (b :: ys) ↔ R 0 a b ∧ Itemwise (fun n => R (n + 1)) xs ys := by
  rw [Itemwise, Itemwise, List.length_cons, List.length_cons, Nat.add_right_cancel_iff]
  constructor
  · rintro ⟨length, items⟩
    exact ⟨items 0 a b rfl rfl, length, fun n v w hv hw => items (n + 1) v w hv hw⟩
  · rintro ⟨first, length, others⟩
    refine ⟨length, ?_⟩
    intro n v w hv hw
    cases n with
    | zero =>
      cases hv
      cases hw
      exact first
    | succ n => exact others n v w hv hw

private theorem itemwise_congr (h : ∀ n, ∀ v ∈ xs, ∀ w ∈ ys, (R n v w ↔ S n v w)) :
    Itemwise R xs ys ↔ Itemwise S xs ys := by
  refine and_congr_right fun _ => forall_congr' fun n => forall₂_congr fun v w => forall₂_congr fun hv hw => ?_
  exact h n v (List.mem_of_getElem? hv) w (List.mem_of_getElem? hw)

private theorem equalLists_iff : equalLists xs ys = true ↔ Itemwise (fun _ v w => v.equals w = true) xs ys := by
  induction xs generalizing ys with
  | nil => cases ys <;> simp [equalLists, Itemwise]
  | cons a xs ih =>
    cases ys with
    | nil => simp [equalLists, Itemwise]
    | cons b ys => rw [equalLists, Bool.and_eq_true, ih, itemwise_cons_iff]

private theorem identical_list_iff : Identical (.list xs) (.list ys) ↔ Itemwise (fun _ => Identical) xs ys := by
  rw [Identical, equals, equalLists_iff, sameTypes_iff]
  constructor
  · rintro ⟨⟨length, equal⟩, _, parts⟩
    exact ⟨length, fun n v w hv hw => ⟨equal n v w hv hw, parts (.item n) v w hv hw⟩⟩
  · rintro ⟨length, items⟩
    refine ⟨⟨length, fun n v w hv hw => (items n v w hv hw).1⟩, rfl, ?_⟩
    intro way v w hv hw
    cases way with
    | item n => exact (items n v w hv hw).2
    | name s => cases hv

private theorem itemDifferences_eq_nil_iff {n : Nat} (length : xs.length = ys.length) :
    itemDifferences field n xs ys = [] ↔ Itemwise (fun k v w => differences s!"{field}[{n + k}]" v w = []) xs ys := by
  induction xs generalizing n ys with
  | nil =>
    obtain rfl := List.length_eq_zero_iff.1 length.symm
    simp [itemDifferences, Itemwise]
  | cons a xs ih =>
    cases ys with
    | nil => cases length
    | cons b ys =>
      rw [itemDifferences, List.append_eq_nil_iff, ih (Nat.succ.inj length), itemwise_cons_iff]
      simp only [Nat.add_zero, Nat.add_comm, Nat.add_left_comm]

private theorem differences_list_eq_nil_iff :
    differences field (.list xs) (.list ys) = [] ↔
      Itemwise (fun n v w => differences s!"{field}[{n}]" v w = []) xs ys := by
  rw [differences]
  by_cases length : xs.length = ys.length
  · rw [if_neg (not_not.2 length), itemDifferences_eq_nil_iff length]
    simp only [Nat.zero_add]
  · rw [if_pos length]
    simp [Itemwise, length]

end Lists

/-! ### Mappings of names -/

section Mappings

open Entries (ofNames)

/-- The mappings have the same names, and the values of each name are related. -/
def Namewise (R : String → Value → Value → Prop) (xs ys : List (String × Value)) : Prop :=
  (∀ name, name ∈ xs.map Prod.fst ↔ name ∈ ys.map Prod.fst) ∧
    ∀ name v w, (name, v) ∈ xs → (name, w) ∈ ys → R name v w

variable {xs ys : List (String × Value)} {R S : String → Value → Value → Prop}

private theorem namewise_congr (h : ∀ a ∈ xs, ∀ b ∈ ys, (R a.1 a.2 b.2 ↔ S a.1 a.2 b.2)) :
    Namewise R xs ys ↔ Namewise S xs ys := by
  refine and_congr_right fun _ => forall_congr' fun name => forall₂_congr fun v w => forall₂_congr fun hv hw => ?_
  exact h (name, v) hv (name, w) hw

private theorem includesEntries_ofNames_iff :
    includesEntries (ofNames xs) (ofNames ys) = true ↔
      ∀ name v, (name, v) ∈ xs → ∃ w, (name, w) ∈ ys ∧ v.equals w = true := by
  induction xs with
  | nil => simp [ofNames, includesEntries]
  | cons p xs ih =>
    obtain ⟨name, v⟩ := p
    have first : ((ofNames ys).any fun e => (Value.str name).equals e.1 && v.equals e.2) = true ↔
        ∃ w, (name, w) ∈ ys ∧ v.equals w = true := by
      simp [ofNames, str_equals_iff]
    rw [Entries.ofNames_cons, includesEntries, Bool.and_eq_true, first, ih]
    simp only [List.mem_cons, Prod.mk.injEq]
    constructor
    · rintro ⟨first, others⟩ other v' (⟨rfl, rfl⟩ | mem)
      · exact first
      · exact others other v' mem
    · intro all
      exact ⟨all name v (.inl ⟨rfl, rfl⟩), fun other v' mem => all other v' (.inr mem)⟩

/-- Mappings of as many names each of which is in the other have the same names. -/
private theorem names_iff_of_subset (xOnce : (xs.map Prod.fst).Nodup) (length : xs.length = ys.length)
    (sub : ∀ name ∈ xs.map Prod.fst, name ∈ ys.map Prod.fst) (name : String) :
    name ∈ xs.map Prod.fst ↔ name ∈ ys.map Prod.fst := by
  have perm : (xs.map Prod.fst).Perm (ys.map Prod.fst) :=
    (List.subperm_of_subset xOnce sub).perm_of_length_le (by simp [length])
  exact perm.mem_iff

private theorem equals_map_iff (xOnce : (xs.map Prod.fst).Nodup) (yOnce : (ys.map Prod.fst).Nodup) :
    (Value.map (ofNames xs)).equals (.map (ofNames ys)) = true ↔ Namewise (fun _ v w => v.equals w = true) xs ys := by
  rw [equals, Bool.and_eq_true, beq_iff_eq, includesEntries_ofNames_iff, ofNames, ofNames, List.length_map,
    List.length_map]
  constructor
  · rintro ⟨length, found⟩
    -- equality looks for each entry of the one mapping in the other, and there are as many entries in both
    refine ⟨names_iff_of_subset xOnce length ?_, ?_⟩
    · intro name mem
      obtain ⟨⟨_, v⟩, own, rfl⟩ := List.mem_map.1 mem
      obtain ⟨w, there, _⟩ := found _ v own
      exact List.mem_map.2 ⟨_, there, rfl⟩
    · intro name v w hv hw
      obtain ⟨w', there, equal⟩ := found name v hv
      exact Entries.value_unique yOnce there hw ▸ equal
  · rintro ⟨names, values⟩
    have perm : (xs.map Prod.fst).Perm (ys.map Prod.fst) := (List.perm_ext_iff_of_nodup xOnce yOnce).2 names
    refine ⟨by simpa using perm.length_eq, ?_⟩
    intro name v hv
    obtain ⟨⟨_, w⟩, hw, rfl⟩ := List.mem_map.1 ((names name).1 (List.mem_map.2 ⟨_, hv, rfl⟩))
    exact ⟨w, hw, values _ v w hv hw⟩

private theorem identical_map_iff (xOnce : (xs.map Prod.fst).Nodup) (yOnce : (ys.map Prod.fst).Nodup) :
    Identical (.map (ofNames xs)) (.map (ofNames ys)) ↔ Namewise (fun _ => Identical) xs ys := by
  rw [Identical, equals_map_iff xOnce yOnce, sameTypes_iff]
  constructor
  · rintro ⟨⟨names, equal⟩, _, parts⟩
    refine ⟨names, fun name v w hv hw => ⟨equal name v w hv hw, ?_⟩⟩
    exact parts (.name name) v w ((Entries.get?_ofNames_iff xOnce).2 hv) ((Entries.get?_ofNames_iff yOnce).2 hw)
  · rintro ⟨names, values⟩
    refine ⟨⟨names, fun name v w hv hw => (values name v w hv hw).1⟩, rfl, ?_⟩
    intro way v w hv hw
    cases way with
    | item n => cases hv
    | name s =>
      exact (values s v w ((Entries.get?_ofNames_iff xOnce).1 hv) ((Entries.get?_ofNames_iff yOnce).1 hw)).2

private theorem unmatched_eq_nil_iff :
    unmatched base (ofNames xs) (ofNames ys) = [] ↔ ∀ name, name ∈ xs.map Prod.fst ↔ name ∈ ys.map Prod.fst := by
  have side (xs ys : List (String × Value)) :
      ((ofNames xs).filter fun e => !(ofNames ys).has e.1) = [] ↔
        ∀ name ∈ xs.map Prod.fst, name ∈ ys.map Prod.fst := by
    rw [List.filter_eq_nil_iff, ofNames, List.forall_mem_map, List.forall_mem_map]
    simp only [Bool.not_eq_true', Bool.not_eq_false, Entries.has_ofNames_iff]
  rw [unmatched, List.append_eq_nil_iff, List.map_eq_nil_iff, List.map_eq_nil_iff, side, side]
  constructor
  · rintro ⟨left, right⟩ name
    exact ⟨left name, right name⟩
  · intro names
    exact ⟨fun name => (names name).1, fun name => (names name).2⟩

/-- What is done with each value of a name is done once where there is one. -/
private theorem flatMap_at_name {α : Type} (yOnce : (ys.map Prod.fst).Nodup) {name : String} {w : Value}
    (mem : (name, w) ∈ ys) (f : Value → List α) : (ys.flatMap fun b => if name = b.1 then f b.2 else []) = f w := by
  induction ys with
  | nil => cases mem
  | cons b ys ih =>
    rw [List.map_cons, List.nodup_cons] at yOnce
    rw [List.flatMap_cons]
    rcases List.mem_cons.1 mem with rfl | later
    · have others : (ys.flatMap fun b => if name = b.1 then f b.2 else []) = [] := by
        rw [List.flatMap_eq_nil_iff]
        intro b other
        rw [if_neg]
        rintro rfl
        exact yOnce.1 (List.mem_map.2 ⟨b, other, rfl⟩)
      rw [others, if_pos rfl, List.append_nil]
    · rw [ih yOnce.2 later, if_neg, List.nil_append]
      rintro rfl
      exact yOnce.1 (List.mem_map.2 ⟨_, later, rfl⟩)

/-- The values of each name on both sides are compared with each other. -/
theorem entryDifferences_ofNames (yOnce : (ys.map Prod.fst).Nodup) :
    entryDifferences base (ofNames xs) (ofNames ys) =
      xs.flatMap fun a => ys.flatMap fun b =>
        if a.1 = b.1 then differences (subfield base (.str a.1)) a.2 b.2 else [] := by
  induction xs with
  | nil => simp [ofNames, entryDifferences]
  | cons a xs ih =>
    obtain ⟨name, v⟩ := a
    rw [Entries.ofNames_cons, entryDifferences, ih, List.flatMap_cons]
    congr 1
    split
    · rename_i w found
      have mem := (Entries.get?_ofNames_iff yOnce).1 found
      exact (flatMap_at_name yOnce mem fun w => differences (subfield base (.str name)) v w).symm
    · rename_i absent
      symm
      rw [List.flatMap_eq_nil_iff]
      rintro ⟨other, w⟩ mem
      rw [if_neg]
      rintro rfl
      cases absent.symm.trans ((Entries.get?_ofNames_iff yOnce).2 mem)

private theorem differences_map_eq_nil_iff (yOnce : (ys.map Prod.fst).Nodup) :
    differences field (.map (ofNames xs)) (.map (ofNames ys)) = [] ↔
      Namewise (fun name v w => differences (subfield field (.str name)) v w = []) xs ys := by
  rw [differences, List.append_eq_nil_iff, unmatched_eq_nil_iff, entryDifferences_ofNames yOnce]
  simp only [List.flatMap_eq_nil_iff, ite_eq_right_iff]
  refine and_congr_right fun _ => ?_
  constructor
  · intro none name v w hv hw
    exact none (name, v) hv (name, w) hw rfl
  · rintro none ⟨name, v⟩ hv ⟨_, w⟩ hw rfl
    exact none name v w hv hw

end Mappings

/-! ### No differences -/

theorem differences_of_typeName_ne (other : x.typeName ≠ y.typeName) :
    differences field x y = [⟨field, y.typeText, x.typeText⟩] := by
  unfold differences
  split
  · exact absurd rfl other
  · exact absurd rfl other
  · rw [if_pos other]

theorem differences_of_leaf (leaf : x.hasParts = false) (same : x.typeName = y.typeName) :
    differences field x y = if x.equals y then [] else [⟨field, y.text, x.text⟩] := by
  unfold differences
  split
  · cases leaf
  · cases leaf
  · rw [if_neg (not_not.2 same)]

/-- Values of different types differ, and are not identical. -/
private theorem differences_eq_nil_iff_of_typeName_ne (other : x.typeName ≠ y.typeName) :
    differences field x y = [] ↔ Identical x y := by
  rw [differences_of_typeName_ne other]
  constructor
  · intro none
    cases none
  · exact fun same => absurd same.typeName_eq other

private theorem differences_eq_nil_iff_of_leaf (leaf : x.hasParts = false) :
    differences field x y = [] ↔ Identical x y := by
  by_cases same : x.typeName = y.typeName
  · rw [identical_iff_of_leaf leaf, differences_of_leaf leaf same]
    simp [same]
  · exact differences_eq_nil_iff_of_typeName_ne same

private theorem differences_eq_nil_iff (hx : x.IsData) (hy : y.IsData) (field : String) :
    differences field x y = [] ↔ Identical x y := by
  -- on the actual value, for every expected one: a part is compared with another part, below another field
  induction hx generalizing y field with
  | null => exact differences_eq_nil_iff_of_leaf rfl
  | bool => exact differences_eq_nil_iff_of_leaf rfl
  | int => exact differences_eq_nil_iff_of_leaf rfl
  | float => exact differences_eq_nil_iff_of_leaf rfl
  | str => exact differences_eq_nil_iff_of_leaf rfl
  | list each ih =>
    cases hy with
    | list each' =>
      rw [differences_list_eq_nil_iff, identical_list_iff]
      exact itemwise_congr fun n v hv w hw => ih v hv (each' w hw) _
    | _ => exact differences_eq_nil_iff_of_typeName_ne (by simp [typeName])
  | map once each ih =>
    cases hy with
    | map once' each' =>
      rw [differences_map_eq_nil_iff once', identical_map_iff once once']
      exact namewise_congr fun a ha b hb => ih a ha (each' b hb) _
    | _ => exact differences_eq_nil_iff_of_typeName_ne (by simp [typeName])

/-- A mapping, whatever its keys. -/
def IsMapping (v : Value) : Prop :=
  ∃ entries, v = .map entries

/-- Nothing is reported exactly if the actual value is identical to the expected one.  For mappings, either of which may
be missing, nothing is reported exactly if nothing is expected, or both are there and identical. -/
theorem reports_nothing_iff_identical {actual expected : Value} (ha : actual.IsData) (he : expected.IsData) :
    (∀ field, differences field actual expected = [] ↔ Identical actual expected) ∧
      (actual = .null ∨ actual.IsMapping → expected = .null ∨ expected.IsMapping →
        ∃ found, check actual expected = .ok found ∧
          (found = [] ↔ expected = .null ∨ actual.IsMapping ∧ expected.IsMapping ∧ Identical actual expected)) := by
  refine ⟨differences_eq_nil_iff ha he, ?_⟩
  rintro given (rfl | ⟨ys, rfl⟩)
  · exact ⟨[], rfl, by simp⟩
  · rcases given with rfl | ⟨xs, rfl⟩
    · exact ⟨[⟨"", "...", "missing"⟩], rfl, by simp [IsMapping]⟩
    · refine ⟨differences "" (.map xs) (.map ys), rfl, ?_⟩
      rw [differences_eq_nil_iff ha he]
      simp [IsMapping]

/-- A value in a list under a name. -/
def inList (v : Value) : Value :=
  .map (Entries.ofNames [("a", .list [v])])

private theorem IsData.inList {v : Value} (h : v.IsData) : v.inList.IsData := by
  have items : (Value.list [v]).IsData := .list (by simpa using h)
  exact .map (by simp) (by simpa using items)

/-- The two zeros are identical wherever they stand; one is not identical to the truth value or to the float, although
it equals them. -/
theorem reports_nothing_inList :
    Identical (inList (.float 0.0)) (inList (.float (-0.0))) ∧
      ((inList (.int 1)).equals (inList (.bool true)) = true ∧
        ¬Identical (inList (.int 1)) (inList (.bool true))) ∧
      ((inList (.int 1)).equals (inList (.float 1.0)) = true ∧
        ¬Identical (inList (.int 1)) (inList (.float 1.0))) ∧
      ∃ found, check (inList (.int 1)) (inList (.bool true)) = .ok found ∧ found ≠ [] := by
  have one : (inList (.int 1)).IsData := (IsData.int 1).inList
  have truth : (inList (.bool true)).IsData := (IsData.bool true).inList
  have differs : ¬Identical (inList (.int 1)) (inList (.bool true)) := fun same =>
    absurd (((reports_nothing_iff_identical one truth).1 "a").2 same) (by decide +kernel)
  refine ⟨?_, ⟨by decide +kernel, differs⟩, ⟨by decide +kernel, ?_⟩, ?_⟩
  · exact ((reports_nothing_iff_identical (IsData.float _).inList (IsData.float _).inList).1 "a").1 (by decide +kernel)
  · intro same
    exact absurd (((reports_nothing_iff_identical one (IsData.float _).inList).1 "a").2 same) (by decide +kernel)
  · obtain ⟨found, checked, none⟩ := (reports_nothing_iff_identical one truth).2 (.inr ⟨_, rfl⟩) (.inr ⟨_, rfl⟩)
    refine ⟨found, checked, fun empty => ?_⟩
    rcases none.1 empty with missing | ⟨_, _, same⟩
    · cases missing
    · exact differs same

end ManifestLens.Value
