import ManifestLens.Proofs.Value.Identity
import Mathlib.Data.Multiset.Bind

/-!
# Exchanged sides

If the actual and the expected value change places, the same fields differ, and each difference has its two sides
exchanged (`Value.differences_exchange`).  Only the order changes: keys of the one side come before keys of the other,
and keys of both sides in the order of the first.
-/

namespace ManifestLens.Value

/-! ### Equality of leaves -/

section Floats

open Float.Model (UnpackedFloat)

/-- Floats are ordered the other way round if they change places; what is no number has no place in the order. -/
private theorem compare_eq_map_swap (a b : UnpackedFloat) : b.compare a = (a.compare b).map Ordering.swap := by
  have magnitudes (e e' : Int) (m m' : Nat) :
      (compare e' e).then (compare m' m) = ((compare e e').then (compare m m')).swap := by
    rw [Ordering.swap_then, ← Std.OrientedCmp.eq_swap, ← Std.OrientedCmp.eq_swap]
  cases a with
  | notANumber => cases b <;> rfl
  | infinity s =>
    cases s <;> cases b with
    | infinity s' => cases s' <;> rfl
    | _ => rfl
  | zero s =>
    cases b with
    | infinity s' => cases s' <;> rfl
    | finite s' => cases s' <;> rfl
    | _ => rfl
  | finite s m e =>
    cases b with
    | infinity s' => cases s <;> cases s' <;> rfl
    | zero => cases s <;> rfl
    | notANumber => rfl
    | finite s' m' e' =>
      cases s <;> cases s'
      case positive.positive => exact congrArg some (magnitudes e e' m m')
      case negative.negative => exact congrArg some (congrArg Ordering.swap (magnitudes e e' m m'))
      all_goals rfl

private theorem float_beq_comm (a b : Float) : (a == b) = (b == a) := by
  show (a.toModel.unpack.compare b.toModel.unpack == some .eq) = (b.toModel.unpack.compare a.toModel.unpack == some .eq)
  rw [compare_eq_map_swap b.toModel.unpack]
  cases b.toModel.unpack.compare a.toModel.unpack with
  | none => rfl
  | some order => cases order <;> rfl

end Floats

variable {x y : Value}

private theorem equals_comm_of_leaf (hx : x.IsData) (hy : y.IsData) (leaf : x.hasParts = false)
    (same : x.typeName = y.typeName) : x.equals y = y.equals x := by
  cases hx with
  | null =>
    cases hy with
    | null => rfl
    | _ => simp [typeName] at same
  | bool b =>
    cases hy with
    | bool b' => simp [equals, exactInt?, Bool.beq_comm]
    | _ => simp [typeName] at same
  | int n =>
    cases hy with
    | int n' => simp [equals, exactInt?, Bool.beq_comm]
    | _ => simp [typeName] at same
  | float a =>
    cases hy with
    | float b => simp only [equals, float_beq_comm]
    | _ => simp [typeName] at same
  | str s =>
    cases hy with
    | str t => simp only [equals, Bool.beq_comm]
    | _ => simp [typeName] at same
  | list => cases leaf
  | map => cases leaf

/-! ### Exchanged differences -/

/-- The difference with its two sides exchanged. -/
def Difference.exchange (d : Difference) : Difference :=
  ⟨d.field, d.actual, d.expected⟩

/-- The differences of two values are those of the values the other way round, each exchanged. -/
def Exchanged (x y : Value) : Prop :=
  ∀ field, (differences field x y).Perm ((differences field y x).map Difference.exchange)

private theorem exchanged_of_typeName_ne (other : x.typeName ≠ y.typeName) : Exchanged x y := by
  intro field
  rw [differences_of_typeName_ne other, differences_of_typeName_ne other.symm]
  exact .refl _

private theorem exchanged_of_leaf (hx : x.IsData) (hy : y.IsData) (leaf : x.hasParts = false) : Exchanged x y := by
  by_cases same : x.typeName = y.typeName
  · intro field
    have leaf' : y.hasParts = false := by rwa [hasParts_eq, ← same, ← hasParts_eq]
    rw [differences_of_leaf leaf same, differences_of_leaf leaf' same.symm, equals_comm_of_leaf hx hy leaf same]
    split
    · exact .nil
    · exact .refl _
  · exact exchanged_of_typeName_ne same

private theorem itemDifferences_exchange {xs ys : List Value} (each : ∀ v ∈ xs, ∀ w ∈ ys, Exchanged v w)
    (field : String) (n : Nat) :
    (itemDifferences field n xs ys).Perm ((itemDifferences field n ys xs).map Difference.exchange) := by
  induction xs generalizing n ys with
  | nil => cases ys <;> simp [itemDifferences]
  | cons v xs ih =>
    cases ys with
    | nil => simp [itemDifferences]
    | cons w ys =>
      rw [itemDifferences, itemDifferences, List.map_append]
      apply List.Perm.append
      · exact each v (by simp) w (by simp) _
      · exact ih (fun v hv w hw => each v (List.mem_cons_of_mem _ hv) w (List.mem_cons_of_mem _ hw)) _

private theorem exchanged_list {xs ys : List Value} (each : ∀ v ∈ xs, ∀ w ∈ ys, Exchanged v w) :
    Exchanged (.list xs) (.list ys) := by
  intro field
  rw [differences, differences]
  by_cases length : xs.length = ys.length
  · rw [if_neg (not_not.2 length), if_neg (not_not.2 length.symm)]
    exact itemDifferences_exchange each field 0
  · rw [if_pos length, if_pos (Ne.symm length)]
    exact .refl _

private theorem unmatched_exchange (base : String) (xs ys : Entries) :
    (unmatched base xs ys).Perm ((unmatched base ys xs).map Difference.exchange) := by
  rw [unmatched, unmatched, List.map_append, List.map_map, List.map_map]
  exact List.perm_append_comm

private theorem flatMap_flatMap_perm {α β γ : Type} (xs : List α) (ys : List β) (f : α → β → List γ) :
    (xs.flatMap fun a => ys.flatMap fun b => f a b).Perm (ys.flatMap fun b => xs.flatMap fun a => f a b) := by
  have exchanged := Multiset.bind_bind (xs : Multiset α) (ys : Multiset β) (f := fun a b => (f a b : Multiset γ))
  rw [← Multiset.coe_eq_coe]
  simpa only [Multiset.coe_bind] using exchanged

open Entries (ofNames)

/-- From either side, the values of each name on both sides are met once. -/
private theorem entryDifferences_exchange {xs ys : List (String × Value)} (xOnce : (xs.map Prod.fst).Nodup)
    (yOnce : (ys.map Prod.fst).Nodup) (each : ∀ a ∈ xs, ∀ b ∈ ys, Exchanged a.2 b.2) (base : String) :
    (entryDifferences base (ofNames xs) (ofNames ys)).Perm
      ((entryDifferences base (ofNames ys) (ofNames xs)).map Difference.exchange) := by
  rw [entryDifferences_ofNames yOnce, entryDifferences_ofNames xOnce, List.map_flatMap]
  simp only [List.map_flatMap]
  -- all pairs are gone through, in the order of the one side or of the other; only those of one name count
  refine (List.Perm.flatMap_left _ fun a ha => List.Perm.flatMap_left _ fun b hb => ?_).trans
    (flatMap_flatMap_perm xs ys _)
  by_cases same : a.1 = b.1
  · rw [if_pos same, if_pos same.symm, same]
    exact each a ha b hb _
  · rw [if_neg same, if_neg (Ne.symm same)]
    exact .nil

private theorem exchanged_map {xs ys : List (String × Value)} (xOnce : (xs.map Prod.fst).Nodup)
    (yOnce : (ys.map Prod.fst).Nodup) (each : ∀ a ∈ xs, ∀ b ∈ ys, Exchanged a.2 b.2) :
    Exchanged (.map (ofNames xs)) (.map (ofNames ys)) := by
  intro field
  rw [differences, differences, List.map_append]
  exact (unmatched_exchange field _ _).append (entryDifferences_exchange xOnce yOnce each field)

private theorem IsData.exchanged (hx : x.IsData) (hy : y.IsData) : Exchanged x y := by
  -- on the first value, for every second one; the field is part of `Exchanged`, as it changes from part to part
  induction hx generalizing y with
  | null => exact exchanged_of_leaf .null hy rfl
  | bool b => exact exchanged_of_leaf (.bool b) hy rfl
  | int n => exact exchanged_of_leaf (.int n) hy rfl
  | float a => exact exchanged_of_leaf (.float a) hy rfl
  | str s => exact exchanged_of_leaf (.str s) hy rfl
  | list each ih =>
    cases hy with
    | list each' => exact exchanged_list fun v hv w hw => ih v hv (each' w hw)
    | _ => exact exchanged_of_typeName_ne (by simp [typeName])
  | map once each ih =>
    cases hy with
    | map once' each' => exact exchanged_map once once' fun a ha b hb => ih a ha (each' b hb)
    | _ => exact exchanged_of_typeName_ne (by simp [typeName])

/-- If the two values change places, the differences are at the same fields and have their sides exchanged, whatever
the field that they are compared at; likewise for two mappings below whatever field. -/
theorem differences_exchange {x y : Value} (hx : x.IsData) (hy : y.IsData) :
    (∀ field, (differences field x y).Perm ((differences field y x).map Difference.exchange)) ∧
      ∀ xs ys : Entries, x = .map xs → y = .map ys → ∀ base,
        (unmatched base xs ys ++ entryDifferences base xs ys).Perm
          ((unmatched base ys xs ++ entryDifferences base ys xs).map Difference.exchange) := by
  refine ⟨hx.exchanged hy, ?_⟩
  rintro xs ys rfl rfl base
  have perm := hx.exchanged hy base
  rwa [differences, differences] at perm

/-- An order of a color and two items, the first of them a truth value. -/
def ordered : Value :=
  .map (ofNames [("items", .list [.bool true, .str "round"]), ("color", .null)])

/-- A delivery with a size, no color, and other items. -/
def delivered : Value :=
  .map (ofNames [("size", .float 1.5), ("items", .list [.int 1, .str "flat"])])

private theorem isData_ordered : ordered.IsData := by
  have items : (Value.list [.bool true, .str "round"]).IsData := .list (by simp [IsData.bool, IsData.str])
  exact .map (by simp) (by simp [items, IsData.null])

private theorem isData_delivered : delivered.IsData := by
  have items : (Value.list [.int 1, .str "flat"]).IsData := .list (by simp [IsData.int, IsData.str])
  exact .map (by simp) (by simp [items, IsData.float])

/-- A name on either side only, items of other types and other texts are reported from both sides. -/
theorem differences_exchange_delivered :
    differences "f" delivered ordered =
        [⟨"f.size", "missing", "..."⟩, ⟨"f.color", "...", "missing"⟩,
          ⟨"f.items[0]", "<class 'bool'>", "<class 'int'>"⟩, ⟨"f.items[1]", "round", "flat"⟩] ∧
      (differences "f" delivered ordered).Perm ((differences "f" ordered delivered).map Difference.exchange) :=
  ⟨by decide +kernel, (differences_exchange isData_delivered isData_ordered).1 "f"⟩

end ManifestLens.Value
