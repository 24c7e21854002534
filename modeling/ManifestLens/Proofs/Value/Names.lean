import ManifestLens.Value.Basic
import Mathlib.Data.List.Nodup

/-!
# Mappings with names as keys

A text equals only itself, so a mapping with texts as keys is a list of named values (`Entries.ofNames`), and what is
looked up, erased or set in it can be told from the names.
-/

namespace ManifestLens

variable {v w : Value} {name s : String}

theorem Value.equals_str_iff : v.equals (.str s) = true ↔ v = .str s := by
  cases v <;> simp [Value.equals, Value.exactInt?]

theorem Value.str_equals_iff : (Value.str s).equals v = true ↔ .str s = v := by
  cases v <;> simp [Value.equals, Value.exactInt?]

namespace Entries

/-- A mapping with names as keys. -/
def ofNames (inputs : List (String × Value)) : Entries :=
  inputs.map fun p => (.str p.1, p.2)

theorem ofNames_cons (name : String) (v : Value) (inputs : List (String × Value)) :
    ofNames ((name, v) :: inputs) = (.str name, v) :: ofNames inputs :=
  rfl

theorem map_fst_ofNames (inputs : List (String × Value)) :
    (ofNames inputs).map Prod.fst = (inputs.map Prod.fst).map Value.str := by
  rw [ofNames, List.map_map, List.map_map]
  rfl

theorem has_ofNames_iff {inputs : List (String × Value)} :
    (ofNames inputs).has (.str name) = true ↔ name ∈ inputs.map Prod.fst := by
  rw [has, ofNames, List.any_map, List.any_eq_true, List.mem_map]
  simp only [Function.comp_apply, Value.equals_str_iff, Value.str.injEq]

/-- A name has one value. -/
theorem value_unique {fields : List (String × Value)} (once : (fields.map Prod.fst).Nodup) (hv : (name, v) ∈ fields)
    (hw : (name, w) ∈ fields) : v = w :=
  congrArg Prod.snd (List.inj_on_of_nodup_map once hv hw rfl)

/-- A name is looked up where it stands. -/
theorem get?_ofNames_iff {fields : List (String × Value)} (once : (fields.map Prod.fst).Nodup) :
    (ofNames fields).get? name = some v ↔ (name, v) ∈ fields := by
  rw [get?, find?, ofNames, List.find?_map, Option.map_map, Option.map_eq_some_iff]
  constructor
  · rintro ⟨⟨other, w⟩, found, rfl⟩
    have same : other = name := by simpa [Value.equals_str_iff] using List.find?_some found
    exact same ▸ List.mem_of_find?_eq_some found
  · intro mem
    cases found : fields.find? ((fun e : Value × Value => e.1.equals (.str name)) ∘ fun p => (.str p.1, p.2)) with
    | none =>
      have absent := List.find?_eq_none.1 found _ mem
      simp [Value.equals_str_iff] at absent
    | some p =>
      obtain ⟨other, w⟩ := p
      have same : other = name := by simpa [Value.equals_str_iff] using List.find?_some found
      exact ⟨(other, w), rfl, value_unique once (same ▸ List.mem_of_find?_eq_some found) mem⟩

theorem erase_ofNames (inputs : List (String × Value)) (name : String) :
    (ofNames inputs).erase (.str name) = ofNames (inputs.filter (·.1 ≠ name)) := by
  rw [erase, ofNames, List.filter_map, ofNames]
  refine congrArg _ (List.filter_congr fun p _ => ?_)
  simp [Value.equals, Bool.beq_eq_decide_eq]

/-- A name is set where it is, or put at the end. -/
theorem insert_ofNames (inputs : List (String × Value)) (name : String) (value : Value) :
    ∃ new, (ofNames inputs).insert (.str name) value = ofNames new ∧
      (∀ other, other ∈ new.map Prod.fst ↔ other = name ∨ other ∈ inputs.map Prod.fst) ∧
      (name ∉ inputs.map Prod.fst → new = inputs ++ [(name, value)]) := by
  induction inputs with
  | nil => exact ⟨[(name, value)], rfl, by simp, fun _ => rfl⟩
  | cons p rest ih =>
    obtain ⟨first, v⟩ := p
    have form : insert (ofNames ((first, v) :: rest)) (.str name) value =
        if first = name then (.str first, value) :: ofNames rest
        else (.str first, v) :: insert (ofNames rest) (.str name) value := by
      simp [ofNames, insert, Value.equals]
    rw [form]
    by_cases same : first = name
    · rw [if_pos same]
      refine ⟨(first, value) :: rest, rfl, ?_, ?_⟩
      · intro other
        simp [same]
      · intro absent
        exact absurd (by simp [same]) absent
    · obtain ⟨new, set, names, last⟩ := ih
      rw [if_neg same, set]
      refine ⟨(first, v) :: new, rfl, ?_, ?_⟩
      · intro other
        rw [List.map_cons, List.mem_cons, names, List.map_cons, List.mem_cons]
        exact or_left_comm
      · intro absent
        rw [last fun mem => absent (List.mem_cons_of_mem _ mem), List.cons_append]

end Entries

end ManifestLens
