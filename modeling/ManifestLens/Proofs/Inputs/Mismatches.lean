import ManifestLens.Inputs.Compare
import Mathlib.Data.List.Nodup
import Mathlib.Data.List.TakeWhile

/-!
# Mismatches between provided and expected inputs

The inputs that a logic expects have names that are not empty and hold no point (`Inputs.isName_of_mem_firstTier`).  The
mismatches are the names that are expected and not provided, and those that are provided and not expected, each once
(`Inputs.mismatches_map_str`).
-/

namespace ManifestLens

variable {keys provided : List String} {s t : String}

namespace Inputs

/-! ### Texts without repetitions -/

private theorem mem_distinct_from (texts seen : List String) :
    t ∈ texts.foldl (fun seen t => if seen.contains t then seen else seen ++ [t]) seen ↔ t ∈ seen ∨ t ∈ texts := by
  induction texts generalizing seen with
  | nil => simp
  | cons a texts ih =>
    rw [List.foldl_cons, ih, List.mem_cons]
    by_cases known : a ∈ seen
    · rw [if_pos (List.contains_iff_mem.2 known)]
      constructor
      · rintro (h | h)
        · exact .inl h
        · exact .inr (.inr h)
      · rintro (h | rfl | h)
        · exact .inl h
        · exact .inl known
        · exact .inr h
    · rw [if_neg (fun h => known (List.contains_iff_mem.1 h)), List.mem_append, List.mem_singleton, or_assoc]

theorem mem_distinct {texts : List String} : t ∈ distinct texts ↔ t ∈ texts := by
  rw [distinct, mem_distinct_from]
  simp

theorem nodup_distinct (texts : List String) : (distinct texts).Nodup := by
  suffices ∀ seen : List String, seen.Nodup →
      (texts.foldl (fun seen t => if seen.contains t then seen else seen ++ [t]) seen).Nodup from this [] .nil
  induction texts with
  | nil => exact fun _ h => h
  | cons a texts ih =>
    intro seen apart
    rw [List.foldl_cons]
    apply ih
    by_cases known : a ∈ seen
    · rwa [if_pos (List.contains_iff_mem.2 known)]
    · rw [if_neg (fun h => known (List.contains_iff_mem.1 h)), List.nodup_append]
      refine ⟨apart, List.nodup_singleton a, ?_⟩
      rintro b mem _ last rfl
      exact known (List.mem_singleton.1 last ▸ mem)

private theorem distinct_map {f : String → String} (injective : ∀ s t, f s = f t → s = t) (texts : List String) :
    distinct (texts.map f) = (distinct texts).map f := by
  suffices ∀ seen : List String,
      (texts.map f).foldl (fun seen t => if seen.contains t then seen else seen ++ [t]) (seen.map f) =
        (texts.foldl (fun seen t => if seen.contains t then seen else seen ++ [t]) seen).map f from this []
  induction texts with
  | nil => exact fun _ => rfl
  | cons a texts ih =>
    intro seen
    have same : (seen.map f).contains (f a) = seen.contains a := by
      rw [Bool.eq_iff_iff, List.contains_iff_mem, List.contains_iff_mem, List.mem_map]
      constructor
      · rintro ⟨b, mem, eq⟩
        exact injective b a eq ▸ mem
      · exact fun mem => ⟨a, mem, rfl⟩
    rw [List.map_cons, List.foldl_cons, List.foldl_cons, same, ← ih]
    split <;> simp

/-! ### Names of inputs -/

/-- A text that an expression can read an input by: it is not empty, and no point is in it. -/
def IsName (name : String) : Prop :=
  name ≠ "" ∧ '.' ∉ name.toList

instance (name : String) : Decidable (IsName name) :=
  inferInstanceAs (Decidable (_ ∧ _))

/-- The key of an input. -/
def field (name : String) : String :=
  "inputs." ++ name

theorem field_injective (h : field s = field t) : s = t := by
  have := congrArg String.toList h
  simpa [field, String.toList_append, String.toList_inj] using this

end Inputs

namespace KeyPattern

private theorem beforePoint?_eq_some {text name rest : List Char} (h : beforePoint? text = some (name, rest)) :
    name = text.takeWhile (· != '.') ∧ name ≠ [] := by
  rw [beforePoint?] at h
  split at h
  · cases h
  · next some =>
    cases h
    exact ⟨rfl, fun h => some (by rw [h]; rfl)⟩

private theorem isName_takeWhile {text : List Char} (h : text.takeWhile (· != '.') ≠ []) :
    Inputs.IsName (String.ofList (text.takeWhile (· != '.'))) := by
  constructor
  · intro empty
    apply h
    simpa using congrArg String.toList empty
  · rw [String.toList_ofList]
    intro mem
    simpa using List.mem_takeWhile_imp mem

/-- The name of an input goes up to the first point. -/
theorem isName_of_name?_input {key name : String} (h : KeyPattern.input.name? key = some name) :
    Inputs.IsName name := by
  obtain ⟨found, matched, rfl⟩ := Option.map_eq_some_iff.1 h
  obtain ⟨⟨name, rest⟩, named, rfl⟩ := Option.map_eq_some_iff.1 (show (named? .input key.toList).map _ = _ from matched)
  rw [named?] at named
  split at named
  · split at named
    · cases named
    · obtain ⟨rfl, some⟩ := beforePoint?_eq_some named
      exact isName_takeWhile some
  · cases named

/-- The key of an input is read back as the part of the name before its first point. -/
private theorem name?_input_field (name : String) :
    KeyPattern.input.name? (Inputs.field name) =
      if name.toList.takeWhile (· != '.') = [] then none
      else some (String.ofList (name.toList.takeWhile (· != '.'))) := by
  have text : (Inputs.field name).toList = "inputs".toList ++ '.' :: name.toList := by
    rw [Inputs.field, String.toList_append]
    rfl
  have named : named? .input (Inputs.field name).toList = beforePoint? name.toList := by
    rw [named?, text, after?, if_pos (by simp), List.drop_left]
    rfl
  show ((named? .input (Inputs.field name).toList).map _).map _ = _
  rw [named, beforePoint?]
  by_cases empty : name.toList.takeWhile (· != '.') = []
  · simp [empty]
  · simp [empty]

theorem name?_input_field_of_isName {name : String} (h : Inputs.IsName name) :
    KeyPattern.input.name? (Inputs.field name) = some name := by
  have whole : name.toList.takeWhile (· != '.') = name.toList := by
    rw [List.takeWhile_eq_self_iff]
    intro c mem
    simpa using fun point : c = '.' => h.2 (point ▸ mem)
  rw [name?_input_field, whole, if_neg, String.ofList_toList]
  intro empty
  exact h.1 (by simpa using empty)

end KeyPattern

namespace Inputs

private theorem mem_firstTier_iff {name : String} :
    name ∈ firstTier keys ↔ ∃ key ∈ keys, KeyPattern.input.name? key = some name := by
  rw [firstTier, mem_distinct, List.mem_filterMap]

theorem isName_of_mem_firstTier {name : String} (h : name ∈ firstTier keys) : IsName name := by
  obtain ⟨key, _, found⟩ := mem_firstTier_iff.1 h
  exact KeyPattern.isName_of_name?_input found

/-! ### Mismatches -/

/-- An input that is expected and not provided. -/
def Mismatch.missing (name : String) : Mismatch :=
  ⟨Inputs.field name, .error, true, false⟩

/-- An input that is provided and not expected. -/
def Mismatch.unexpected (name : String) : Mismatch :=
  ⟨Inputs.field name, .warning, false, true⟩

/-- First the inputs that are missing are reported, then those that nothing expects. -/
theorem mismatches_map_str (provided keys : List String) :
    mismatches (provided.map .str) keys =
      ((firstTier keys).filter (· ∉ provided)).map .missing ++
        ((distinct provided).filter (· ∉ firstTier keys)).map .unexpected := by
  have given : distinct ((provided.map Value.str).map fun name => "inputs." ++ name.text) =
      (distinct provided).map field := by
    rw [← distinct_map (fun _ _ => field_injective), List.map_map]
    rfl
  have among (name : String) (names : List String) :
      (names.map field).contains (field name) = decide (name ∈ names) := by
    rw [Bool.eq_iff_iff, List.contains_iff_mem, decide_eq_true_iff, List.mem_map]
    constructor
    · rintro ⟨other, mem, same⟩
      exact field_injective same ▸ mem
    · exact fun mem => ⟨name, mem, rfl⟩
  have wanted : (firstTier keys).map ("inputs." ++ ·) = (firstTier keys).map field := rfl
  rw [mismatches, given, wanted, List.filter_map, List.filter_map, List.map_map, List.map_map]
  congr 1
  · refine congrArg (List.map Mismatch.missing) (List.filter_congr fun name _ => ?_)
    simp only [Function.comp_apply, among, mem_distinct, decide_not]
  · refine congrArg (List.map Mismatch.unexpected) (List.filter_congr fun name _ => ?_)
    simp only [Function.comp_apply, among, decide_not]

theorem mem_mismatches_map_str_iff {m : Mismatch} :
    m ∈ mismatches (provided.map .str) keys ↔
      (∃ name ∈ firstTier keys, name ∉ provided ∧ m = .missing name) ∨
        ∃ name ∈ provided, name ∉ firstTier keys ∧ m = .unexpected name := by
  simp only [mismatches_map_str, List.mem_append, List.mem_map, List.mem_filter, decide_eq_true_eq, mem_distinct,
    and_assoc, eq_comm (a := m)]

/-- Each input is reported once. -/
theorem nodup_map_field_mismatches (provided keys : List String) :
    ((mismatches (provided.map .str) keys).map (·.field)).Nodup := by
  have fields : (mismatches (provided.map .str) keys).map (·.field) =
      ((firstTier keys).filter (· ∉ provided) ++ (distinct provided).filter (· ∉ firstTier keys)).map field := by
    rw [mismatches_map_str, List.map_append, List.map_append, List.map_map, List.map_map]
    rfl
  rw [fields]
  apply List.Nodup.map (fun _ _ => field_injective)
  apply List.Nodup.append ((nodup_distinct _).filter _) ((nodup_distinct _).filter _)
  intro name missing unexpected
  have other : name ∉ firstTier keys := by simpa using (List.mem_filter.1 unexpected).2
  exact other (List.mem_filter.1 missing).1

/-- There are no mismatches exactly if the names on both sides are the same. -/
theorem mismatches_map_str_eq_nil_iff :
    mismatches (provided.map .str) keys = [] ↔ ∀ name, name ∈ provided ↔ name ∈ firstTier keys := by
  rw [mismatches_map_str, List.append_eq_nil_iff, List.map_eq_nil_iff, List.map_eq_nil_iff, List.filter_eq_nil_iff,
    List.filter_eq_nil_iff]
  simp only [decide_eq_true_eq, not_not, mem_distinct]
  constructor
  · rintro ⟨missing, unexpected⟩ name
    exact ⟨unexpected name, missing name⟩
  · intro same
    exact ⟨fun name => (same name).2, fun name => (same name).1⟩

end Inputs

end ManifestLens
