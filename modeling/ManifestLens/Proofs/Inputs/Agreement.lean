import ManifestLens.Proofs.Inputs.Marking
import ManifestLens.Proofs.Inputs.Mismatches
import ManifestLens.Workflow.Check
import Mathlib.Data.List.Induction

/-!
# The two checks of inputs agree

A step of a workflow is checked by the arguments of its call, a test by the mismatches of its inputs.  If all names are
texts, the arguments are the names of both sides in the order in which they first come, each marked by the sides that
it is on (`Inputs.compare_map_str`).  The mismatches are then the arguments that are on one side only
(`Inputs.mismatches_perm_oneSided`).
-/

namespace ManifestLens.Inputs

/-! ### Texts where they first come -/

private theorem distinct_concat (texts : List String) (t : String) :
    distinct (texts ++ [t]) = if t ∈ texts then distinct texts else distinct texts ++ [t] := by
  have step : distinct (texts ++ [t]) =
      if (distinct texts).contains t then distinct texts else distinct texts ++ [t] := by
    rw [distinct, List.foldl_append]
    rfl
  simp only [step, List.contains_iff_mem, mem_distinct]

private theorem distinct_eq_eraseDups (texts : List String) : distinct texts = texts.eraseDups := by
  induction texts using List.reverseRecOn with
  | nil => rfl
  | append_singleton texts t ih =>
    rw [distinct_concat, List.eraseDups_append, ih]
    by_cases known : t ∈ texts <;> simp [List.removeAll, known, List.eraseDups_cons]

/-! ### Arguments by their names -/

/-- The argument with a name, as the names of both sides mark it. -/
def Argument.among (given wanted : List String) (name : String) : Argument :=
  ⟨.str name, decide (name ∈ given), decide (name ∈ wanted)⟩

/-- The arguments of both sides, by their names. -/
def arguments (given wanted : List String) : List Argument :=
  (distinct (given ++ wanted)).map (.among given wanted)

/-- In a list of arguments with different names, the one with a given name is changed, or a new one comes last. -/
private theorem update_map {f : String → Argument} (named : ∀ n, (f n).name = .str n) (known : Argument → Argument)
    {new : Argument} {name : String} (isNew : new.name = .str name) {names : List String} (apart : names.Nodup) :
    update known new (names.map f) =
      if name ∈ names then names.map (fun n => if n = name then known (f n) else f n) else names.map f ++ [new] := by
  induction names with
  | nil => rfl
  | cons n names ih =>
    obtain ⟨notLater, apart⟩ := List.nodup_cons.1 apart
    have same : (f n).name.equals new.name = decide (n = name) := by
      rw [named, isNew, Bool.eq_iff_iff, Value.str_equals_iff, decide_eq_true_iff, Value.str.injEq]
    rw [List.map_cons, update, same]
    by_cases here : n = name
    · -- all later arguments have other names
      have others : ∀ m ∈ names, (if m = name then known (f m) else f m) = f m := by
        intro m mem
        rw [if_neg]
        rintro rfl
        exact notLater (here ▸ mem)
      simp [here, List.map_congr_left others]
    · have elsewhere : name ∈ n :: names ↔ name ∈ names := by simp [Ne.symm here]
      by_cases later : name ∈ names <;> simp [here, elsewhere, ih apart, later]

private theorem addProvided_arguments (given : List String) (name : String) :
    addProvided (arguments given []) (.str name) = arguments (given ++ [name]) [] := by
  have marks (n : String) (known : n ∈ given ∨ n = name) :
      Argument.among (given ++ [name]) [] n = ⟨.str n, true, false⟩ := by
    simpa [Argument.among] using known
  rw [addProvided, arguments, update_map (fun _ => rfl) _ rfl (nodup_distinct _), arguments, List.append_nil,
    List.append_nil, distinct_concat]
  simp only [mem_distinct]
  by_cases known : name ∈ given
  · rw [if_pos known, if_pos known]
    refine List.map_congr_left fun n mem => ?_
    have own : n ∈ given := mem_distinct.1 mem
    rw [marks n (.inl own)]
    split <;> simp [Argument.among, own]
  · rw [if_neg known, if_neg known, List.map_append, List.map_singleton, marks name (.inr rfl)]
    refine congrArg (· ++ _) (List.map_congr_left fun n mem => ?_)
    have own : n ∈ given := mem_distinct.1 mem
    rw [marks n (.inl own)]
    simp [Argument.among, own]

private theorem addExpected_arguments (given wanted : List String) (name : String) :
    addExpected (arguments given wanted) (.str name) = arguments given (wanted ++ [name]) := by
  have marks (n : String) : Argument.among given (wanted ++ [name]) n =
      if n = name then ⟨.str n, decide (n ∈ given), true⟩ else .among given wanted n := by
    by_cases new : n = name <;> simp [Argument.among, new]
  rw [addExpected, arguments, update_map (fun _ => rfl) _ rfl (nodup_distinct _), arguments, ← List.append_assoc,
    distinct_concat]
  simp only [mem_distinct]
  by_cases known : name ∈ given ++ wanted
  · rw [if_pos known, if_pos known]
    exact List.map_congr_left fun n _ => (marks n).symm
  · rw [if_neg known, if_neg known, List.map_append, List.map_singleton, marks name, if_pos rfl]
    have absent : name ∉ given := fun mem => known (List.mem_append_left _ mem)
    rw [decide_eq_false absent]
    refine congrArg (· ++ _) (List.map_congr_left fun n mem => ?_)
    have other : n ≠ name := by
      rintro rfl
      exact known (mem_distinct.1 mem)
    rw [marks n, if_neg other]

private theorem foldl_addProvided_arguments (given names : List String) :
    (names.map Value.str).foldl addProvided (arguments given []) = arguments (given ++ names) [] := by
  induction names generalizing given with
  | nil => simp
  | cons name names ih => simpa [addProvided_arguments] using ih (given ++ [name])

private theorem foldl_addExpected_arguments (given wanted names : List String) :
    (names.map Value.str).foldl addExpected (arguments given wanted) = arguments given (wanted ++ names) := by
  induction names generalizing wanted with
  | nil => simp
  | cons name names ih => simpa [addExpected_arguments] using ih (wanted ++ [name])

/-- Each name of either side is listed where it first comes, with the sides that it is on. -/
theorem compare_map_str (given wanted : List String) :
    compare (given.map .str) (wanted.map .str) = arguments given wanted := by
  have provided := foldl_addProvided_arguments [] given
  have expected := foldl_addExpected_arguments given [] wanted
  rw [List.nil_append] at provided expected
  rw [compare, ← expected, ← provided]
  rfl

/-! ### Arguments on one side only -/

/-- The mismatch that an argument on one side only is. -/
def Argument.mismatch? (a : Argument) : Option Mismatch :=
  match a.provided, a.expected with
  | false, true => some ⟨"inputs." ++ a.name.text, .error, true, false⟩
  | true, false => some ⟨"inputs." ++ a.name.text, .warning, false, true⟩
  | _, _ => none

private theorem Argument.mismatch?_among_iff {given wanted : List String} {name : String} {m : Mismatch} :
    (Argument.among given wanted name).mismatch? = some m ↔
      name ∈ wanted ∧ name ∉ given ∧ m = .missing name ∨ name ∈ given ∧ name ∉ wanted ∧ m = .unexpected name := by
  by_cases isGiven : name ∈ given <;> by_cases isWanted : name ∈ wanted <;>
    simp [Argument.mismatch?, Argument.among, isGiven, isWanted, Mismatch.missing, Mismatch.unexpected, field,
      Value.text, eq_comm (a := m)]

private theorem nodup_map_field_oneSided (given wanted : List String) :
    (((arguments given wanted).filterMap Argument.mismatch?).map (·.field)).Nodup := by
  have names : (arguments given wanted).filterMap Argument.mismatch? =
      (distinct (given ++ wanted)).filterMap fun name => (Argument.among given wanted name).mismatch? := by
    rw [arguments, List.filterMap_map]
    rfl
  rw [names, List.map_filterMap]
  refine List.Nodup.filterMap ?_ (nodup_distinct _)
  intro name other text isFirst isSecond
  have own {n : String} (h : text ∈ ((Argument.among given wanted n).mismatch?).map (·.field)) : text = field n := by
    obtain ⟨m, isMismatch, rfl⟩ := Option.map_eq_some_iff.1 h
    rcases Argument.mismatch?_among_iff.1 isMismatch with ⟨_, _, rfl⟩ | ⟨_, _, rfl⟩ <;> rfl
  exact field_injective ((own isFirst).symm.trans (own isSecond))

private theorem mem_oneSided_iff {given wanted : List String} {m : Mismatch} :
    m ∈ (arguments given wanted).filterMap Argument.mismatch? ↔
      (∃ name ∈ wanted, name ∉ given ∧ m = .missing name) ∨ ∃ name ∈ given, name ∉ wanted ∧ m = .unexpected name := by
  rw [List.mem_filterMap]
  constructor
  · rintro ⟨a, mem, isMismatch⟩
    obtain ⟨name, _, rfl⟩ := List.mem_map.1 mem
    rcases Argument.mismatch?_among_iff.1 isMismatch with ⟨isWanted, absent, rfl⟩ | ⟨isGiven, absent, rfl⟩
    · exact .inl ⟨name, isWanted, absent, rfl⟩
    · exact .inr ⟨name, isGiven, absent, rfl⟩
  · have listed {name : String} (mem : name ∈ given ++ wanted) : .among given wanted name ∈ arguments given wanted :=
      List.mem_map_of_mem (mem_distinct.2 mem)
    rintro (⟨name, isWanted, absent, rfl⟩ | ⟨name, isGiven, absent, rfl⟩)
    · refine ⟨_, listed (List.mem_append_right _ isWanted), ?_⟩
      exact Argument.mismatch?_among_iff.2 (.inl ⟨isWanted, absent, rfl⟩)
    · refine ⟨_, listed (List.mem_append_left _ isGiven), ?_⟩
      exact Argument.mismatch?_among_iff.2 (.inr ⟨isGiven, absent, rfl⟩)

/-- The inputs of a test of a function are reported once each, and what is reported are, in some order, the arguments
on one side only of a call of the function with these inputs: as errors those that are expected and not provided, as
warnings those that are provided and not expected.  The arguments of a call are the names of both sides, each where it
first comes, marked by the sides that it is on. -/
theorem mismatches_perm_oneSided (provided keys : List String) :
    ((mismatches (provided.map .str) keys).map (·.field)).Nodup ∧
    (mismatches (provided.map .str) keys).Perm
      ((compare (provided.map .str) ((Logic.function keys).inputs.map .str)).filterMap Argument.mismatch?) ∧
    ∀ lhs rhs : List String, compare (lhs.map .str) (rhs.map .str) =
      (lhs ++ rhs).eraseDups.map fun name => ⟨.str name, decide (name ∈ lhs), decide (name ∈ rhs)⟩ := by
  have once := nodup_map_field_mismatches provided keys
  refine ⟨once, ?_, fun lhs rhs => ?_⟩
  · rw [compare_map_str, List.perm_ext_iff_of_nodup once.of_map (nodup_map_field_oneSided ..).of_map]
    intro m
    rw [mem_mismatches_map_str_iff, mem_oneSided_iff]
    rfl
  · rw [compare_map_str, arguments, distinct_eq_eraseDups]
    rfl

end ManifestLens.Inputs
