import ManifestLens.Proofs.Inputs.Mismatches
import ManifestLens.Proofs.Manifest.Run
import ManifestLens.Proofs.Value.Identity
import ManifestLens.Test.Result
import ManifestLens.Value.Field

/-!
# The verdict on a test

A test reports the mismatches of its inputs, and then runs.  Its verdict goes by the run alone: the test fails exactly
if the run breaks off or a case fails aloud, with a message or with differences, whatever inputs are missing
(`FunctionTest.fails_iff_run_fails`).  A case that fails silently does not count, so a test that succeeds has passed all
its cases exactly if none of them is silent (`FunctionTest.all_passed_iff_none_silent`).
-/

namespace ManifestLens

/-! ### Cases -/

namespace CaseResult

/-- The case failed, and has a message or differences to show for it. -/
def FailsAloud (c : CaseResult) : Prop :=
  c.passed = false ∧ (c.message.truthy = true ∨ c.differences.truthy = true)

/-- The case failed, and has nothing to show for it. -/
def FailsSilently (c : CaseResult) : Prop :=
  c.passed = false ∧ c.message.truthy = false ∧ c.differences.truthy = false

variable {c : CaseResult}

private theorem failure?_eq_none_iff : c.failure? = none ↔ ¬c.FailsAloud := by
  rw [failure?, FailsAloud]
  cases c.passed <;> cases c.message.truthy <;> cases c.differences.truthy <;> simp

private theorem not_failsAloud_iff : ¬c.FailsAloud ↔ c.passed = true ∨ c.FailsSilently := by
  rw [FailsAloud, FailsSilently]
  cases c.passed <;> cases c.message.truthy <;> cases c.differences.truthy <;> simp

private theorem FailsSilently.not_passed (h : c.FailsSilently) : ¬c.passed = true := by
  rw [h.1]
  exact Bool.false_ne_true

end CaseResult

/-- The run broke off, or one of its cases failed aloud. -/
def TestRun.Fails : TestRun → Prop
  | .broken _ => True
  | .finished cases => ∃ c ∈ cases, c.FailsAloud

/-! ### Results -/

namespace TestResult

variable (cases : List CaseResult) (mismatches : List Inputs.Mismatch)

private theorem failures_isEmpty_iff :
    (cases.filterMap CaseResult.failure?).isEmpty = true ↔ ∀ c ∈ cases, ¬c.FailsAloud := by
  rw [List.isEmpty_iff, List.filterMap_eq_nil_iff]
  exact forall₂_congr fun c _ => CaseResult.failure?_eq_none_iff

private theorem mismatches_ofCases : (ofCases cases mismatches).mismatches = some mismatches :=
  rfl

private theorem success_ofCases_iff : (ofCases cases mismatches).success = true ↔ ∀ c ∈ cases, ¬c.FailsAloud := by
  rw [← failures_isEmpty_iff, ofCases]
  cases cases with
  | nil => simp
  | cons c rest =>
    cases ((c :: rest).filterMap CaseResult.failure?).isEmpty <;> simp

/-- A test that succeeds reports all its cases as passed. -/
private theorem messages_ofCases {cases : List CaseResult} (nonempty : cases ≠ [])
    (success : (ofCases cases mismatches).success = true) :
    (ofCases cases mismatches).messages = some [s!"### {cases.length} Tests passed"] := by
  have quiet := (failures_isEmpty_iff cases).2 ((success_ofCases_iff cases mismatches).1 success)
  rw [ofCases, quiet, if_neg (by simpa using nonempty), if_pos rfl]

end TestResult

private theorem inputNames_eq {inputs : Value} (given : inputs = .null ∨ inputs.IsMapping) :
    inputNames inputs = .ok (inputs.entries.map Prod.fst) := by
  rcases given with rfl | ⟨entries, rfl⟩
  · rfl
  · cases entries <;> rfl

namespace FunctionTest

variable {t : FunctionTest} {keys : List String}

/-- The mismatches of the inputs that the test gives with the keys that its function reads. -/
def mismatches (t : FunctionTest) (keys : List String) : List Inputs.Mismatch :=
  Inputs.mismatches (t.inputs.entries.map Prod.fst) keys

private theorem result_of_broken {reason : String} (subject : t.subject = .function keys)
    (given : t.inputs = .null ∨ t.inputs.IsMapping) (run : t.run = .broken reason) :
    t.result = .ok { success := false, messages := some [s!"Unknown {reason}."],
                     mismatches := some (t.mismatches keys) } := by
  rw [result, subject]
  dsimp only
  rw [inputNames_eq given, run]
  rfl

private theorem result_of_finished {cases : List CaseResult} (subject : t.subject = .function keys)
    (given : t.inputs = .null ∨ t.inputs.IsMapping) (run : t.run = .finished cases) :
    t.result = .ok (.ofCases cases (t.mismatches keys)) := by
  rw [result, subject]
  dsimp only
  rw [inputNames_eq given, run]
  rfl

/-- A result that is a success comes from the cases. -/
private theorem exists_eq_ofCases {cases : List CaseResult} {r : TestResult} (run : t.run = .finished cases)
    (result : t.result = .ok r) (success : r.success = true) : ∃ mismatches, r = .ofCases cases mismatches := by
  rw [FunctionTest.result] at result
  split at result
  · cases result
  · -- an outcome in place of the function: a good one has no keys to read, any other one fails the test
    split at result
    · cases result
    · cases result
      cases success
  · obtain ⟨names, _, result⟩ := except_bind_eq_ok_iff.1 result
    rw [run] at result
    cases result
    exact ⟨_, rfl⟩

/-! ### Missing inputs -/

/-- A test of a function has a result, which holds the mismatches of the inputs and fails exactly if the run does. -/
private theorem exists_result (subject : t.subject = .function keys) (given : t.inputs = .null ∨ t.inputs.IsMapping) :
    ∃ r, t.result = .ok r ∧ r.mismatches = some (t.mismatches keys) ∧ (r.success = false ↔ t.run.Fails) := by
  cases run : t.run with
  | broken reason => exact ⟨_, result_of_broken subject given run, rfl, by simp [TestRun.Fails]⟩
  | finished cases =>
    refine ⟨_, result_of_finished subject given run, TestResult.mismatches_ofCases _ _, ?_⟩
    rw [← Bool.not_eq_true, TestResult.success_ofCases_iff, TestRun.Fails]
    simp only [not_forall, not_not, exists_prop]

/-- A test of a function gives a result with the mismatches of its inputs, and fails exactly if its run does.  So a
missing input fails the test only where the run fails as well. -/
theorem fails_iff_run_fails (subject : t.subject = .function keys) (given : t.inputs = .null ∨ t.inputs.IsMapping) :
    ∃ r, (Resource.functionTest t).testResult = .ok r ∧ r.mismatches = some (t.mismatches keys) ∧
      (r.success = false ↔ t.run.Fails) ∧
      (((∃ m ∈ t.mismatches keys, m.weight = .error) → r.success = false) ↔
        (∀ m ∈ t.mismatches keys, m.weight ≠ .error) ∨ t.run.Fails) := by
  obtain ⟨r, result, reported, fails⟩ := exists_result subject given
  refine ⟨r, result, reported, fails, ?_⟩
  rw [fails, imp_iff_not_or]
  simp only [not_exists, not_and]

/-- A test that gives a place to a function that reads the input of a key. -/
def placeTest (key : String) (run : TestRun) : FunctionTest :=
  ⟨.map (Entries.ofNames [("place", .str "here")]), .function [key], run⟩

private theorem result_placeTest (key : String) (cases : List CaseResult) :
    (placeTest key (.finished cases)).result =
      .ok (.ofCases cases ((placeTest key (.finished cases)).mismatches [key])) :=
  result_of_finished rfl (.inr ⟨_, rfl⟩) rfl

private theorem mismatches_placeTest (run : TestRun) :
    (placeTest "inputs.size" run).mismatches ["inputs.size"] = [.missing "size", .unexpected "place"] := by
  show Inputs.mismatches [.str "place"] ["inputs.size"] = _
  decide +kernel

/-- A run that breaks off fails the test that lacks an input, and the missing input is reported. -/
theorem fails_iff_run_fails_broken :
    ∃ r, (Resource.functionTest (placeTest "inputs.size" (.broken "no cluster"))).testResult = .ok r ∧
      r.mismatches = some [.missing "size", .unexpected "place"] ∧ r.success = false := by
  obtain ⟨r, result, reported, fails, _⟩ :=
    fails_iff_run_fails (t := placeTest "inputs.size" (.broken "no cluster")) rfl (.inr ⟨_, rfl⟩)
  exact ⟨r, result, reported.trans (congrArg some (mismatches_placeTest _)), fails.2 trivial⟩

/-- A test without an input that its function reads succeeds if its cases pass. -/
theorem succeeds_without_input :
    ∃ r, (Resource.functionTest (placeTest "inputs.size" (.finished
        [⟨true, .str "p", .null, .null⟩]))).testResult = .ok r ∧
      (∃ m ∈ r.mismatches.getD [], m.weight = .error) ∧ r.success = true := by
  refine ⟨_, result_placeTest _ _, ?_, ?_⟩
  · rw [TestResult.mismatches_ofCases, mismatches_placeTest]
    exact ⟨.missing "size", by simp, rfl⟩
  · rw [TestResult.success_ofCases_iff]
    simp [CaseResult.FailsAloud]

/-! ### Silent cases -/

/-- A test that succeeds reports all its cases as passed.  They did pass exactly if none of them failed silently. -/
theorem all_passed_iff_none_silent {cases : List CaseResult} (run : t.run = .finished cases) (nonempty : cases ≠ []) :
    (∀ r, (Resource.functionTest t).testResult = .ok r → r.success = true →
        ((∀ c ∈ cases, c.passed = true) ↔ ∀ c ∈ cases, ¬c.FailsSilently)) ∧
      ∀ keys, t.subject = .function keys → t.inputs = .null ∨ t.inputs.IsMapping →
        ∃ r, (Resource.functionTest t).testResult = .ok r ∧
          (r.success = true ↔ ∀ c ∈ cases, c.passed = true ∨ c.FailsSilently) ∧
          (r.success = true → r.messages = some [s!"### {cases.length} Tests passed"]) := by
  constructor
  · intro r result success
    obtain ⟨mismatches, rfl⟩ := exists_eq_ofCases run result success
    have quiet := (TestResult.success_ofCases_iff cases mismatches).1 success
    constructor
    · exact fun passed c mem silent => silent.not_passed (passed c mem)
    · intro loud c mem
      rcases CaseResult.not_failsAloud_iff.1 (quiet c mem) with passed | silent
      · exact passed
      · exact absurd silent (loud c mem)
  · intro keys subject given
    refine ⟨_, result_of_finished subject given run, ?_, TestResult.messages_ofCases _ nonempty⟩
    rw [TestResult.success_ofCases_iff]
    exact forall₂_congr fun c _ => CaseResult.not_failsAloud_iff

/-- Two cases that passed, of which one has a message: the test succeeds, and none of its cases failed. -/
theorem all_passed_iff_none_silent_twoCases :
    ∃ r, (Resource.functionTest (placeTest "inputs.place" (.finished
        [⟨true, .str "p", .null, .null⟩, ⟨true, .str "q", .str "slow", .null⟩]))).testResult = .ok r ∧
      r.success = true ∧ r.messages = some ["### 2 Tests passed"] ∧
      ∀ c ∈ [CaseResult.mk true (.str "p") .null .null, ⟨true, .str "q", .str "slow", .null⟩], c.passed = true := by
  have verdict := all_passed_iff_none_silent (t := placeTest "inputs.place" (.finished
    [⟨true, .str "p", .null, .null⟩, ⟨true, .str "q", .str "slow", .null⟩])) rfl (by simp)
  obtain ⟨r, result, success, messages⟩ := verdict.2 ["inputs.place"] rfl (.inr ⟨_, rfl⟩)
  have succeeds := success.2 (by simp)
  exact ⟨r, result, succeeds, messages succeeds,
    (verdict.1 r result succeeds).2 (by simp [CaseResult.FailsSilently])⟩

/-- A test of which the only case failed silently succeeds. -/
theorem succeeds_with_silent_case :
    ∃ r, (Resource.functionTest (placeTest "inputs.place" (.finished
        [⟨false, .str "q", .null, .null⟩]))).testResult = .ok r ∧
      r.success = true ∧ r.messages = some ["### 1 Tests passed"] ∧
      ¬∀ c ∈ [CaseResult.mk false (.str "q") .null .null], c.passed = true := by
  have quiet (mismatches : List Inputs.Mismatch) :
      (TestResult.ofCases [⟨false, .str "q", .null, .null⟩] mismatches).success = true := by
    rw [TestResult.success_ofCases_iff]
    simp [CaseResult.FailsAloud, Value.truthy]
  exact ⟨_, result_placeTest _ _, quiet _, TestResult.messages_ofCases _ (by simp) (quiet _), by simp⟩

end FunctionTest

end ManifestLens
