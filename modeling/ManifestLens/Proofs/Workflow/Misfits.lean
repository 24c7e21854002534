import ManifestLens.Proofs.Outline.Queries
import ManifestLens.Proofs.Workflow.Verdict

/-!
# Steps in error

A step that runs is in error exactly if the arguments that it provides are not those that its logic expects, or if its
inputs stand in several places.  Every error is reported at the step and nothing else is, so the hover over a step in
error has a message to show (`StepCheck.ofStep_error_iff`).
-/

namespace ManifestLens

namespace StepCheck

/-! ### Arguments -/

/-- A step provides an argument: it is a key of its inputs, an implicit one, or the text of the key under which a loop
gives its items, if there is such a key and it is not empty. -/
def Provides (spec : Value) (implicit : List Value) (argument : Value) : Prop :=
  (∃ given value, spec.lookup? "inputs" = .ok (some (.map given)) ∧ (argument, value) ∈ given) ∨
    argument ∈ implicit ∨
    ∃ loop key, spec.lookup? "forEach" = .ok (some (.map loop)) ∧ Entries.get? loop "inputKey" = some key ∧
      key.truthy = true ∧ argument = .str key.text

/-- The mapping under a name is empty only where there is none. -/
private theorem lookupEntries_eq_ok {v : Value} {name : String} {entries : Entries}
    (h : v.lookupEntries name = .ok entries) :
    v.lookup? name = .ok (some (.map entries)) ∨ v.lookup? name = .ok none ∧ entries = [] := by
  obtain ⟨found, looked, h⟩ := except_bind_eq_ok_iff.1 h
  split at h
  · cases h
    exact .inr ⟨looked, rfl⟩
  · cases h
    exact .inl looked
  · cases h

/-- What the entries under a name hold is told by looking the name up. -/
private theorem exists_lookup?_iff {v : Value} {name : String} {entries : Entries}
    (h : v.lookupEntries name = .ok entries) {P : Entries → Prop} (none : ¬P []) :
    (∃ found, v.lookup? name = .ok (some (.map found)) ∧ P found) ↔ P entries := by
  rcases lookupEntries_eq_ok h with looked | ⟨looked, rfl⟩
  · rw [looked]
    constructor
    · rintro ⟨_, ⟨⟩, own⟩
      exact own
    · intro own
      exact ⟨entries, rfl, own⟩
  · rw [looked]
    refine iff_of_false ?_ none
    rintro ⟨_, ⟨⟩, _⟩

/-- The names that are compared with those that the logic expects are the arguments that the step provides. -/
private theorem mem_names_iff_provides {spec : Value} {implicit names : List Value} {given : Entries}
    (h : providedInputs spec implicit = .ok (given, names)) (argument : Value) :
    argument ∈ names ↔ Provides spec implicit argument := by
  obtain ⟨_, isInputs, h⟩ := except_bind_eq_ok_iff.1 h
  obtain ⟨loop, isLoop, h⟩ := except_bind_eq_ok_iff.1 h
  cases h
  have named : (∃ found value, spec.lookup? "inputs" = .ok (some (.map found)) ∧ (argument, value) ∈ found) ↔
      argument ∈ given.map Prod.fst := by
    have own := exists_lookup?_iff isInputs (P := fun found => argument ∈ found.map Prod.fst) List.not_mem_nil
    rw [← own]
    simp
  have looped : (∃ found key, spec.lookup? "forEach" = .ok (some (.map found)) ∧
      Entries.get? found "inputKey" = some key ∧ key.truthy = true ∧ argument = .str key.text) ↔
      ((Entries.get? loop "inputKey").getD .null).truthy = true ∧
        argument = .str ((Entries.get? loop "inputKey").getD .null).text := by
    have own := exists_lookup?_iff isLoop (P := fun found => ∃ key, Entries.get? found "inputKey" = some key ∧
      key.truthy = true ∧ argument = .str key.text) (by rintro ⟨_, ⟨⟩, _⟩)
    simp only [exists_and_left, own]
    cases Entries.get? loop "inputKey" with
    | none => simp [Value.truthy]
    | some key => simp
  rw [Provides, named, looped, List.mem_append, List.mem_append, or_assoc]
  refine or_congr_right (or_congr_right ?_)
  split
  · next filled => simp [filled]
  · next empty => simp [empty]

/-! ### Errors and diagnostics -/

private theorem argument_eq_nil {a : Inputs.Argument} (fits : a.provided = a.expected) (base : Position)
    (block : Outline) (inputs : Option Outline) (given : Entries) : argument base block inputs given a = [] := by
  cases inputs with
  | none => rfl
  | some o =>
    rw [argument, fits]
    cases a.expected <;> rfl

section

variable {base : Position} {block : Outline} {spec : Value} {implicit : List Value} {check : StepCheck}

/-- Nothing is reported of a step that is in order. -/
private theorem diagnostics_of_ofLogic {label : String} {logic : Logic}
    (h : ofLogic base label logic block spec implicit = .ok check) (noError : check.error = false) :
    check.diagnostics = [] := by
  obtain ⟨⟨given, names⟩, _, h⟩ := except_bind_eq_ok_iff.1 h
  dsimp only at h
  generalize inputsIn base block = places at h
  obtain ⟨repeated, inputs⟩ := places
  cases h
  rw [Bool.or_eq_false_iff, List.any_eq_false] at noError
  obtain ⟨once, agree⟩ := noError
  have same : ∀ a ∈ Inputs.compare names (logic.inputs.map .str), a.provided = a.expected := by
    intro a mem
    simpa using agree a mem
  have none : repeated = [] := by simpa using once
  have silent : (Inputs.compare names (logic.inputs.map .str)).flatMap (argument base block inputs given) = [] :=
    List.flatMap_eq_nil_iff.2 fun a mem => argument_eq_nil (same a mem) base block inputs given
  have noError : (!repeated.isEmpty || (Inputs.compare names (logic.inputs.map .str)).any fun a =>
      a.provided != a.expected) = false := by
    rw [none, Bool.or_eq_false_iff, List.any_eq_false]
    exact ⟨rfl, agree⟩
  rw [noError, none, silent]
  rfl

/-- Whatever a step does, it is in error exactly if something is reported of it. -/
private theorem error_iff_diagnostics {step : Step} (h : ofStep base step block spec implicit = .ok check) :
    check.error = true ↔ check.diagnostics ≠ [] := by
  rw [ofStep] at h
  split at h
  · cases h
    exact iff_of_true rfl (atLabel_ne_nil _ _ _ _)
  · refine ⟨(ofLogic_spec h).2, fun reported => ?_⟩
    rw [← Bool.not_eq_false]
    exact fun noError => reported (diagnostics_of_ofLogic h noError)

/-- By the specification of a step, its inputs fit exactly if it provides the arguments that its logic expects, and the
inputs stand in one place at most. -/
private theorem fits_iff {logic : Logic} {given : Entries} {names : List Value}
    (provided : providedInputs spec implicit = .ok (given, names)) :
    Fits logic block spec implicit ↔ block.timesBelow "inputs" ≤ 1 ∧
      ∀ argument, Provides spec implicit argument ↔ argument ∈ logic.inputs.map Value.str := by
  rw [Fits, Outline.length_search_parts (by decide)]
  refine and_congr_right fun _ => ?_
  simp only [← mem_names_iff_provides provided, provided]
  constructor
  · rintro ⟨_, _, ⟨⟩, agree⟩
    exact agree
  · intro agree
    exact ⟨given, names, rfl, agree⟩

/-- A step that runs is in error exactly if the arguments that it provides differ from those that its logic expects, or
its inputs stand in several places below it; a step that is broken always is.  Any step is in error exactly if something
is reported of it, so the hover over a step in error tells the last of the reports. -/
theorem ofStep_error_iff {step : Step} (h : ofStep base step block spec implicit = .ok check) :
    (∀ logic, step.body = .runs logic → (check.error = true ↔
      (¬∀ argument, Provides spec implicit argument ↔ argument ∈ logic.inputs.map Value.str) ∨
        1 < block.timesBelow "inputs")) ∧
    (∀ message, step.body = .broken message → check.error = true) ∧
    (check.error = true ↔ check.diagnostics ≠ []) ∧
    ∀ logic, step.body = .runs logic → implicit = [] → ∃ text, Hover.stepText base step block spec = .ok text ∧
      (check.error = true → ∃ d, check.diagnostics.getLast? = some d ∧ text = "*Error*\n" ++ d.message) := by
  have visible := error_iff_diagnostics h
  refine ⟨fun logic runs => ?_, fun message broken => ?_, visible, fun logic runs noImplicit => ?_⟩
  · rw [ofStep, runs] at h
    obtain ⟨⟨given, names⟩, provided, _⟩ := except_bind_eq_ok_iff.1 h
    rw [← Bool.not_eq_false, (ofLogic_spec h).1, fits_iff provided, Classical.not_and_iff_not_or_not, Nat.not_le,
      or_comm]
  · rw [ofStep, broken] at h
    cases h
    rfl
  · have checked : ofLogic base step.label logic block spec [] = .ok check := by
      rwa [ofStep, runs, noImplicit] at h
    rw [Hover.stepText, runs]
    cases error : check.error with
    | false =>
      exact ⟨"*Ok*", except_bind_eq_ok_iff.2 ⟨check, checked, by rw [error]; rfl⟩, fun h => by cases h⟩
    | true =>
      cases last : check.diagnostics.getLast? with
      | none => exact absurd (List.getLast?_eq_none_iff.1 last) (visible.1 error)
      | some d =>
        refine ⟨"*Error*\n" ++ d.message, except_bind_eq_ok_iff.2 ⟨check, checked, ?_⟩, fun _ => ⟨d, rfl, rfl⟩⟩
        rw [error, last]
        rfl

end

/-! ### A step in a loop -/

/-- The outline of a step with one block of inputs. -/
private def loopBlock : Outline :=
  let key (line : Int) (name : String) : Token := ⟨⟨0, 0⟩, ⟨line, 6⟩, 6, some name, none, .property, none, none⟩
  .block (some "Step:main") none ⟨⟨4, 4⟩, ⟨9, 0⟩⟩ (some [
    .token (key 4 "label:main") none,
    .token (key 5 "inputs") (some [.block (some "input-values") none ⟨⟨6, 8⟩, ⟨8, 0⟩⟩ (some [
      .token (key 6 "input:x") none, .token (key 7 "input:z") none])])])

/-- The step gives two inputs, and its items under the name `item`. -/
private def loopSpec : Value :=
  .map [(.str "inputs", .map [(.str "x", .int 1), (.str "z", .int 2)]),
    (.str "forEach", .map [(.str "inputKey", .str "item")])]

/-- What the step is checked to be if its logic reads the given keys. -/
private def loopCheck (keys : List String) : Except Fault StepCheck :=
  ofStep .origin ⟨"main", .runs (.function keys)⟩ loopBlock loopSpec []

/-- The step is in order with logic that reads all that it provides, and in error with logic that reads something else;
the error is told by the hover. -/
theorem ofStep_error_iff_loop :
    (∃ check, loopCheck ["inputs.item.name", "inputs.x", "inputs.z"] = .ok check ∧ check.diagnostics = [] ∧
      ∀ argument, Provides loopSpec [] argument ↔ argument ∈ ["item", "x", "z"].map Value.str) ∧
    ∃ check d, loopCheck ["inputs.x", "inputs.y"] = .ok check ∧ check.diagnostics.getLast? = some d ∧
      (¬∀ argument, Provides loopSpec [] argument ↔ argument ∈ ["x", "y"].map Value.str) ∧
      Hover.stepText .origin ⟨"main", .runs (.function ["inputs.x", "inputs.y"])⟩ loopBlock loopSpec =
        .ok ("*Error*\n" ++ d.message) := by
  have once : ¬1 < loopBlock.timesBelow "inputs" := by decide +kernel
  have fitting : (Logic.function ["inputs.item.name", "inputs.x", "inputs.z"]).inputs = ["item", "x", "z"] := by
    decide +kernel
  have other : (Logic.function ["inputs.x", "inputs.y"]).inputs = ["x", "y"] := by decide +kernel
  have inOrder : (loopCheck ["inputs.item.name", "inputs.x", "inputs.z"]).toOption.map (·.error) = some false := by
    decide +kernel
  have inError : (loopCheck ["inputs.x", "inputs.y"]).toOption.map (·.error) = some true := by decide +kernel
  constructor
  · cases checked : loopCheck ["inputs.item.name", "inputs.x", "inputs.z"] with
    | error fault =>
      rw [checked] at inOrder
      cases inOrder
    | ok check =>
      rw [checked] at inOrder
      have noError : check.error = false := Option.some.inj inOrder
      obtain ⟨runs, _, visible, _⟩ := ofStep_error_iff checked
      have verdict := runs _ rfl
      rw [noError, fitting] at verdict
      refine ⟨check, rfl, ?_, ?_⟩
      · by_contra reported
        rw [visible.2 reported] at noError
        cases noError
      · by_contra differ
        cases verdict.2 (.inl differ)
  · cases checked : loopCheck ["inputs.x", "inputs.y"] with
    | error fault =>
      rw [checked] at inError
      cases inError
    | ok check =>
      rw [checked] at inError
      have error : check.error = true := Option.some.inj inError
      obtain ⟨runs, _, _, hovered⟩ := ofStep_error_iff checked
      obtain ⟨_, told, last⟩ := hovered _ rfl rfl
      obtain ⟨d, isLast, rfl⟩ := last error
      refine ⟨check, d, rfl, isLast, ?_, told⟩
      rw [← other]
      exact ((runs _ rfl).1 error).resolve_right once

end StepCheck

end ManifestLens
