import ManifestLens.Editor.Hover
import ManifestLens.Proofs.Inputs.Marking
import ManifestLens.Proofs.Manifest.Run

/-!
# The two verdicts on a step

The diagnostics of a workflow and the hover over one of its steps both check the step.  The check finds no error
exactly if the inputs fit (`StepCheck.Fits`): those that the specification gives are those that the logic expects, and
they stand in one place.  But the diagnostics go by the specification of the step, and the hover by that of the whole
workflow, so the two agree only as far as these come to the same (`Hover.agrees_with_check_iff`).
-/

namespace ManifestLens

namespace Outline

private theorem find_eq_part {key : String} {outlines : List Outline} {o : Outline} (h : search key outlines = [o])
    (base : Position) : find base key outlines = .part o := by
  rw [find, h]

/-- A search for one part is faulty exactly if it finds several, and each of them is reported. -/
private theorem find_eq_faulty {base : Position} {key : String} {outlines : List Outline} {found : List Diagnostic}
    (h : find base key outlines = .faulty found) : 2 ≤ (search key outlines).length ∧ found ≠ [] := by
  rw [find] at h
  cases several : search key outlines with
  | nil =>
    rw [several] at h
    cases h
  | cons o rest =>
    cases rest with
    | nil =>
      rw [several] at h
      cases h
    | cons p rest =>
      rw [several] at h
      cases h
      exact ⟨by simp, List.cons_ne_nil _ _⟩

end Outline

namespace StepCheck

/-- By a specification, a step gives exactly the inputs that its logic expects, and the inputs stand in one place of
its block at most. -/
def Fits (logic : Logic) (block : Outline) (spec : Value) (implicit : List Value) : Prop :=
  (Outline.search "inputs" block.parts).length ≤ 1 ∧
    ∃ given names, providedInputs spec implicit = .ok (given, names) ∧ ∀ v, v ∈ names ↔ v ∈ logic.inputs.map Value.str

theorem atLabel_ne_nil (base : Position) (label : String) (block : Outline) (message : String) :
    atLabel base label block message ≠ [] := by
  rw [atLabel]
  split
  · rename_i found faulty
    exact (Outline.find_eq_faulty faulty).2
  · exact List.cons_ne_nil _ _
  · exact List.cons_ne_nil _ _

/-- Nothing is reported of where inputs stand exactly if that is one place at most. -/
private theorem inputsIn_isEmpty_iff (base : Position) (block : Outline) :
    (inputsIn base block).1.isEmpty = true ↔ (Outline.search "inputs" block.parts).length ≤ 1 := by
  rw [inputsIn, Outline.find]
  cases Outline.search "inputs" block.parts with
  | nil => simp
  | cons o rest => cases rest <;> simp

section

variable {base : Position} {label : String} {logic : Logic} {block : Outline} {spec : Value} {implicit : List Value}
  {check : StepCheck}

/-- A step that runs is in error exactly if its inputs do not fit, and is then reported. -/
theorem ofLogic_spec (h : ofLogic base label logic block spec implicit = .ok check) :
    (check.error = false ↔ Fits logic block spec implicit) ∧ (check.error = true → check.diagnostics ≠ []) := by
  obtain ⟨⟨given, names⟩, provided, h⟩ := except_bind_eq_ok_iff.1 h
  have once := inputsIn_isEmpty_iff base block
  dsimp only at h
  generalize inputsIn base block = places at h once
  obtain ⟨repeated, inputs⟩ := places
  cases h
  constructor
  · have fits : Fits logic block spec implicit ↔ repeated.isEmpty = true ∧
        ((Inputs.compare names (logic.inputs.map .str)).any fun a => a.provided != a.expected) = false := by
      rw [once, Inputs.any_differs_eq_false_iff]
      constructor
      · rintro ⟨once, given', names', same, agree⟩
        rw [provided] at same
        cases same
        exact ⟨once, agree⟩
      · rintro ⟨once, agree⟩
        exact ⟨once, given, names, provided, agree⟩
    simp only [fits, Bool.or_eq_false_iff, Bool.not_eq_eq_eq_not, Bool.not_false]
  · intro error
    rw [if_pos error]
    exact List.append_ne_nil_of_right_ne_nil _ (atLabel_ne_nil base label block _)

end

end StepCheck

namespace Hover

/-- The hover says that the step is in order. -/
def SaysOk (shown : Option Hover) : Prop :=
  shown.map (·.text) = some "*Ok*"

/-- The hover says that the step is in error, and why. -/
def SaysError (shown : Option Hover) : Prop :=
  ∃ reason, shown.map (·.text) = some ("*Error*\n" ++ reason)

private theorem error_ne_ok (reason : String) : "*Error*\n" ++ reason ≠ "*Ok*" := by
  intro same
  have chars := congrArg String.toList same
  simp at chars

private theorem notReady_ne_ok (message : String) : "Not ready " ++ message ++ "." ≠ "*Ok*" := by
  intro same
  have chars := congrArg String.toList same
  simp at chars

private theorem notReady_ne_error (message reason : String) :
    "Not ready " ++ message ++ "." ≠ "*Error*\n" ++ reason := by
  intro same
  have chars := congrArg String.toList same
  simp at chars

/-- The key of a step has a label exactly if there is no colon in it. -/
private theorem label?_step (label : String) :
    label? s!"Step:{label}" = if ':' ∈ label.toList then none else some label := by
  show label? ("Step:" ++ label) = _
  simp [label?]

variable {base : Position} {step : Step} {block : Outline} {spec : Value} {text : String}

/-- The hover over a step that runs says whether its inputs fit. -/
private theorem stepText_runs {logic : Logic} (runs : step.body = .runs logic)
    (h : stepText base step block spec = .ok text) :
    StepCheck.Fits logic block spec [] ∧ text = "*Ok*" ∨
      ¬StepCheck.Fits logic block spec [] ∧ ∃ reason, text = "*Error*\n" ++ reason := by
  rw [stepText, runs] at h
  obtain ⟨check, checked, h⟩ := except_bind_eq_ok_iff.1 h
  obtain ⟨fits, reported⟩ := StepCheck.ofLogic_spec checked
  cases error : check.error with
  | false =>
    rw [error] at h
    cases h
    exact .inl ⟨fits.1 error, rfl⟩
  | true =>
    rw [error] at h
    refine .inr ⟨fun fit => by simp [fits.2 fit] at error, ?_⟩
    cases last : check.diagnostics.getLast? with
    | none => exact absurd (List.getLast?_eq_none_iff.1 last) (reported error)
    | some d =>
      rw [last] at h
      cases h
      exact ⟨d.message, rfl⟩

private theorem stepText_broken {message : String} (broken : step.body = .broken message)
    (h : stepText base step block spec = .ok text) : text = "Not ready " ++ message ++ "." := by
  rw [stepText, broken] at h
  cases h
  rfl

/-- A step of a workflow that is kept under a name with its outline, in which the block and the label of the step stand
once. -/
structure KeptStep (cache : Cache) (name : String) (entry : CacheEntry) (w : Workflow) (anchor : Anchor) (step : Step)
    (block : Outline) : Prop where
  kept : cache.get? "Workflow" name = some entry
  resource : entry.resource = .workflow w
  outline : (entry.source?.bind (·.anchor?)) = some anchor
  mem : step ∈ w.steps
  atBlock : Outline.search s!"Step:{step.label}" anchor.parts = [block]
  atLabel : (Outline.search s!"label:{step.label}" anchor.parts).length = 1

section

variable {cache : Cache} {name : String} {entry : CacheEntry} {w : Workflow} {anchor : Anchor} {shown : Option Hover}

/-- The hover over the step with a label is that of the first step with the label, by the specification of the whole
workflow; there is none for a label with a colon. -/
private theorem KeptStep.ofStep_spec (kept : KeptStep cache name entry w anchor step block)
    (h : ofStep cache name s!"Step:{step.label}" = .ok shown) :
    ':' ∈ step.label.toList ∧ shown = none ∨
      ':' ∉ step.label.toList ∧ ∃ first text, w.steps.find? (·.label == step.label) = some first ∧
        stepText anchor.absolute first block entry.spec = .ok text ∧ shown.map (·.text) = some text := by
  have noted : (entry.source?.bind (·.anchor)) = some (some anchor) := by
    obtain ⟨source, noted, anchored⟩ := Option.bind_eq_some_iff.1 kept.outline
    rw [noted, Option.bind_some]
    rw [Provenance.anchor?] at anchored
    cases known : source.anchor with
    | none => simp [known] at anchored
    | some a => simpa [known] using anchored
  obtain ⟨labelled, atLabel⟩ := List.length_eq_one_iff.1 kept.atLabel
  simp only [ofStep, kept.kept, Option.bind_some, noted, Option.map_some, label?_step] at h
  by_cases colon : ':' ∈ step.label.toList
  · rw [if_pos colon] at h
    cases h
    exact .inl ⟨colon, rfl⟩
  · rw [if_neg colon] at h
    simp only [stepIn, kept.atBlock, atLabel, kept.resource, stepsOf] at h
    have known : (w.steps.find? (·.label == step.label)).isSome = true :=
      List.find?_isSome.2 ⟨step, kept.mem, beq_self_eq_true _⟩
    obtain ⟨first, found⟩ := Option.isSome_iff_exists.1 known
    obtain ⟨steps, own, h⟩ := except_bind_eq_ok_iff.1 h
    cases own
    rw [found] at h
    obtain ⟨text, told, h⟩ := except_bind_eq_ok_iff.1 h
    cases h
    exact .inr ⟨colon, first, text, found, told, rfl⟩

/-- The hover over a step says what holds of the first step with its label. -/
private theorem KeptStep.says_iff (kept : KeptStep cache name entry w anchor step block)
    (h : ofStep cache name s!"Step:{step.label}" = .ok shown) :
    (SaysOk shown ↔ ':' ∉ step.label.toList ∧ ∃ first logic, w.steps.find? (·.label == step.label) = some first ∧
      first.body = .runs logic ∧ StepCheck.Fits logic block entry.spec []) ∧
    (SaysError shown ↔ ':' ∉ step.label.toList ∧ ∃ first logic, w.steps.find? (·.label == step.label) = some first ∧
      first.body = .runs logic ∧ ¬StepCheck.Fits logic block entry.spec []) := by
  rcases kept.ofStep_spec h with ⟨colon, rfl⟩ | ⟨plain, first, text, found, told, shows⟩
  · simp [SaysOk, SaysError, colon]
  · rw [SaysOk, SaysError, shows]
    cases body : first.body with
    | broken message =>
      have text := stepText_broken body told
      subst text
      simp [notReady_ne_ok, notReady_ne_error, found, body]
    | runs logic =>
      rcases stepText_runs body told with ⟨fits, rfl⟩ | ⟨fits, reason, rfl⟩
      · simp [found, body, fits, plain, (error_ne_ok _).symm]
      · simp [found, body, fits, plain, error_ne_ok]

/-- The check of a step for the diagnostics goes by the specification of the step. -/
private theorem KeptStep.checkStep_spec (kept : KeptStep cache name entry w anchor step block) {logic : Logic}
    (runs : step.body = .runs logic) {specs : Entries} {check : StepCheck}
    (h : Workflow.checkStep anchor specs step = .ok check) :
    check.error = false ↔ StepCheck.Fits logic block (Workflow.specFor specs step.label) [] := by
  rw [Workflow.checkStep, Outline.find_eq_part kept.atBlock] at h
  simp only [StepCheck.ofStep, runs] at h
  exact (StepCheck.ofLogic_spec h).1

end

/-- For a step that runs, the check for the diagnostics finds no error exactly if the inputs fit by the specification of
the step, and the hover says so exactly if the label has no colon and the inputs of the first step with the label fit by
the specification of the whole workflow.  So the two agree exactly if both specifications come to the same. -/
theorem agrees_with_check_iff {cache : Cache} {name : String} {entry : CacheEntry} {w : Workflow} {anchor : Anchor}
    {step : Step} {block : Outline} {logic : Logic} {shown : Option Hover} {check : StepCheck}
    (kept : KeptStep cache name entry w anchor step block) (runs : step.body = .runs logic)
    (hovered : ofStep cache name s!"Step:{step.label}" = .ok shown)
    (checked : (do Workflow.checkStep anchor (← Workflow.specsOf entry.spec) step) = .ok check) :
    ∃ specs, Workflow.specsOf entry.spec = .ok specs ∧
      (check.error = false ↔ StepCheck.Fits logic block (Workflow.specFor specs step.label) []) ∧
      (SaysOk shown ↔ ':' ∉ step.label.toList ∧ ∃ first logic', w.steps.find? (·.label == step.label) = some first ∧
        first.body = .runs logic' ∧ StepCheck.Fits logic' block entry.spec []) ∧
      (SaysError shown ↔ ':' ∉ step.label.toList ∧ ∃ first logic', w.steps.find? (·.label == step.label) = some first ∧
        first.body = .runs logic' ∧ ¬StepCheck.Fits logic' block entry.spec []) ∧
      ((SaysOk shown ↔ check.error = false) ∧ (SaysError shown ↔ check.error = true) ↔
        ':' ∉ step.label.toList ∧ ∃ first logic', w.steps.find? (·.label == step.label) = some first ∧
          first.body = .runs logic' ∧
          (StepCheck.Fits logic' block entry.spec [] ↔
            StepCheck.Fits logic block (Workflow.specFor specs step.label) [])) := by
  obtain ⟨specs, specified, checked⟩ := except_bind_eq_ok_iff.1 checked
  have fits := kept.checkStep_spec runs checked
  obtain ⟨ok, error⟩ := kept.says_iff hovered
  refine ⟨specs, specified, fits, ok, error, ?_, ?_⟩
  · rintro ⟨sameOk, sameError⟩
    cases verdict : check.error with
    | false =>
      obtain ⟨plain, first, logic', found, body, whole⟩ := ok.1 (sameOk.2 verdict)
      exact ⟨plain, first, logic', found, body, iff_of_true whole (fits.1 verdict)⟩
    | true =>
      obtain ⟨plain, first, logic', found, body, whole⟩ := error.1 (sameError.2 verdict)
      exact ⟨plain, first, logic', found, body, iff_of_false whole fun own => by simp [fits.2 own] at verdict⟩
  · rintro ⟨plain, first, logic', found, body, same⟩
    constructor
    · rw [ok, fits, ← same]
      simp [plain, found, body]
    · rw [error, ← Bool.not_eq_false, fits, ← same]
      simp [plain, found, body]

/-! ### A step that gives what its logic expects -/

/-- The outline of a workflow with one step. -/
def mainAnchor : Anchor :=
  let label : Token := ⟨⟨0, 0⟩, ⟨4, 11⟩, 4, some "label:main", none, .string, none, none⟩
  ⟨some "Workflow:w", ⟨0, 0⟩, ⟨0, 0⟩,
    some [.block (some "Step:main") none ⟨⟨4, 4⟩, ⟨6, 0⟩⟩ (some [.token label none])]⟩

/-- A step whose logic reads the given keys. -/
def mainStep (keys : List String) : Step :=
  ⟨"main", .runs (.function keys)⟩

/-- A workflow with one step that gives the given inputs. -/
def mainEntry (keys : List String) (inputs : Entries) : CacheEntry :=
  let spec : Value := .map [(.str "label", .str "main"), (.str "inputs", .map inputs)]
  ⟨.workflow ⟨[mainStep keys], none⟩, .map [(.str "steps", .list [spec])], some (.ofFile "w.yaml" mainAnchor)⟩

/-- Only that workflow is kept. -/
def mainCache (keys : List String) (inputs : Entries) : Cache :=
  [(⟨"Workflow", .str "w"⟩, mainEntry keys inputs)]

/-- What the check of the step for the diagnostics finds. -/
def mainCheck (keys : List String) (inputs : Entries) : Except Fault StepCheck := do
  Workflow.checkStep mainAnchor (← Workflow.specsOf (mainEntry keys inputs).spec) (mainStep keys)

private theorem keptStep_main (keys : List String) (inputs : Entries) : ∃ block,
    KeptStep (mainCache keys inputs) "w" (mainEntry keys inputs) ⟨[mainStep keys], none⟩ mainAnchor (mainStep keys)
      block := by
  exact ⟨_, by simp [mainCache, Cache.get?, ResourceKey.matches, Value.equals_str_iff], rfl, rfl, by simp, rfl, rfl⟩

/-- A step without inputs is in order for both, as its inputs fit by both specifications. -/
theorem agrees_with_check_iff_noInputs :
    ∃ shown check block specs, ofStep (mainCache [] []) "w" "Step:main" = .ok shown ∧ mainCheck [] [] = .ok check ∧
      SaysOk shown ∧ check.error = false ∧ Workflow.specsOf (mainEntry [] []).spec = .ok specs ∧
      StepCheck.Fits (.function []) block (mainEntry [] []).spec [] ∧
      StepCheck.Fits (.function []) block (Workflow.specFor specs "main") [] := by
  have hovered : ofStep (mainCache [] []) "w" "Step:main" = .ok (some ⟨"*Ok*", ⟨⟨4, 11⟩, ⟨4, 15⟩⟩⟩) :=
    except_eq_ok_of_toOption (by decide +kernel)
  have checked : mainCheck [] [] = .ok ⟨false, []⟩ :=
    except_eq_ok_of_toOption (by decide +kernel)
  obtain ⟨block, kept⟩ := keptStep_main [] []
  obtain ⟨specs, specified, fits, ok, _⟩ := agrees_with_check_iff kept rfl hovered checked
  obtain ⟨_, first, logic, found, body, whole⟩ := ok.1 rfl
  cases found
  cases body
  exact ⟨_, _, block, specs, hovered, checked, rfl, rfl, specified, whole, fits.1 rfl⟩

/-- A step that gives the one input that its logic reads is in order for the diagnostics, and in error for the hover. -/
theorem hover_error_check_ok :
    (∃ shown, ofStep (mainCache ["inputs.x"] [(.str "x", .int 1)]) "w" "Step:main" = .ok shown ∧ SaysError shown) ∧
      mainCheck ["inputs.x"] [(.str "x", .int 1)] = .ok ⟨false, []⟩ := by
  refine ⟨⟨some ⟨"*Error*\nStep has errors", ⟨⟨4, 11⟩, ⟨4, 15⟩⟩⟩, ?_, "Step has errors", rfl⟩, ?_⟩
  · exact except_eq_ok_of_toOption (by decide +kernel)
  · exact except_eq_ok_of_toOption (by decide +kernel)

end Hover

end ManifestLens
