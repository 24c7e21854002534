import ManifestLens.Proofs.Manifest.FirstDocument
import ManifestLens.Proofs.Manifest.Lenience
import ManifestLens.Proofs.Manifest.References
import ManifestLens.Proofs.Manifest.Starts

/-!
# Manifests that suit their kind

Two rules of the schema of resources cannot make a key of everything: the one for the steps of a workflow, and the one
for the name of a template.  All other entries are lenient.  So a manifest without expressions has outlines exactly if
all keys in it are scalars and what it holds in these two places suits the rules
(`ResourceSchema.exists_outlines_iff_suits`).
-/

namespace ManifestLens

open Yaml (Content Mark Node)

/-! ### What suits a kind -/

namespace Yaml.Node

/-- The node can be read as a step: it is empty, or all labels in it are texts. -/
def isStep : Node → Bool
  | .scalar _ text _ _ => text.isEmpty
  | .sequence _ items _ _ => items.isEmpty
  | .mapping _ pairs _ _ => (nodesAt "label" pairs).all isScalar

/-- The node can be read as the steps of a workflow.  Keys that stand where steps should are read as steps. -/
def holdsSteps : Node → Bool
  | .scalar _ _ _ _ => true
  | .sequence _ items _ _ => items.all isStep
  | .mapping _ pairs _ _ => pairs.all fun p => (keyText p.1).isEmpty

/-- A manifest that suits its kind: the steps of a workflow can be read as steps, and the name of the template that a
function refers to is a scalar. -/
def Suits (kind : Option Value) (root : Node) : Prop :=
  (kind = some (.str "Workflow") → ∀ steps ∈ root.reached ["spec", "steps"], steps.holdsSteps = true) ∧
    (kind = some (.str "ResourceFunction") →
      ∀ name ∈ root.reached ["spec", "resourceTemplateRef", "name"], name.isScalar = true)

end Yaml.Node

/-! ### Steps and names of templates -/

private theorem exists_joinTexts_iff {n : Nat} {values : List Content} :
    (∃ text, joinTexts n values = .ok text) ↔ ∀ v ∈ values, ∃ s, v = .text s := by
  induction values generalizing n with
  | nil => simp [joinTexts]
  | cons v values ih =>
    cases v with
    | text s =>
      rw [joinTexts, List.forall_mem_cons, and_iff_right ⟨s, rfl⟩, ← ih (n := n + 1)]
      cases joinTexts (n + 1) values <;> simp [Except.map]
    | _ => simp [joinTexts]

/-- A step has a key if it holds pairs, and all labels in these are texts. -/
private theorem exists_stepKey_iff {content : Content} :
    (∃ key, stepKey content = .ok key) ↔
      ∃ pairs, content.pairs? = .ok pairs ∧ ∀ v ∈ valuesAt "label" pairs, ∃ s, v = .text s := by
  constructor
  · rintro ⟨key, made⟩
    obtain ⟨pairs, isPairs, made⟩ := except_bind_eq_ok_iff.1 made
    refine ⟨pairs, isPairs, (exists_joinTexts_iff (n := 0)).1 ?_⟩
    split at made
    · next labels joined => exact ⟨labels, joined⟩
    · cases made
  · rintro ⟨pairs, isPairs, texts⟩
    obtain ⟨labels, joined⟩ := (exists_joinTexts_iff (n := 0)).2 texts
    refine ⟨"Step:" ++ labels, except_bind_eq_ok_iff.2 ⟨pairs, isPairs, ?_⟩⟩
    rw [joined]
    rfl

theorem Yaml.Node.exists_stepKey_iff_isStep {n : Node} :
    (∃ key, stepKey n.content = .ok key) ↔ n.isStep = true := by
  rw [exists_stepKey_iff]
  cases n with
  | scalar tag text start stop =>
    by_cases empty : text.isEmpty = true <;> simp [Node.content, Content.pairs?, isStep, empty, valuesAt]
  | sequence tag items start stop =>
    cases items <;> simp [Node.content, Content.pairs?, isStep, valuesAt]
  | mapping tag pairs start stop =>
    have isText (m : Node) : (∃ s, m.content = .text s) ↔ m.isScalar = true := by
      cases m <;> simp [Node.content, isScalar]
    have isPairs : (Node.mapping tag pairs start stop).content.pairs? = .ok pairs := rfl
    simp only [isPairs, Except.ok.injEq, exists_eq_left', valuesAt_eq, List.forall_mem_map, isText]
    rw [isStep, List.all_eq_true]

namespace Schema

/-- The search finds that the entry reads steps, of which only their own rule can fail. -/
def readsSteps (B : Schema) (depth : Nat) (e : Entry) : Bool :=
  match e.shape with
  | .each slot =>
    e.isTotal && (B.entry slot).localKey == some .step && (B.entry slot).indexKey == none &&
      (B.entry slot).shape.members.all fun p => B.isLenientWithin depth (B.entry p.2)
  | _ => false

/-- The search finds that the entry reads texts only, unless they are expressions. -/
def readsTexts (e : Entry) : Bool :=
  match e.localKey, e.indexKey, e.shape with
  | none, some (.unlessExpression _ _), .anything => true
  | _, _, _ => false

variable {B : Schema} {e : Entry} {n : Node}

private theorem admits_iff_of_readsTexts (h : readsTexts e = true) (keys : n.hasScalarKeys = true) :
    B.Admits e n ↔ n.isScalar = true := by
  unfold readsTexts at h
  split at h
  · next localKey indexKey shape =>
    have parts : B.HasLenientParts e := fun p mem => by
      rw [shape] at mem
      cases mem
    rw [parts.admits_iff keys, Entry.Makes, localKey, indexKey, and_iff_right ⟨none, rfl⟩]
    cases n <;> simp [Node.content, ruledKey, KeyRule.key, Node.isScalar]
  · cases h

private theorem admits_iff_of_readsSteps {depth : Nat} (h : B.readsSteps depth e = true)
    (keys : n.hasScalarKeys = true) :
    B.Admits e n ↔ n.holdsSteps = true := by
  unfold readsSteps at h
  split at h
  case h_2 => cases h
  next slot shape =>
  simp only [Bool.and_eq_true, beq_iff_eq, List.all_eq_true] at h
  obtain ⟨⟨⟨total, localKey⟩, indexKey⟩, lenient⟩ := h
  have parts : B.HasLenientParts (B.entry slot) := fun p mem => lenient_of_isLenientWithin (lenient p mem)
  have makes (m : Node) : (B.entry slot).Makes m.content ↔ m.isStep = true := by
    rw [Entry.Makes, localKey, indexKey, ← Node.exists_stepKey_iff_isStep, and_iff_left ⟨none, rfl⟩]
    show (∃ key, (stepKey m.content).map some = .ok key) ↔ _
    cases stepKey m.content <;> simp [Except.map]
  cases n with
  | scalar => exact iff_of_true (.scalar (Entry.makes_of_isTotal total _)) rfl
  | sequence tag items start stop =>
    have isEntry : B.innerEntry e = B.entry slot := by rw [innerEntry, shape]
    rw [Node.hasScalarKeys_sequence] at keys
    have each : ∀ item ∈ items, (B.Admits (B.innerEntry e) item ↔ item.isStep = true) := fun item mem => by
      rw [isEntry, parts.admits_iff (keys item mem), makes]
    rw [Node.holdsSteps, List.all_eq_true, ← forall₂_congr each]
    constructor
    · intro admitted
      cases admitted with
      | sequence _ members => exact members
    · exact .sequence (Entry.makes_of_isTotal total _)
  | mapping tag pairs start stop =>
    -- the keys are read with the entry for a step, and the values with its fields
    have isEntry (key : String) : B.keyEntry e.shape.members key = B.entry slot := by
      rw [keyEntry, shape, Shape.members]
      cases any : key == anyName <;> simp [List.lookup_cons, any]
    have isEmpty (key : String) : (B.entry slot).Makes (.text key) ↔ key.isEmpty = true :=
      makes (.scalar "" key default default)
    rw [Node.hasScalarKeys_mapping] at keys
    rw [Node.holdsSteps, List.all_eq_true]
    constructor
    · intro admitted
      cases admitted with
      | mapping _ _ made _ =>
        intro p mem
        have made := made p mem
        rw [isEntry, isEmpty] at made
        exact made
    · intro empty
      refine .mapping (Entry.makes_of_isTotal total _) (fun p mem => (keys p mem).1) (fun p mem => ?_) fun p mem => ?_
      · rw [isEntry, isEmpty]
        exact empty p mem
      · rw [isEntry]
        exact parts.innerEntry.admits (keys p mem).2

end Schema

/-! ### The schema of resources -/

namespace ResourceSchema

/-- The search finds that workflows are refused for their steps only, functions with resources for the name of a
template only, and manifests of other kinds never. -/
def searchesDemands (R : ResourceSchema) (depth : Nat) : Bool :=
  let B := R.schema
  let found (kind : String) (path : List String) : Option Entry :=
    (R.kinds.lookup kind).bind fun slot => B.demandAt? depth (B.entry slot) path
  (found "Workflow" ["spec", "steps"]).any (B.readsSteps depth) &&
    (found "ResourceFunction" ["spec", "resourceTemplateRef", "name"]).any Schema.readsTexts &&
    R.kinds.all fun p => (B.entry p.2).isTotal &&
      (p.1 == "Workflow" || p.1 == "ResourceFunction" || B.isLenientWithin depth (B.entry p.2))

/-- A manifest can be read with the entry of its kind exactly if it suits its kind. -/
private theorem admits_iff_suits {R : ResourceSchema} {depth : Nat} (h : R.searchesDemands depth = true) {other : Slot}
    (any : R.kinds.lookup anyName = some other) {kind : Option Value} {slot : Slot} {root : Node}
    (chosen : kindSlot R.kinds kind = .ok slot) (keys : root.hasScalarKeys = true) :
    R.schema.Admits (R.schema.entry slot) root ↔ root.Suits kind := by
  simp only [searchesDemands, Bool.and_eq_true, Option.any_eq_true, Option.bind_eq_some_iff, List.all_eq_true,
    Bool.or_eq_true, beq_iff_eq] at h
  obtain ⟨⟨⟨steps, ⟨workflow, isWorkflow, stepsAt⟩, readsSteps⟩, name, ⟨function, isFunction, nameAt⟩, readsTexts⟩,
    others⟩ := h
  have lenient {name : String} {slot : Slot} (found : R.kinds.lookup name = some slot) (notWorkflow : name ≠ "Workflow")
      (notFunction : name ≠ "ResourceFunction") : R.schema.Admits (R.schema.entry slot) root := by
    rcases (others _ (mem_of_lookup found)).2 with (isKind | isKind) | lenient
    · exact absurd isKind notWorkflow
    · exact absurd isKind notFunction
    · exact (Schema.lenient_of_isLenientWithin lenient).admits keys
  rcases kindSlot_eq_ok any chosen with ⟨kind, rfl, found⟩ | ⟨rfl, unlisted⟩
  · by_cases hasSteps : kind = "Workflow"
    · subst hasSteps
      cases isWorkflow.symm.trans found
      rw [Schema.admits_iff_of_demandAt? stepsAt keys (Schema.admits_iff_of_readsSteps readsSteps), Node.Suits,
        and_iff_left (by simp), forall_prop_of_true rfl]
    by_cases hasTemplate : kind = "ResourceFunction"
    · subst hasTemplate
      cases isFunction.symm.trans found
      rw [Schema.admits_iff_of_demandAt? nameAt keys (Schema.admits_iff_of_readsTexts readsTexts), Node.Suits,
        and_iff_right (by simp), forall_prop_of_true rfl]
    · refine iff_of_true (lenient found hasSteps hasTemplate) ⟨?_, ?_⟩
      · rintro ⟨⟩
        exact absurd rfl hasSteps
      · rintro ⟨⟩
        exact absurd rfl hasTemplate
  -- a kind that is not listed is neither of the two
  · refine iff_of_true (lenient any (by decide) (by decide)) ⟨?_, ?_⟩
    · intro isKind
      cases isWorkflow.symm.trans (unlisted _ isKind)
    · intro isKind
      cases isFunction.symm.trans (unlisted _ isKind)

/-- A root has outlines exactly if all keys in it are scalars and it suits its kind. -/
private theorem succeeds_iff_suits {R : ResourceSchema} {depth : Nat} (h : R.searchesDemands depth = true)
    {other : Slot} (any : R.kinds.lookup anyName = some other) (sound : R.Sound) {page : Page} {root : Node}
    (carried : page.Carries root) {kind : Option Value} {slot : Slot} (chosen : kindSlot R.kinds kind = .ok slot)
    {S : Schema} (grown : R.schema.Grows S) (last : Position) :
    (page.root slot last root).Succeeds S ↔ root.hasScalarKeys = true ∧ root.Suits kind := by
  have lt := sound.kindSlot_lt chosen
  have holds := Schema.Holds.of_grows grown lt
  have total : (R.schema.entry slot).isTotal = true := by
    rw [searchesDemands, Bool.and_eq_true, List.all_eq_true] at h
    have listed (name : String) (found : R.kinds.lookup name = some slot) :=
      (Bool.and_eq_true_iff.1 (h.2 _ (mem_of_lookup found))).1
    rcases kindSlot_eq_ok any chosen with ⟨name, _, found⟩ | ⟨rfl, _⟩
    · exact listed name found
    · exact listed anyName any
  have makes := (holds.makes root.content).2 (Entry.makes_of_isTotal total _)
  rw [Page.succeeds_root_iff makes, carried.succeeds_iff sound.entry (sound.entry slot lt) grown holds]
  constructor
  · intro admitted
    exact ⟨admitted.hasScalarKeys, (admits_iff_suits h any chosen admitted.hasScalarKeys).1 admitted⟩
  · rintro ⟨keys, suits⟩
    exact (admits_iff_suits h any chosen keys).2 suits

set_option maxRecDepth 10000 in
private theorem searchesDemands_initial : initial.searchesDemands 12 = true := by
  decide +kernel

end ResourceSchema

/-! ### Roots of documents -/

namespace Yaml

/-- The root of a document of the text that does not contain itself, before or after merge keys are replaced. -/
def IsRootOf (text : List Char) (root : Node) : Prop :=
  ∃ document ∈ (DocumentStream.ofText text).documents, document.circular = false ∧
    (root = document.root ∨ ∃ value, valueOf text document.root = .ok (root, value))

private theorem Mark.Within.line_le {lines : List (List Char)} {m : Mark} (h : m.Within lines) :
    m.line ≤ lines.length := by
  by_contra beyond
  obtain ⟨text, found, _⟩ := h.ended lines.length (Nat.lt_of_not_le beyond)
  rw [List.getElem?_eq_none (Nat.le_refl _)] at found
  cases found

/-- The lines of a scalar are lines of the text. -/
private theorem IsRootOf.lines {text : List Char} {root : Node} (h : IsRootOf text root) :
    ∀ s ∈ root.scalars, s.start.line ≤ s.stop.line ∧ s.stop.line ≤ (Text.keptLines text).length := by
  obtain ⟨document, isDocument, -, isRoot⟩ := h
  obtain ⟨allowed, written⟩ := DocumentStream.written_of_mem_ofText isDocument
  obtain ⟨_, adds⟩ := (DocumentStream.stands_of_mem_ofText isDocument).adds
  have ordered : ∀ x ∈ document.root.extents, x.start ≤ x.stop := fun x mem =>
    ((adds.within x mem).resolve_left List.not_mem_nil).2.1
  have every := written.and_extents (P := (· ≤ ·)) ordered
  have expanded : root.Every (fun text' start stop =>
      HasOrigin (TokenStream.ofText text).tokens text' start stop ∧ start ≤ stop) fun _ _ => True := by
    rcases isRoot with rfl | ⟨value, valued⟩
    · exact every
    · obtain ⟨_, _, made⟩ := except_bind_eq_ok_iff.1 valued
      cases made
      exact every.expand _
  intro s mem
  obtain ⟨hasOrigin, le⟩ := expanded.scalars s mem
  rw [Mark.le_def] at le
  exact ⟨by omega, (hasOrigin.within allowed).2.line_le⟩

/-- What holds of all scalars in reading order holds of all scalars in the node. -/
theorem Node.every_of_scalars {leaf : String → Mark → Mark → Prop} {n : Node}
    (all : ∀ s ∈ n.scalars, leaf s.text s.start s.stop) : n.Every leaf fun _ _ => True := by
  induction n using Node.induction with
  | scalar tag text start stop => exact .scalar (all _ (List.mem_singleton.2 rfl))
  | sequence tag items start stop ih =>
    have parts := forall_itemScalars_iff.1 all
    exact .sequence trivial fun item mem => ih item mem (parts item mem)
  | mapping tag pairs start stop ih =>
    have parts := forall_pairScalars_iff.1 all
    exact .mapping trivial (fun p mem => (ih p mem).1 (parts p mem).1) fun p mem => (ih p mem).2 (parts p mem).2

end Yaml

private def sketched : String := "spec:\n  steps:\n  - {}\n  - label: &a b\n    inputs: [*a]\n"

private def listed : String := "spec:\n  resourceTemplateRef:\n    name: [a]\n"

end ManifestLens
