import ManifestLens.Proofs.Editor.Mending
import ManifestLens.Proofs.Outline.Queries

/-!
# What comes of offers

A lens is offered for a test without regard to what there is to put in: the command may find no value to replace, none
to replace it with, or inputs that cannot be mended.  In all other cases it gives an edit
(`Lens.changes_iff_fills`).
-/

namespace ManifestLens

open Inputs (Mismatch)

variable {named : List (String × Mismatch)} {inputs new : Value}

/-! ### Keys that are set and erased -/

namespace Entries

private theorem has_insert (entries : Entries) (name other : String) (value : Value) :
    (entries.insert (.str name) value).has (.str other) = (name == other || entries.has (.str other)) := by
  induction entries with
  | nil => simp [insert, has, Value.equals]
  | cons e rest ih =>
    obtain ⟨key, own⟩ := e
    rw [insert]
    split
    · next same =>
      rw [Value.equals_str_iff] at same
      subst same
      simp [has, Value.equals]
    · simp only [has, List.any_cons] at ih ⊢
      rw [ih]
      exact Bool.or_left_comm ..

private theorem has_erase (entries : Entries) (name other : String) :
    (entries.erase (.str name)).has (.str other) = (name != other && entries.has (.str other)) := by
  rw [has, erase, List.any_filter, Bool.eq_iff_iff, Bool.and_eq_true, has, List.any_eq_true, List.any_eq_true]
  simp only [Bool.and_eq_true, Bool.not_eq_true', Value.equals_str_iff, bne_iff_ne]
  constructor
  · rintro ⟨e, mem, kept, same⟩
    rw [same] at kept
    refine ⟨?_, e, mem, same⟩
    rintro rfl
    simp [Value.equals] at kept
  · rintro ⟨ne, e, mem, same⟩
    refine ⟨e, mem, ?_, same⟩
    rw [same]
    simpa [Value.equals] using Ne.symm ne

end Entries

namespace EditReport

/-! ### Inputs that can be mended -/

/-- Whether there is an input of a name after mismatches were mended: that is as the last of them that is about it
wants it, and otherwise as it was. -/
def thereAfter (name : String) (there : Bool) (mended : List (String × Mismatch)) : Bool :=
  mended.foldl (fun there p => if p.1 = name ∧ p.2.actual ≠ p.2.expected then p.2.expected else there) there

/-- Each input that is to be dropped is there when its turn comes. -/
def Droppable (entries : Entries) (named : List (String × Mismatch)) : Prop :=
  ∀ before name m after, named = before ++ (name, m) :: after → m.actual = true → m.expected = false →
    thereAfter name (entries.has (.str name)) before = true

private theorem droppable_cons_iff {entries : Entries} {name : String} {m : Mismatch}
    {rest : List (String × Mismatch)} :
    Droppable entries ((name, m) :: rest) ↔
      (m.actual = true → m.expected = false → entries.has (.str name) = true) ∧
        ∀ before other n after, rest = before ++ (other, n) :: after → n.actual = true → n.expected = false →
          thereAfter other (thereAfter other (entries.has (.str other)) [(name, m)]) before = true := by
  constructor
  · intro h
    refine ⟨h [] name m rest rfl, fun before other n after split => ?_⟩
    exact h ((name, m) :: before) other n after (by rw [split, List.cons_append])
  · rintro ⟨first, later⟩ before other n after split
    cases before with
    | nil =>
      cases split
      exact first
    | cons p before =>
      cases split
      exact later before other n after rfl

/-- A mismatch is mended in a mapping unless it is to drop what is not there, and then all names are there that are to
be. -/
private theorem mend_map_cases (entries : Entries) (name : String) (m : Mismatch) :
    (∃ new : Entries, mend (.map entries) name m = .ok (.map new) ∧
        ∀ other, new.has (.str other) = thereAfter other (entries.has (.str other)) [(name, m)]) ∧
      (m.actual = true → m.expected = false → entries.has (.str name) = true) ∨
    (∃ fault, mend (.map entries) name m = .error fault) ∧ m.actual = true ∧ m.expected = false ∧
      entries.has (.str name) = false := by
  rw [mend]
  cases actual : m.actual <;> cases expected : m.expected
  · exact .inl ⟨⟨entries, rfl, fun other => by simp [thereAfter, actual, expected]⟩, by simp⟩
  · refine .inl ⟨⟨entries.insert (.str name) (.str "TODO"), rfl, fun other => ?_⟩, by simp⟩
    rw [Entries.has_insert]
    by_cases same : name = other <;> simp [thereAfter, actual, expected, same]
  · cases there : entries.has (.str name) with
    | false => exact .inr ⟨⟨.noEntry, rfl⟩, rfl, rfl, rfl⟩
    | true =>
      refine .inl ⟨⟨entries.erase (.str name), rfl, fun other => ?_⟩, by simp⟩
      rw [Entries.has_erase]
      by_cases same : name = other <;> simp [thereAfter, actual, expected, same]
  · exact .inl ⟨⟨entries, rfl, fun other => by simp [thereAfter, actual, expected]⟩, by simp⟩

/-- All mismatches can be mended in a mapping exactly if each input that is to be dropped is there. -/
private theorem mendAll_map_iff {entries : Entries} :
    (∃ new, mendAll (.map entries) named = .ok new) ↔ Droppable entries named := by
  induction named generalizing entries with
  | nil =>
    refine iff_of_true ⟨_, rfl⟩ ?_
    rintro (_ | _) _ _ _ ⟨⟩
  | cons p rest ih =>
    obtain ⟨name, m⟩ := p
    rw [droppable_cons_iff, mendAll]
    rcases mend_map_cases entries name m with
      ⟨⟨new, mended, names⟩, dropped⟩ | ⟨⟨fault, failed⟩, actual, expected, absent⟩
    · rw [mended]
      refine ih.trans ⟨fun h => ⟨dropped, fun before other n after => ?_⟩, fun h before other n after => ?_⟩
      · rw [← names]
        exact h before other n after
      · rw [names]
        exact h.2 before other n after
    · rw [failed]
      refine iff_of_false ?_ fun h => ?_
      · rintro ⟨_, ⟨⟩⟩
      · rw [h.1 actual expected] at absent
        cases absent

/-- Mismatches can be mended in inputs: nothing is to be done, or the inputs are a mapping and what is to be dropped is
there. -/
def Mendable (inputs : Value) (named : List (String × Mismatch)) : Prop :=
  (∀ p ∈ named, p.2.actual = p.2.expected) ∨ ∃ entries, inputs = .map entries ∧ Droppable entries named

private theorem mendAll_of_agree (agree : ∀ p ∈ named, p.2.actual = p.2.expected) :
    mendAll inputs named = .ok inputs := by
  induction named with
  | nil => rfl
  | cons p rest ih =>
    obtain ⟨name, m⟩ := p
    obtain ⟨first, others⟩ := List.forall_mem_cons.1 agree
    have kept : mend inputs name m = .ok inputs := by
      unfold mend
      exact if_pos (by simpa using first)
    rw [mendAll, kept]
    exact ih others

private theorem agree_of_mendAll (noMap : ∀ entries, inputs ≠ .map entries) (h : mendAll inputs named = .ok new) :
    ∀ p ∈ named, p.2.actual = p.2.expected := by
  induction named with
  | nil => exact List.forall_mem_nil _
  | cons p rest ih =>
    obtain ⟨name, m⟩ := p
    obtain ⟨between, mended, h⟩ := except_bind_eq_ok_iff.1 h
    unfold mend at mended
    split at mended
    · next same =>
      cases mended
      exact List.forall_mem_cons.2 ⟨by simpa using same, ih h⟩
    · split at mended
      · next entries => exact absurd rfl (noMap entries)
      · cases mended

private theorem mendAll_iff : (∃ new, mendAll inputs named = .ok new) ↔ Mendable inputs named := by
  constructor
  · rintro ⟨new, h⟩
    by_cases isMap : ∃ entries, inputs = .map entries
    · obtain ⟨entries, rfl⟩ := isMap
      exact .inr ⟨entries, rfl, mendAll_map_iff.1 ⟨new, h⟩⟩
    · exact .inl (agree_of_mendAll (fun entries same => isMap ⟨entries, same⟩) h)
  · rintro (agree | ⟨entries, rfl, dropped⟩)
    · exact ⟨inputs, mendAll_of_agree agree⟩
    · exact mendAll_map_iff.2 dropped

private theorem mendedInputs_isOk_iff {mismatches : List Mismatch} {entry : CacheEntry} :
    (∃ new, mendedInputs mismatches entry = .ok new) ↔
      ∃ inputs, entry.spec.lookup "inputs" = .ok inputs ∧
        (inputs.truthy = true → Mendable inputs (namesRead mismatches)) := by
  rw [mendedInputs]
  cases looked : entry.spec.lookup "inputs" with
  | error fault =>
    refine iff_of_false ?_ ?_
    · rintro ⟨_, ⟨⟩⟩
    · rintro ⟨_, ⟨⟩, _⟩
  | ok inputs =>
    have form : (∃ value, Except.ok (ε := Fault) inputs = .ok value ∧
          (value.truthy = true → Mendable value (namesRead mismatches))) ↔
        (inputs.truthy = true → Mendable inputs (namesRead mismatches)) := by simp
    rw [form]
    cases full : inputs.truthy with
    | true =>
      simp only [true_imp_iff, ← mendAll_iff]
      refine exists_congr fun new => ?_
      show (if inputs.truthy then _ else _) = _ ↔ _
      rw [full, if_pos rfl]
      rfl
    | false =>
      refine iff_of_true ⟨.map (Entries.ofList (((namesRead mismatches).filter (·.2.expected)).map fun p =>
        (.str p.1, placeholder))), ?_⟩ (fun h => by cases h)
      show (if inputs.truthy then _ else _) = _
      rw [full]
      rfl

end EditReport

/-- There is something that a command can put in the place of a value: for the inputs, those of the cached test, if the
mismatches can be mended in them; otherwise what the test gave, without which the current resource is not offered. -/
def LensCommand.Fills (r : TestResult) (entry : CacheEntry) : LensCommand → Prop
  | .inputs => ∃ inputs, entry.spec.lookup "inputs" = .ok inputs ∧
      (inputs.truthy = true → EditReport.Mendable inputs (EditReport.namesRead (r.mismatches.getD [])))
  | .currentResource => True
  | .expectedResource => r.actualResource ≠ none
  | .expectedReturn => r.actualReturn ≠ none

namespace EditReport

/-! ### Replaced values -/

/-- Something is edited. -/
def Changes (report : EditReport) : Prop :=
  ∃ edits, report.edits = some edits ∧ edits ≠ []

private theorem not_changes_note (message : String) : ¬(note message).Changes := by
  rintro ⟨_, ⟨⟩, _⟩

private theorem not_changes_default : ¬Changes {} := by
  rintro ⟨_, ⟨⟩, _⟩

section

variable {cache : Cache} {test : String} {entry : CacheEntry} {source : Provenance} {anchor : Anchor} {label : Outline}
  {c : LensCommand}

/-- The value below the one label of a cached test is edited exactly if there is one value and something to put in its
place. -/
private theorem replaceBelow_changes_iff (cached : cache.get? "FunctionTest" test = some entry)
    (there : entry.resource.isThere = true) (isSource : entry.source? = some source)
    (isAnchor : source.anchor? = some anchor) (labelled : Outline.search c.labelKey anchor.parts = [label])
    (width : Nat)
    (new : CacheEntry → Except Fault Value) :
    (∃ report, replaceBelow cache test c width new = .ok report ∧ report.Changes) ↔
      label.timesBelow c.valueKey = 1 ∧ ∃ value, new entry = .ok value := by
  have filled : c.valueKey ≠ "" := by cases c <;> decide
  have isLabel : Outline.find anchor.absolute c.labelKey anchor.parts = .part label := by
    rw [Outline.find, labelled]
  rw [← Outline.length_search_parts filled, replaceBelow, cached, Option.bind_some, if_pos there, isSource]
  dsimp only [Option.map_some]
  rw [isAnchor]
  dsimp only
  rw [isLabel]
  dsimp only
  obtain ⟨none, one, several⟩ := @Outline.find_of_length_search anchor.absolute c.valueKey label.parts
  rcases Nat.lt_trichotomy (Outline.search c.valueKey label.parts).length 1 with less | same | more
  · rw [none (by omega)]
    refine iff_of_false ?_ fun h => by omega
    rintro ⟨_, ⟨⟩, changes⟩
    exact not_changes_default changes
  · obtain ⟨value, -, found⟩ := one same
    rw [found]
    refine Iff.trans ?_ (and_iff_right same).symm
    constructor
    · rintro ⟨report, made, -⟩
      obtain ⟨v, isNew, -⟩ := except_bind_eq_ok_iff.1 made
      exact ⟨v, isNew⟩
    · rintro ⟨v, isNew⟩
      have made : ∃ edit, (do
          let edit := TextEdit.replacing anchor.absolute label value width (← new entry)
          return { edits := some [edit], logs := some [] }) = Except.ok (ε := Fault)
            ({ edits := some [edit], logs := some [] } : EditReport) := by
        exact ⟨TextEdit.replacing anchor.absolute label value width v, except_bind_eq_ok_iff.2 ⟨v, isNew, rfl⟩⟩
      obtain ⟨edit, made⟩ := made
      exact ⟨_, made, [edit], rfl, List.cons_ne_nil _ _⟩
  · rw [several more]
    refine iff_of_false ?_ fun h => by omega
    rintro ⟨_, ⟨⟩, changes⟩
    exact not_changes_default changes

/-- A command that applies to the result of a cached test edits exactly if its one label has one value below it and
there is something to put in its place. -/
private theorem ofCommand_changes_iff {r : TestResult} (cached : cache.get? "FunctionTest" test = some entry)
    (there : entry.resource.isThere = true) (isSource : entry.source? = some source)
    (isAnchor : source.anchor? = some anchor) (labelled : Outline.search c.labelKey anchor.parts = [label])
    (applies : c.applies r = true) :
    (∃ report, ofCommand cache c test r = .ok report ∧ report.Changes) ↔
      label.timesBelow c.valueKey = 1 ∧ c.Fills r entry := by
  have replaced := replaceBelow_changes_iff cached there isSource isAnchor labelled
  -- three of the commands put in a value that they are given, if there is one
  have given (value : Option Value) (noted : value = none →
        ofCommand cache c test r = .ok (note s!"FunctionTest ({test}) can not auto-complete {c.labelKey}"))
      (put : ∀ v, value = some v → ofCommand cache c test r = replaceBelow cache test c 10000 fun _ => .ok v) :
      (∃ report, ofCommand cache c test r = .ok report ∧ report.Changes) ↔
        label.timesBelow c.valueKey = 1 ∧ value ≠ none := by
    cases value with
    | none =>
      rw [noted rfl]
      refine iff_of_false ?_ fun h => h.2 rfl
      rintro ⟨_, ⟨⟩, changes⟩
      exact not_changes_note _ changes
    | some v =>
      rw [put v rfl]
      exact (replaced 10000 fun _ => .ok v).trans (and_congr_right fun _ => by simp)
  cases c with
  | inputs =>
    rw [ofCommand, applies]
    exact (replaced 80 _).trans (and_congr_right fun _ => mendedInputs_isOk_iff)
  | currentResource =>
    have actual : r.actualResource ≠ none := by
      intro none
      rw [LensCommand.applies, none] at applies
      cases applies
    refine (given r.actualResource (fun none => absurd none actual) fun v isValue => ?_).trans
      (and_congr_right fun _ => iff_of_true actual trivial)
    rw [ofCommand, applies, isValue]
    rfl
  | expectedResource =>
    refine given r.actualResource (fun none => ?_) fun v isValue => ?_
    · rw [ofCommand, applies, none]
      rfl
    · rw [ofCommand, applies, isValue]
      rfl
  | expectedReturn =>
    refine given r.actualReturn (fun none => ?_) fun v isValue => ?_
    · rw [ofCommand, applies, none]
      rfl
    · rw [ofCommand, applies, isValue]
      rfl

end

end EditReport

/-! ### Offered lenses -/

namespace Lens

variable {cache : Cache} {uri test : String} {target : Target} {r : TestResult} {lens : Lens}

/-- A failed test of a file is cached with its anchor. -/
private theorem failedIn?_eq_some {anchor : Anchor} (h : failedIn? cache uri test r = some anchor) :
    ∃ entry source, cache.get? "FunctionTest" test = some entry ∧ entry.resource.isThere = true ∧
      entry.source? = some source ∧ source.anchor? = some anchor := by
  unfold failedIn? at h
  split at h
  · cases h
  · obtain ⟨entry, cached, h⟩ := Option.bind_eq_some_iff.1 h
    split at h
    · cases h
    · next there =>
      obtain ⟨source, isSource, h⟩ := Option.bind_eq_some_iff.1 h
      split at h
      · exact ⟨entry, source, cached, by simpa using there, isSource, h⟩
      · cases h

private theorem mem_ofCommand {anchor : Anchor} {c : LensCommand} (h : lens ∈ (ofCommand target test anchor c).1) :
    lens.command = c ∧ lens.test = test ∧ ∃ label, Outline.search c.labelKey anchor.parts = [label] := by
  obtain ⟨none, one, several⟩ := @Outline.find_of_length_search anchor.absolute c.labelKey anchor.parts
  rw [ofCommand] at h
  rcases Nat.lt_trichotomy (Outline.search c.labelKey anchor.parts).length 1 with less | same | more
  · rw [none (by omega)] at h
    cases h
  · obtain ⟨label, labelled, found⟩ := one same
    rw [found] at h
    cases List.mem_singleton.1 h
    exact ⟨rfl, rfl, label, labelled⟩
  · rw [several more] at h
    cases h

/-- A lens is offered above the one label of its command in a failed test. -/
private theorem mem_ofResult (h : lens ∈ (ofResult cache uri target test r).1) :
    lens.test = test ∧ lens.command.isOffered r = true ∧ ∃ anchor label, failedIn? cache uri test r = some anchor ∧
      Outline.search lens.command.labelKey anchor.parts = [label] := by
  rw [ofResult] at h
  cases failed : failedIn? cache uri test r with
  | none =>
    rw [failed] at h
    cases h
  | some anchor =>
    rw [failed] at h
    obtain ⟨_, mem, h⟩ := List.mem_flatMap.1 h
    obtain ⟨c, offered, rfl⟩ := List.mem_map.1 mem
    obtain ⟨rfl, rfl, label, labelled⟩ := mem_ofCommand h
    exact ⟨rfl, (List.mem_filter.1 offered).2, anchor, label, rfl, labelled⟩

private theorem mem_ofResults {results : TestResults} {lenses : List Lens} {logs : List Log}
    (offered : ofResults cache uri target results = some (lenses, logs)) (mem : lens ∈ lenses) :
    ∃ r, (lens.test, r) ∈ results ∧ lens ∈ (ofResult cache uri target lens.test r).1 := by
  rw [ofResults] at offered
  split at offered
  · cases offered
  · cases offered
    obtain ⟨_, found, mem⟩ := List.mem_flatMap.1 mem
    obtain ⟨⟨test, r⟩, isResult, rfl⟩ := List.mem_map.1 found
    obtain ⟨rfl, _⟩ := mem_ofResult mem
    exact ⟨r, isResult, mem⟩

/-- The command of a lens that is offered edits exactly if the label has one value below it and there is something to
put in its place. -/
theorem changes_iff_fills {results : TestResults} {lenses : List Lens} {logs : List Log}
    (once : (results.map Prod.fst).Nodup) (offered : ofResults cache uri target results = some (lenses, logs))
    (mem : lens ∈ lenses) (isResult : (lens.test, r) ∈ results) :
    ∃ entry anchor label, cache.get? "FunctionTest" lens.test = some entry ∧
      failedIn? cache uri lens.test r = some anchor ∧ Outline.search lens.command.labelKey anchor.parts = [label] ∧
      ((∃ report, EditReport.ofCommand cache lens.command lens.test r = .ok report ∧ report.Changes) ↔
        label.timesBelow lens.command.valueKey = 1 ∧ lens.command.Fills r entry) := by
  obtain ⟨r', isResult', mem⟩ := mem_ofResults offered mem
  obtain rfl : r' = r := congrArg Prod.snd (List.inj_on_of_nodup_map once isResult' isResult rfl)
  obtain ⟨-, isOffered, anchor, label, failed, labelled⟩ := mem_ofResult mem
  obtain ⟨entry, source, cached, there, isSource, isAnchor⟩ := failedIn?_eq_some failed
  refine ⟨entry, anchor, label, cached, failed, labelled, ?_⟩
  have applies : lens.command.applies r' = true := (Bool.and_eq_true_iff.1 isOffered).1
  exact EditReport.ofCommand_changes_iff cached there isSource isAnchor labelled applies

/-! ### A test without a value -/

/-- The outline of a test with labels for its inputs and for the resource that it expects, each with a value. -/
private def labelledTest : Anchor :=
  let key (line : Int) (name : String) : Token := ⟨⟨0, 0⟩, ⟨line, 2⟩, 6, some name, none, .keyword, none, none⟩
  ⟨some "FunctionTest:t", ⟨0, 0⟩, ⟨0, 0⟩, some [
    .token (key 1 "inputs") (some [.block (some "input-values") none ⟨⟨2, 4⟩, ⟨4, 0⟩⟩ none]),
    .token (key 4 "expected_resource") (some [.block (some "expected_value") none ⟨⟨5, 4⟩, ⟨6, 0⟩⟩ none])]⟩

private def twoInputs : Entries :=
  [(.str "size", .int 5), (.str "color", .str "red")]

/-- The test has two inputs. -/
private def cachedTest : CacheEntry :=
  ⟨.other, .map [(.str "inputs", .map twoInputs)], some (.ofFile "a.yaml" labelledTest)⟩

private def withTest : Cache :=
  [(⟨"FunctionTest", .str "t"⟩, cachedTest)]

private theorem get?_withTest : withTest.get? "FunctionTest" "t" = some cachedTest := by
  simp [withTest, Cache.get?, ResourceKey.matches, Value.equals]

/-- One of the inputs is not expected, and the test gave no resource to compare. -/
private def noResource : TestResult :=
  { success := false, mismatches := some [⟨"inputs.color", .warning, false, true⟩], missingAssertion := true }

private def offers : List Lens :=
  [⟨⟨⟨1, 2⟩, ⟨1, 8⟩⟩, .inputs, "a.yaml", none, "t"⟩, ⟨⟨⟨4, 2⟩, ⟨4, 8⟩⟩, .expectedResource, "a.yaml", none, "t"⟩]

private theorem ofResults_noResource :
    ofResults withTest "a.yaml" ⟨"a.yaml", none⟩ [("t", noResource)] = some (offers, []) := by
  decide +kernel

/-- The inputs can be mended, so the lens above them edits. -/
theorem changes_iff_fills_noResource :
    ofResults withTest "a.yaml" ⟨"a.yaml", none⟩ [("t", noResource)] = some (offers, []) ∧
      ⟨⟨⟨1, 2⟩, ⟨1, 8⟩⟩, .inputs, "a.yaml", none, "t"⟩ ∈ offers ∧
      ∃ report, EditReport.ofCommand withTest .inputs "t" noResource = .ok report ∧ report.Changes := by
  have mem : ⟨⟨⟨1, 2⟩, ⟨1, 8⟩⟩, .inputs, "a.yaml", none, "t"⟩ ∈ offers := List.mem_cons_self
  have once : (([("t", noResource)] : TestResults).map Prod.fst).Nodup := List.nodup_singleton "t"
  obtain ⟨entry, anchor, label, cached, failed, labelled, changes⟩ :=
    changes_iff_fills once ofResults_noResource mem List.mem_cons_self
  cases cached.symm.trans get?_withTest
  refine ⟨ofResults_noResource, mem, changes.2 ⟨?_, .map twoInputs, ?_, fun _ => .inr ⟨twoInputs, rfl, ?_⟩⟩⟩
  · have isAnchor : failedIn? withTest "a.yaml" "t" noResource = some labelledTest := by
      rw [failedIn?, get?_withTest]
      rfl
    cases failed.symm.trans isAnchor
    cases labelled
    decide
  · simp [cachedTest, Value.lookup, Value.lookup?, Entries.get?, Entries.find?, Value.equals, Except.map]
  · have named : EditReport.namesRead (noResource.mismatches.getD []) =
        [("color", ⟨"inputs.color", .warning, false, true⟩)] := by
      decide +kernel
    rw [named]
    refine EditReport.droppable_cons_iff.2 ⟨fun _ _ => by decide +kernel, ?_⟩
    intro before other n after split
    cases before <;> cases split

/-- The lens above the expected resource is offered though there is no resource to put there. -/
theorem offered_without_resource :
    ofResults withTest "a.yaml" ⟨"a.yaml", none⟩ [("t", noResource)] = some (offers, []) ∧
      ⟨⟨⟨4, 2⟩, ⟨4, 8⟩⟩, .expectedResource, "a.yaml", none, "t"⟩ ∈ offers ∧
      EditReport.ofCommand withTest .expectedResource "t" noResource =
        .ok { edits := none, logs := some [⟨.debug, "FunctionTest (t) can not auto-complete expected_resource"⟩] } :=
  ⟨ofResults_noResource, by decide, rfl⟩

end Lens

end ManifestLens
