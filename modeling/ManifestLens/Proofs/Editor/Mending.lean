import ManifestLens.Editor.Edit
import ManifestLens.Proofs.Inputs.Marking
import ManifestLens.Proofs.Inputs.Mismatches
import ManifestLens.Proofs.Manifest.Run

/-!
# Mended inputs

The inputs of a test are mended by the mismatches that are reported on them, one after the other, in whatever order they
are reported.  A mismatch is mended by the name that is read back from its key, and that is the name of the input only
if there is no point in it.  So the mended inputs have no mismatches exactly if each input that nothing expects has a
name that an expression could read (`EditReport.mendedInputs_iff`); then the inputs that were expected are kept and
those that were missing are to be done.
-/

namespace ManifestLens

open Inputs (Mismatch IsName firstTier mismatches)

variable {entry : CacheEntry} {name : String} {inputs : List (String × Value)} {m : Mismatch}
  {named : List (String × Mismatch)}

namespace EditReport

open Entries (ofNames)

/-- What is put for an input that is missing. -/
def placeholder : Value :=
  .str "TODO"

/-! ### One mismatch -/

/-- Whatever is mended, all names but one stay. -/
private theorem mend_ofNames {mended : Value} (h : mend (.map (ofNames inputs)) name m = .ok mended) :
    ∃ new, mended = .map (ofNames new) ∧
      ∀ other, other ≠ name → other ∈ inputs.map Prod.fst → other ∈ new.map Prod.fst := by
  rw [mend] at h
  split at h
  · cases h
    exact ⟨inputs, rfl, fun _ _ mem => mem⟩
  · split at h
    · cases h
      obtain ⟨new, set, names, _⟩ := Entries.insert_ofNames inputs name placeholder
      exact ⟨new, congrArg Value.map set, fun other _ mem => (names other).2 (.inr mem)⟩
    · split at h
      · cases h
        refine ⟨_, congrArg Value.map (Entries.erase_ofNames inputs name), ?_⟩
        intro other ne mem
        obtain ⟨p, own, rfl⟩ := List.mem_map.1 mem
        exact List.mem_map_of_mem (List.mem_filter.2 ⟨own, by simpa using ne⟩)
      · cases h

private theorem mend_missing (absent : name ∉ inputs.map Prod.fst) :
    mend (.map (ofNames inputs)) name (.missing name) = .ok (.map (ofNames (inputs ++ [(name, placeholder)]))) := by
  obtain ⟨new, set, _, last⟩ := Entries.insert_ofNames inputs name placeholder
  rw [← last absent, ← set]
  rfl

private theorem mend_unexpected (there : name ∈ inputs.map Prod.fst) :
    mend (.map (ofNames inputs)) name (.unexpected name) = .ok (.map (ofNames (inputs.filter (·.1 ≠ name)))) := by
  rw [← Entries.erase_ofNames]
  show (if (ofNames inputs).has (.str name) then _ else _) = _
  rw [if_pos (Entries.has_ofNames_iff.2 there)]

/-! ### All mismatches -/

/-- A name that no mismatch is mended by stays. -/
private theorem mendAll_ofNames {mended : Value} (h : mendAll (.map (ofNames inputs)) named = .ok mended) :
    ∃ new, mended = .map (ofNames new) ∧
      ∀ other, other ∉ named.map Prod.fst → other ∈ inputs.map Prod.fst → other ∈ new.map Prod.fst := by
  induction named generalizing inputs with
  | nil =>
    cases h
    exact ⟨inputs, rfl, fun _ _ mem => mem⟩
  | cons p rest ih =>
    obtain ⟨name, m⟩ := p
    obtain ⟨first, mend, h⟩ := except_bind_eq_ok_iff.1 h
    obtain ⟨between, rfl, kept⟩ := mend_ofNames mend
    obtain ⟨new, rfl, keptAll⟩ := ih h
    refine ⟨new, rfl, ?_⟩
    intro other absent mem
    rw [List.map_cons, List.mem_cons, not_or] at absent
    exact keptAll other absent.2 (kept other absent.1 mem)

/-- The mismatch is one of the given inputs, and is mended by the name that it is about. -/
def Fits (inputs : List (String × Value)) (p : String × Mismatch) : Prop :=
  p.2 = .missing p.1 ∧ p.1 ∉ inputs.map Prod.fst ∨ p.2 = .unexpected p.1 ∧ p.1 ∈ inputs.map Prod.fst

private theorem Fits.append {p : String × Mismatch} (h : Fits inputs p) (ne : p.1 ≠ name) (value : Value) :
    Fits (inputs ++ [(name, value)]) p := by
  rw [Fits, List.map_append, List.mem_append]
  rcases h with ⟨missing, absent⟩ | ⟨unexpected, there⟩
  · exact .inl ⟨missing, by simpa [ne] using absent⟩
  · exact .inr ⟨unexpected, .inl there⟩

private theorem Fits.filter {p : String × Mismatch} (h : Fits inputs p) (ne : p.1 ≠ name) :
    Fits (inputs.filter (·.1 ≠ name)) p := by
  rcases h with ⟨missing, absent⟩ | ⟨unexpected, there⟩
  · refine .inl ⟨missing, fun mem => absent ?_⟩
    exact (List.filter_sublist.map Prod.fst).subset mem
  · obtain ⟨q, own, same⟩ := List.mem_map.1 there
    refine .inr ⟨unexpected, List.mem_map.2 ⟨q, List.mem_filter.2 ⟨own, ?_⟩, same⟩⟩
    simpa [same] using ne

/-- Mismatches of inputs with different names are mended one after the other: what is unexpected is dropped, what is
missing is put in. -/
private theorem mendAll_eq_ok (apart : (named.map Prod.fst).Nodup) (keys : (inputs.map Prod.fst).Nodup)
    (fits : ∀ p ∈ named, Fits inputs p) :
    ∃ new, mendAll (.map (ofNames inputs)) named = .ok (.map (ofNames new)) ∧ (new.map Prod.fst).Nodup ∧
      ∀ name value, (name, value) ∈ new ↔
        ((name, value) ∈ inputs ∧ (name, .unexpected name) ∉ named) ∨
          ((name, .missing name) ∈ named ∧ value = placeholder) := by
  induction named generalizing inputs with
  | nil => exact ⟨inputs, rfl, keys, by simp⟩
  | cons p rest ih =>
    obtain ⟨first, m⟩ := p
    obtain ⟨once, others⟩ := List.nodup_cons.1 apart
    obtain ⟨here, later⟩ := List.forall_mem_cons.1 fits
    have ne : ∀ p ∈ rest, p.1 ≠ first := fun p mem same => once (List.mem_map.2 ⟨p, mem, same⟩)
    have absentLater : ∀ m, (first, m) ∉ rest := fun m mem => ne _ mem rfl
    rcases here with ⟨form, absent⟩ | ⟨form, there⟩ <;> dsimp only at form <;> subst form
    · have keys' : ((inputs ++ [(first, placeholder)]).map Prod.fst).Nodup := by
        rw [List.map_append, List.nodup_append]
        refine ⟨keys, List.nodup_singleton first, ?_⟩
        rintro name mem _ last rfl
        exact absent (List.mem_singleton.1 last ▸ mem)
      obtain ⟨new, mended, apart', mem⟩ := ih others keys' fun p own => (later p own).append (ne p own) placeholder
      refine ⟨new, ?_, apart', ?_⟩
      · rw [mendAll, mend_missing absent]
        exact mended
      · intro name value
        rw [mem]
        grind [Mismatch.missing, Mismatch.unexpected]
    · obtain ⟨new, mended, apart', mem⟩ :=
        ih others (keys.sublist (List.filter_sublist.map Prod.fst)) fun p own => (later p own).filter (ne p own)
      refine ⟨new, ?_, apart', ?_⟩
      · rw [mendAll, mend_unexpected there]
        exact mended
      · intro name value
        rw [mem]
        grind [Mismatch.missing, Mismatch.unexpected]

private theorem mendAll_missing (all : ∀ p ∈ named, p.2 = .missing p.1) (entries : Entries) :
    mendAll (.map entries) named =
      .ok (.map ((named.map fun p => (Value.str p.1, placeholder)).foldl
        (fun acc e => Entries.insert acc e.1 e.2) entries)) := by
  induction named generalizing entries with
  | nil => rfl
  | cons p rest ih =>
    obtain ⟨name, m⟩ := p
    obtain ⟨form, others⟩ := List.forall_mem_cons.1 all
    dsimp only at form
    subst form
    rw [mendAll, List.map_cons, List.foldl_cons]
    exact ih others _

/-! ### Reported mismatches -/

/-- The mismatches that are mended, with the names that are read back from their keys. -/
def namesRead (reported : List Mismatch) : List (String × Mismatch) :=
  reported.filterMap fun m => (KeyPattern.input.name? m.field).map (·, m)

private theorem mem_namesRead_iff {reported : List Mismatch} :
    (name, m) ∈ namesRead reported ↔ m ∈ reported ∧ KeyPattern.input.name? m.field = some name := by
  simp [namesRead]

private theorem map_snd_namesRead_sublist (reported : List Mismatch) :
    ((namesRead reported).map Prod.snd).Sublist reported := by
  induction reported with
  | nil => exact .slnil
  | cons m reported ih =>
    rw [namesRead, List.filterMap_cons]
    cases KeyPattern.input.name? m.field with
    | none => exact ih.cons m
    | some name => exact ih.cons_cons m

section

variable {provided keys : List String} {reported : List Mismatch}

/-- Where the names that nothing expects can be read, each mismatch is mended by the name that it is about. -/
private theorem mem_namesRead_iff_of_isName (checked : reported.Perm (mismatches (provided.map .str) keys))
    (readable : ∀ name ∈ provided, name ∉ firstTier keys → IsName name) :
    (name, m) ∈ namesRead reported ↔
      (m = .missing name ∧ name ∈ firstTier keys ∧ name ∉ provided) ∨
        (m = .unexpected name ∧ name ∈ provided ∧ name ∉ firstTier keys) := by
  rw [mem_namesRead_iff, checked.mem_iff, Inputs.mem_mismatches_map_str_iff]
  constructor
  · rintro ⟨⟨other, expected, absent, rfl⟩ | ⟨other, there, other_ne, rfl⟩, read⟩
    · cases (KeyPattern.name?_input_field_of_isName (Inputs.isName_of_mem_firstTier expected)).symm.trans read
      exact .inl ⟨rfl, expected, absent⟩
    · cases (KeyPattern.name?_input_field_of_isName (readable other there other_ne)).symm.trans read
      exact .inr ⟨rfl, there, other_ne⟩
  · rintro (⟨rfl, expected, absent⟩ | ⟨rfl, there, other⟩)
    · exact ⟨.inl ⟨name, expected, absent, rfl⟩,
        KeyPattern.name?_input_field_of_isName (Inputs.isName_of_mem_firstTier expected)⟩
    · exact ⟨.inr ⟨name, there, other, rfl⟩, KeyPattern.name?_input_field_of_isName (readable name there other)⟩

private theorem nodup_namesRead (checked : reported.Perm (mismatches (provided.map .str) keys))
    (readable : ∀ name ∈ provided, name ∉ firstTier keys → IsName name) :
    ((namesRead reported).map Prod.fst).Nodup := by
  have fields : (reported.map (·.field)).Nodup :=
    (checked.map _).nodup_iff.2 (Inputs.nodup_map_field_mismatches provided keys)
  -- the field of a mismatch is made of the name that it is mended by
  have field : ∀ p ∈ namesRead reported, p.2.field = Inputs.field p.1 := by
    rintro ⟨name, m⟩ mem
    rcases (mem_namesRead_iff_of_isName checked readable).1 mem with ⟨rfl, _⟩ | ⟨rfl, _⟩ <;> rfl
  have same : (namesRead reported).map (fun p => Inputs.field p.1) =
      ((namesRead reported).map Prod.snd).map (·.field) := by
    rw [List.map_map]
    exact List.map_congr_left fun p mem => (field p mem).symm
  apply List.Nodup.of_map Inputs.field
  rw [List.map_map]
  exact same ▸ fields.sublist ((map_snd_namesRead_sublist reported).map _)

end

/-! ### Mended inputs -/

/-- The specification of the entry has the given inputs, each name once; where there are none, they may be absent. -/
structure Provides (entry : CacheEntry) (inputs : List (String × Value)) : Prop where
  apart : (inputs.map Prod.fst).Nodup
  lookup : entry.spec.lookup "inputs" = .ok (.map (ofNames inputs)) ∨
    inputs = [] ∧ entry.spec.lookup "inputs" = .ok .null

section

variable {keys : List String} {reported : List Mismatch}

/-- Inputs that are absent or empty are mended like an empty mapping. -/
private theorem mendedInputs_eq_mendAll (provides : Provides entry inputs)
    (checked : reported.Perm (mismatches ((inputs.map Prod.fst).map .str) keys)) :
    mendedInputs reported entry = mendAll (.map (ofNames inputs)) (namesRead reported) := by
  cases inputs with
  | cons p rest =>
    rcases provides.lookup with lookup | ⟨⟨⟩, _⟩
    rw [mendedInputs, lookup]
    rfl
  | nil =>
    have all : ∀ p ∈ namesRead reported, p.2 = .missing p.1 := by
      rintro ⟨name, m⟩ mem
      rcases (mem_namesRead_iff_of_isName checked (by simp)).1 mem with ⟨missing, _⟩ | ⟨_, there, _⟩
      · exact missing
      · cases there
    have expected : (namesRead reported).filter (·.2.expected) = namesRead reported := by
      rw [List.filter_eq_self]
      intro p mem
      rw [all p mem]
      rfl
    have new : mendedInputs reported entry =
        .ok (.map (Entries.ofList
          (((namesRead reported).filter (·.2.expected)).map fun p => (.str p.1, placeholder)))) := by
      rcases provides.lookup with lookup | ⟨_, lookup⟩ <;> rw [mendedInputs, lookup] <;> rfl
    rw [new, expected, mendAll_missing all]
    rfl

/-- The inputs that are expected keep their values, and those that are missing get the placeholder. -/
def IsMended (inputs new : List (String × Value)) (keys : List String) : Prop :=
  ∀ name value, (name, value) ∈ new ↔ name ∈ firstTier keys ∧
    ((name, value) ∈ inputs ∨ name ∉ inputs.map Prod.fst ∧ value = placeholder)

private theorem IsMended.mem_names_iff {new : List (String × Value)} (h : IsMended inputs new keys) :
    name ∈ new.map Prod.fst ↔ name ∈ firstTier keys := by
  rw [List.mem_map]
  constructor
  · rintro ⟨⟨_, value⟩, mem, rfl⟩
    exact ((h _ value).1 mem).1
  · intro expected
    by_cases there : name ∈ inputs.map Prod.fst
    · obtain ⟨⟨_, value⟩, own, rfl⟩ := List.mem_map.1 there
      exact ⟨_, (h _ value).2 ⟨expected, .inl own⟩, rfl⟩
    · exact ⟨_, (h name placeholder).2 ⟨expected, .inr ⟨there, rfl⟩⟩, rfl⟩

/-- Where the names that nothing expects can be read, the inputs are mended. -/
private theorem exists_isMended (apart : (inputs.map Prod.fst).Nodup)
    (checked : reported.Perm (mismatches ((inputs.map Prod.fst).map .str) keys))
    (readable : ∀ name ∈ inputs.map Prod.fst, name ∉ firstTier keys → IsName name) :
    ∃ new, mendAll (.map (ofNames inputs)) (namesRead reported) = .ok (.map (ofNames new)) ∧
      (new.map Prod.fst).Nodup ∧ IsMended inputs new keys := by
  have fits : ∀ p ∈ namesRead reported, Fits inputs p := by
    rintro ⟨name, m⟩ mem
    rcases (mem_namesRead_iff_of_isName checked readable).1 mem with ⟨missing, _, absent⟩ | ⟨unexpected, there, _⟩
    · exact .inl ⟨missing, absent⟩
    · exact .inr ⟨unexpected, there⟩
  obtain ⟨new, run, names, mem⟩ := mendAll_eq_ok (nodup_namesRead checked readable) apart fits
  refine ⟨new, run, names, ?_⟩
  intro name value
  have unexpected : (name, .unexpected name) ∈ namesRead reported ↔
      name ∈ inputs.map Prod.fst ∧ name ∉ firstTier keys := by
    rw [mem_namesRead_iff_of_isName checked readable]
    simp [Mismatch.missing, Mismatch.unexpected]
  have missing : (name, .missing name) ∈ namesRead reported ↔
      name ∈ firstTier keys ∧ name ∉ inputs.map Prod.fst := by
    rw [mem_namesRead_iff_of_isName checked readable]
    simp [Mismatch.missing, Mismatch.unexpected]
  have own : (name, value) ∈ inputs → name ∈ inputs.map Prod.fst := fun mem => List.mem_map_of_mem mem
  rw [mem, unexpected, missing]
  tauto

/-- Inputs whose mismatches were reported, in whatever order, are mended without a fault and have no mismatches then,
exactly if each of them that nothing expects has a name without points that is not empty.  If so, the inputs that are
expected keep their values, and those that were missing get the placeholder. -/
theorem mendedInputs_iff (provides : Provides entry inputs)
    (checked : reported.Perm (mismatches ((inputs.map Prod.fst).map .str) keys)) :
    ((∃ new, mendedInputs reported entry = .ok (.map new) ∧ mismatches (new.map Prod.fst) keys = []) ↔
      ∀ name ∈ inputs.map Prod.fst, name ∉ firstTier keys → IsName name) ∧
    ((∀ name ∈ inputs.map Prod.fst, name ∉ firstTier keys → IsName name) →
      ∃ new, mendedInputs reported entry = .ok (.map (ofNames new)) ∧
        mismatches ((ofNames new).map Prod.fst) keys = [] ∧ (new.map Prod.fst).Nodup ∧ IsMended inputs new keys) := by
  rw [mendedInputs_eq_mendAll provides checked]
  have clean {new : List (String × Value)} : mismatches ((ofNames new).map Prod.fst) keys = [] ↔
      ∀ name, name ∈ new.map Prod.fst ↔ name ∈ firstTier keys := by
    rw [Entries.map_fst_ofNames, Inputs.mismatches_map_str_eq_nil_iff]
  refine ⟨⟨?_, ?_⟩, ?_⟩
  · rintro ⟨_, run, none⟩ name there other
    obtain ⟨new, form, kept⟩ := mendAll_ofNames run
    cases form
    -- a name that cannot be read back is never dropped, so it would have to be expected
    by_contra unreadable
    refine other ((clean.1 none name).1 (kept name ?_ there))
    intro mem
    obtain ⟨⟨_, m⟩, listed, rfl⟩ := List.mem_map.1 mem
    exact unreadable (KeyPattern.isName_of_name?_input (mem_namesRead_iff.1 listed).2)
  · intro readable
    obtain ⟨new, run, _, mended⟩ := exists_isMended provides.apart checked readable
    exact ⟨ofNames new, run, clean.2 fun _ => mended.mem_names_iff⟩
  · intro readable
    obtain ⟨new, run, names, mended⟩ := exists_isMended provides.apart checked readable
    exact ⟨new, run, clean.2 fun _ => mended.mem_names_iff, names, mended⟩

end

/-! ### Inputs with points in their names -/

/-- A test with the given inputs. -/
private def testWith (inputs : List (String × Value)) : CacheEntry :=
  ⟨default, .map [(.str "inputs", .map (ofNames inputs))], none⟩

private theorem lookup_testWith (inputs : List (String × Value)) :
    (testWith inputs).spec.lookup "inputs" = .ok (.map (ofNames inputs)) := by
  simp [testWith, Value.lookup, Value.lookup?, Entries.get?, Entries.find?, Value.equals, Except.map]

private def sizeAndColor : List (String × Value) :=
  [("size", .int 5), ("color", .str "red")]

private def sizeAndPlace : List String :=
  ["inputs.size.width", "inputs.place"]

/-- One input is there and expected, one is not expected, and one is missing. -/
theorem mendedInputs_iff_sizeAndColor :
    Provides (testWith sizeAndColor) sizeAndColor ∧
      [.unexpected "color", .missing "place"].Perm (mismatches ((sizeAndColor.map Prod.fst).map .str) sizeAndPlace) ∧
      (∀ name ∈ sizeAndColor.map Prod.fst, name ∉ firstTier sizeAndPlace → IsName name) ∧
      ∃ new, mendedInputs [.unexpected "color", .missing "place"] (testWith sizeAndColor) =
          .ok (.map (ofNames new)) ∧
        mismatches ((ofNames new).map Prod.fst) sizeAndPlace = [] ∧ (new.map Prod.fst).Nodup ∧
        IsMended sizeAndColor new sizeAndPlace := by
  have provides : Provides (testWith sizeAndColor) sizeAndColor := ⟨by decide, .inl (lookup_testWith _)⟩
  have checked : [.unexpected "color", .missing "place"].Perm
      (mismatches ((sizeAndColor.map Prod.fst).map .str) sizeAndPlace) := by
    have found : mismatches ((sizeAndColor.map Prod.fst).map .str) sizeAndPlace =
        [.missing "place", .unexpected "color"] := by decide +kernel
    rw [found]
    exact .swap _ _ _
  have readable : ∀ name ∈ sizeAndColor.map Prod.fst, name ∉ firstTier sizeAndPlace → IsName name := by
    decide +kernel
  exact ⟨provides, checked, readable, (mendedInputs_iff provides checked).2 readable⟩

private def placeAndWidth : List (String × Value) :=
  [("place", .str "here"), ("size.width", .int 5)]

/-- An input with a point in its name cannot be mended: the part before the point names no input. -/
theorem mendedInputs_point :
    mismatches ((placeAndWidth.map Prod.fst).map .str) ["inputs.place"] = [.unexpected "size.width"] ∧
      mendedInputs [.unexpected "size.width"] (testWith placeAndWidth) = .error .noEntry := by
  refine ⟨by decide +kernel, ?_⟩
  have named : namesRead [.unexpected "size.width"] = [("size", .unexpected "size.width")] := by decide +kernel
  have absent : (ofNames placeAndWidth).has (.str "size") = false := by decide +kernel
  rw [mendedInputs, lookup_testWith]
  show mendAll (.map (ofNames placeAndWidth)) (namesRead [.unexpected "size.width"]) = _
  rw [named, mendAll]
  show (if (ofNames placeAndWidth).has (.str "size") then _ else _) >>= _ = _
  rw [absent]
  rfl

end EditReport

end ManifestLens
