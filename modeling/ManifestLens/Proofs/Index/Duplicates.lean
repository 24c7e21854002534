import ManifestLens.Index.Resources
import ManifestLens.Proofs.Inputs.Mismatches

/-!
# Resources that are defined more than once

The definitions of a file that have a diagnostic are those whose names are in the index of all files more than once, and
each of them has one (`Index.duplicates_perm`).  So no file has a diagnostic exactly if the names under which resources
are defined are all different (`Index.duplicates_eq_nil_iff`).  The name of an entry reads as a definition if it starts
with a kind and a colon, and `:def` comes after them on the first line, with anything behind it
(`readsAsDefinition_iff`).  So the definition of a resource does not read as one if its name has a line feed
(`readsAsDefinition_definitionKey`).
-/

namespace ManifestLens

variable {index : List IndexEntry} {rest text : List Char} {another name other : String}

/-! ### Keys that read as definitions -/

/-- The key under which a resource is defined. -/
def definitionKey (kind name : String) : String :=
  kind ++ ":" ++ name ++ ":def"

/-- The key under which a template is referred to. -/
def templateKey (name : String) : String :=
  "ResourceTemplate:" ++ name ++ ":ref"

namespace KeyPattern

/-- The key reads as the definition of a resource. -/
def readsAsDefinition (key : String) : Bool :=
  (definition.match? key).isSome

/-- The text is a kind: a capital letter, then letters, digits and points. -/
def isKind (text : String) : Bool :=
  match text.toList with
  | [] => false
  | c :: rest => c.isUpper && rest.all fun x => x.isAlphanum || x == '.'

private theorem kind?_append {kind : String} (h : isKind kind = true) (rest : List Char) :
    kind? (kind.toList ++ ':' :: rest) = some (kind.toList, rest) := by
  rw [isKind] at h
  split at h
  · cases h
  · next c letters found =>
    rw [Bool.and_eq_true, List.all_eq_true] at h
    have taken : (letters ++ ':' :: rest).takeWhile (fun x => x.isAlphanum || x == '.') = letters := by
      rw [List.takeWhile_append_of_pos h.2]
      simp
    have dropped : (letters ++ ':' :: rest).dropWhile (fun x => x.isAlphanum || x == '.') = ':' :: rest := by
      rw [List.dropWhile_append_of_pos h.2]
      simp
    rw [found, List.cons_append, kind?, if_pos h.1]
    simp only [taken, dropped]
    rfl

private theorem readsAsDefinition_append {kind : String} (h : isKind kind = true) (rest : String) :
    readsAsDefinition (kind ++ ":" ++ rest) = (beforeLast? [":def".toList] rest.toList).isSome := by
  have found : kind? (kind ++ ":" ++ rest).toList = some (kind.toList, rest.toList) := by
    rw [String.toList_append, String.toList_append, List.append_assoc]
    exact kind?_append h rest.toList
  rw [readsAsDefinition, match?]
  simp only [found, Option.bind_some, Option.isSome_map, endings]

/-- An ending is found on the rest of the line, or it starts here. -/
private theorem isSome_beforeLast?_cons (endings : List (List Char)) (c : Char) (rest : List Char) :
    (beforeLast? endings (c :: rest)).isSome =
      (c != '\n' && (beforeLast? endings rest).isSome || endings.any (·.isPrefixOf (c :: rest))) := by
  have here : (endings.find? fun e => e.isPrefixOf (c :: rest)).isSome = endings.any (·.isPrefixOf (c :: rest)) := by
    rw [Bool.eq_iff_iff, List.find?_isSome, List.any_eq_true]
  rw [beforeLast?, ← here]
  by_cases breaks : c = '\n'
  · simp [breaks]
  · cases beforeLast? endings rest <;> simp [breaks]

/-- Whether a text without line feeds starts another one is settled on the first line of that one. -/
private theorem isPrefixOf_append_of_mem {e : List Char} (clear : '\n' ∉ e) (breaks : '\n' ∈ text) (s t : List Char) :
    e.isPrefixOf (text ++ s) = e.isPrefixOf (text ++ t) := by
  induction e generalizing text with
  | nil => rfl
  | cons c e ih =>
    obtain ⟨notHere, clear⟩ := not_or.1 (fun h => clear (List.mem_cons.2 h))
    cases text with
    | nil => cases breaks
    | cons d text =>
      by_cases same : c = d
      · subst same
        have later := (List.mem_cons.1 breaks).resolve_left notHere
        simp only [List.cons_append, List.isPrefixOf, ih clear later]
      · simp only [List.cons_append, List.isPrefixOf, beq_eq_false_iff_ne.2 same, Bool.false_and]

/-- What follows a line feed does not matter. -/
private theorem isSome_beforeLast?_append_of_mem {e : List Char} (clear : '\n' ∉ e) (breaks : '\n' ∈ text)
    (s t : List Char) :
    (beforeLast? [e] (text ++ s)).isSome = (beforeLast? [e] (text ++ t)).isSome := by
  induction text with
  | nil => cases breaks
  | cons c text ih =>
    have here := isPrefixOf_append_of_mem clear breaks s t
    rw [List.cons_append, List.cons_append] at here
    rw [List.cons_append, List.cons_append, isSome_beforeLast?_cons, isSome_beforeLast?_cons, List.any_cons,
      List.any_cons, here]
    by_cases first : c = '\n'
    · simp [first]
    · rw [ih ((List.mem_cons.1 breaks).resolve_left (Ne.symm first))]
      rfl

/-- An ending is found exactly if it comes after a text without line feeds. -/
private theorem isSome_beforeLast?_iff {e : List Char} (some : e ≠ []) :
    (beforeLast? [e] text).isSome = true ↔ ∃ name rest, '\n' ∉ name ∧ text = name ++ e ++ rest := by
  induction text with
  | nil =>
    refine iff_of_false (fun found => by cases found) ?_
    rintro ⟨name, rest, -, split⟩
    simp only [List.nil_eq, List.append_eq_nil_iff] at split
    exact some split.1.2
  | cons c text ih =>
    rw [isSome_beforeLast?_cons, Bool.or_eq_true, Bool.and_eq_true, bne_iff_ne, ih, List.any_cons, List.any_nil,
      Bool.or_false, List.isPrefixOf_iff_prefix]
    constructor
    · rintro (⟨notBreak, name, rest, clear, rfl⟩ | ⟨rest, split⟩)
      · exact ⟨c :: name, rest, by simp [Ne.symm notBreak, clear], rfl⟩
      · exact ⟨[], rest, List.not_mem_nil, split.symm⟩
    · rintro ⟨name, rest, clear, split⟩
      cases name with
      | nil => exact .inr ⟨rest, split.symm⟩
      | cons d name =>
        obtain ⟨rfl, rfl⟩ := List.cons.inj split
        obtain ⟨notHere, clear⟩ := not_or.1 (fun h => clear (List.mem_cons.2 h))
        exact .inl ⟨Ne.symm notHere, name, rest, clear, rfl⟩

/-- A kind that is found stands before a colon. -/
private theorem kind?_eq_some {kind : List Char} (h : kind? text = some (kind, rest)) :
    text = kind ++ ':' :: rest ∧ isKind (String.ofList kind) = true := by
  cases text with
  | nil => cases h
  | cons c text =>
    rw [kind?] at h
    split at h
    · next upper =>
      obtain ⟨after, found, made⟩ := Option.map_eq_some_iff.1 h
      obtain ⟨rfl, rfl⟩ := Prod.mk.inj made
      have colon : text.dropWhile (fun x => x.isAlphanum || x == '.') = ':' :: after := by
        rw [after?] at found
        split at found
        · next starts =>
          obtain ⟨more, split⟩ := List.isPrefixOf_iff_prefix.1 starts
          rw [← split] at found ⊢
          cases found
          rfl
        · cases found
      constructor
      · rw [List.cons_append, ← colon, List.takeWhile_append_dropWhile]
      · rw [isKind, String.toList_ofList]
        simp only [upper, Bool.true_and, List.all_eq_true]
        intro x mem
        exact List.mem_takeWhile_imp (p := fun x => x.isAlphanum || x == '.') mem
    · cases h

/-- The key starts as the definition of a resource whose name is on one line. -/
def StartsAsDefinition (key : String) : Prop :=
  ∃ kind name rest, isKind kind = true ∧ '\n' ∉ name.toList ∧ key = definitionKey kind name ++ rest

theorem readsAsDefinition_iff {key : String} : readsAsDefinition key = true ↔ StartsAsDefinition key := by
  constructor
  · intro reads
    obtain ⟨found, matched⟩ := Option.isSome_iff_exists.1 reads
    obtain ⟨⟨kind, after⟩, isFirst, matched⟩ := Option.bind_eq_some_iff.1 matched
    obtain ⟨split, isKind⟩ := kind?_eq_some isFirst
    obtain ⟨_, isEnd, -⟩ := Option.map_eq_some_iff.1 matched
    obtain ⟨name, rest, clear, rfl⟩ := (isSome_beforeLast?_iff (e := ":def".toList) (by decide)).1
      (Option.isSome_of_eq_some isEnd)
    refine ⟨String.ofList kind, String.ofList name, String.ofList rest, isKind, by rwa [String.toList_ofList], ?_⟩
    apply String.toList_inj.1
    simp [split, definitionKey]
  · rintro ⟨kind, name, rest, isKind, clear, rfl⟩
    rw [definitionKey, String.append_assoc, String.append_assoc, readsAsDefinition_append isKind,
      isSome_beforeLast?_iff (by decide)]
    exact ⟨name.toList, rest.toList, clear, by simp⟩

instance (key : String) : Decidable (StartsAsDefinition key) :=
  decidable_of_iff _ readsAsDefinition_iff

/-- The definition of a resource reads as one if its name has no line feed; and only then, if no `:def` is in the first
line of the name. -/
theorem readsAsDefinition_definitionKey {kind : String} (h : isKind kind = true)
    (plain : readsAsDefinition (templateKey name) = false) :
    readsAsDefinition (definitionKey kind name) = true ↔ '\n' ∉ name.toList := by
  have template : readsAsDefinition (templateKey name) =
      (beforeLast? [":def".toList] (name.toList ++ ":ref".toList)).isSome := by
    rw [← String.toList_append, ← @readsAsDefinition_append "ResourceTemplate" (by decide)]
    rfl
  rw [definitionKey, String.append_assoc, readsAsDefinition_append h, String.toList_append]
  constructor
  · intro found breaks
    rw [isSome_beforeLast?_append_of_mem (by decide) breaks _ ":ref".toList, ← template, plain] at found
    cases found
  · intro clear
    exact (isSome_beforeLast?_iff (by decide)).2 ⟨name.toList, [], clear, (List.append_nil _).symm⟩

theorem definitionKey_inj {kind : String} (h : isKind kind = true) (h' : isKind other = true)
    (same : definitionKey kind name = definitionKey other another) : kind = other ∧ name = another := by
  have split (kind name : String) :
      (definitionKey kind name).toList = kind.toList ++ ':' :: (name.toList ++ ":def".toList) := by
    simp [definitionKey]
  have found := congrArg (fun key => kind? key.toList) same
  rw [split, split, kind?_append h, kind?_append h', Option.some.injEq, Prod.mk.injEq] at found
  exact ⟨String.toList_inj.1 found.1, String.toList_inj.1 (List.append_cancel_right found.2)⟩

end KeyPattern

namespace Index

/-- The diagnostic for a definition of a resource that is defined more than once. -/
def repetition (e : IndexEntry) : Diagnostic :=
  ⟨.error, e.range, s!"Mulitiple instances of {e.name}."⟩

/-- The entry defines a resource, and its name is in the index more than once. -/
def IsRepeated (index : List IndexEntry) (e : IndexEntry) : Prop :=
  KeyPattern.StartsAsDefinition e.name ∧ 2 ≤ index.countP (·.name == e.name)

instance (index : List IndexEntry) (e : IndexEntry) : Decidable (IsRepeated index e) :=
  inferInstanceAs (Decidable (_ ∧ _))

/-- The places at which a resource is defined are as many as the definitions under its name. -/
private theorem length_places (h : KeyPattern.readsAsDefinition name = true) :
    (index.filter (·.name == name)).length = ((index.filter isDefinition).map (·.name)).count name := by
  rw [List.count_eq_length_filter, List.filter_map, List.length_map, List.filter_filter]
  congr 1
  apply List.filter_congr
  intro e _
  by_cases same : e.name = name
  · subst same
    have definition : isDefinition e = true := h
    simp [definition]
  · simp [same]

/-- What is grouped by different keys is all that has one of the keys. -/
private theorem perm_flatMap_filter {α κ : Type} [DecidableEq κ] (key : α → κ) {keys : List κ} (unique : keys.Nodup)
    (items : List α) : (keys.flatMap fun k => items.filter (key · = k)).Perm (items.filter (key · ∈ keys)) := by
  induction keys with
  | nil => simp
  | cons k keys ih =>
    obtain ⟨fresh, unique⟩ := List.nodup_cons.1 unique
    -- what has one of the keys has the first one or one of the others
    have first : (items.filter (key · ∈ k :: keys)).filter (key · = k) = items.filter (key · = k) := by
      rw [List.filter_filter]
      apply List.filter_congr
      intro a _
      by_cases here : key a = k <;> simp [here]
    have others : (items.filter (key · ∈ k :: keys)).filter (fun a => !decide (key a = k)) =
        items.filter (key · ∈ keys) := by
      rw [List.filter_filter]
      apply List.filter_congr
      intro a _
      by_cases here : key a = k <;> simp [here, fresh]
    have split := List.filter_append_perm (key · = k) (items.filter (key · ∈ k :: keys))
    rw [first, others] at split
    exact ((ih unique).append_left _).trans split

/-- Whether a definition is repeated depends on its name. -/
private theorem isRepeated_iff_of_name {e e' : IndexEntry} (same : e'.name = e.name) :
    IsRepeated index e' ↔ IsRepeated index e := by
  rw [IsRepeated, IsRepeated, same]

/-- The diagnostics for the definitions of one name in a file: all of them if the name is there more than once. -/
private theorem map_repetition_of_name {e : IndexEntry} (starts : KeyPattern.StartsAsDefinition e.name) (uri : String) :
    ((index.filter fun e' => e'.uri = uri ∧ IsRepeated index e').filter (·.name = e.name)).map repetition =
      if (index.filter (·.name == e.name)).length ≤ 1 then []
      else (ofFile (index.filter (·.name == e.name)) uri).map fun e' =>
        ⟨.error, e'.range, s!"Mulitiple instances of {e.name}."⟩ := by
  have often : IsRepeated index e ↔ ¬(index.filter (·.name == e.name)).length ≤ 1 := by
    rw [IsRepeated, List.countP_eq_length_filter]
    simp only [starts, true_and]
    omega
  rw [List.filter_filter]
  split
  · next once =>
    rw [List.map_eq_nil_iff, List.filter_eq_nil_iff]
    intro e' _
    by_cases here : e'.name = e.name
    · have single : ¬IsRepeated index e' := (isRepeated_iff_of_name here).not.2 (often.not.2 (not_not.2 once))
      simp [single]
    · simp [here]
  · next many =>
    rw [ofFile, List.filter_filter]
    have filters : index.filter (fun e' => decide (e'.name = e.name) && decide (e'.uri = uri ∧ IsRepeated index e')) =
        index.filter fun e' => e'.uri == uri && e'.name == e.name := by
      apply List.filter_congr
      intro e' _
      by_cases here : e'.name = e.name
      · have repeated : IsRepeated index e' := (isRepeated_iff_of_name here).2 (often.2 many)
        simp [here, repeated, beq_eq_decide]
      · simp [here]
    rw [filters]
    apply List.map_congr_left
    intro e' mem
    simp only [List.mem_filter, Bool.and_eq_true, beq_iff_eq] at mem
    rw [repetition, mem.2.2]

/-- Each definition of a file whose name is in the index of all files more than once has a diagnostic, and there are no
others. -/
theorem duplicates_perm (index : List IndexEntry) (uri : String) :
    (duplicates index uri).Perm ((index.filter fun e => e.uri = uri ∧ IsRepeated index e).map repetition) := by
  have byName : duplicates index uri = ((definitionNames index).flatMap fun name =>
      (index.filter fun e => e.uri = uri ∧ IsRepeated index e).filter (·.name = name)).map repetition := by
    rw [List.map_flatMap, duplicates]
    apply List.flatMap_congr
    intro name mem
    obtain ⟨e, definition, rfl⟩ := List.mem_map.1 (Inputs.mem_distinct.1 mem)
    have starts := KeyPattern.readsAsDefinition_iff.1 (List.mem_filter.1 definition).2
    exact (map_repetition_of_name starts uri).symm
  have unique : (definitionNames index).Nodup := Inputs.nodup_distinct _
  -- the names of repeated definitions are among those by which the diagnostics are grouped
  have all : (index.filter fun e => e.uri = uri ∧ IsRepeated index e).filter (·.name ∈ definitionNames index) =
      index.filter fun e => e.uri = uri ∧ IsRepeated index e := by
    rw [List.filter_eq_self]
    intro e mem
    obtain ⟨there, repeated⟩ := List.mem_filter.1 mem
    have definition : isDefinition e = true := KeyPattern.readsAsDefinition_iff.2 (of_decide_eq_true repeated).2.1
    exact decide_eq_true (Inputs.mem_distinct.2 (List.mem_map_of_mem (List.mem_filter.2 ⟨there, definition⟩)))
  rw [byName]
  exact ((perm_flatMap_filter IndexEntry.name unique _).trans (.of_eq all)).map repetition

/-- No file has a diagnostic for a resource that is defined more than once if all definitions have different names, and
only then. -/
theorem duplicates_eq_nil_iff (index : List IndexEntry) :
    (∀ uri, duplicates index uri = []) ↔ ((index.filter isDefinition).map (·.name)).Nodup := by
  have none (uri : String) : duplicates index uri = [] ↔ ∀ e ∈ index, e.uri = uri → ¬IsRepeated index e := by
    rw [← List.perm_nil, (duplicates_perm index uri).congr_left, List.perm_nil, List.map_eq_nil_iff,
      List.filter_eq_nil_iff]
    simp
  have count (e : IndexEntry) (definition : isDefinition e = true) :
      index.countP (·.name == e.name) = ((index.filter isDefinition).map (·.name)).count e.name := by
    rw [List.countP_eq_length_filter, length_places definition]
  rw [List.nodup_iff_count_le_one]
  constructor
  · intro empty name
    by_contra many
    have mem : name ∈ (index.filter isDefinition).map (·.name) := List.count_pos_iff.1 (by omega)
    obtain ⟨e, definition, rfl⟩ := List.mem_map.1 mem
    obtain ⟨there, reads⟩ := List.mem_filter.1 definition
    refine (none e.uri).1 (empty e.uri) e there rfl ⟨KeyPattern.readsAsDefinition_iff.1 reads, ?_⟩
    rw [count e reads]
    omega
  · intro once uri
    rw [none]
    rintro e _ - ⟨starts, often⟩
    rw [count e (KeyPattern.readsAsDefinition_iff.2 starts)] at often
    have single := once e.name
    omega

/-- A definition has a diagnostic in its file exactly if it is repeated. -/
private theorem repetition_mem_duplicates_iff {e : IndexEntry} (there : e ∈ index) :
    repetition e ∈ duplicates index e.uri ↔ IsRepeated index e := by
  rw [(duplicates_perm index e.uri).mem_iff, List.mem_map]
  constructor
  · rintro ⟨e', mem, same⟩
    -- the message tells the name
    have message := congrArg (fun d => d.message.toList) same
    have name : e'.name = e.name := by
      apply String.toList_inj.1
      simpa [repetition, toString] using message
    exact (isRepeated_iff_of_name name).1 (of_decide_eq_true (List.mem_filter.1 mem).2).2
  · intro repeated
    exact ⟨e, List.mem_filter.2 ⟨there, decide_eq_true ⟨rfl, repeated⟩⟩, rfl⟩

/-- A file has one diagnostic for each of its definitions whose name is in the index more than once, and no others.  So
the order of the entries does not matter, and of two files with a definition of the same name both have a diagnostic for
it or neither has. -/
theorem duplicates_exact (index : List IndexEntry) (uri : String) :
    (duplicates index uri).Perm ((index.filter fun e => e.uri = uri ∧ IsRepeated index e).map repetition) ∧
      (∀ other, other.Perm index → (duplicates other uri).Perm (duplicates index uri)) ∧
      ∀ e ∈ index, ∀ e' ∈ index, e'.name = e.name →
        (repetition e ∈ duplicates index e.uri ↔ repetition e' ∈ duplicates index e'.uri) := by
  refine ⟨duplicates_perm index uri, ?_, ?_⟩
  · intro other same
    have repeated (e : IndexEntry) : IsRepeated other e ↔ IsRepeated index e := by
      rw [IsRepeated, IsRepeated, same.countP_eq]
    refine (duplicates_perm other uri).trans (.trans ?_ (duplicates_perm index uri).symm)
    simp only [repeated]
    exact (same.filter _).map repetition
  · intro e there e' there' name
    rw [repetition_mem_duplicates_iff there, repetition_mem_duplicates_iff there', isRepeated_iff_of_name name]

private def entryOf (uri name : String) (line : Int) : IndexEntry :=
  ⟨uri, name, ⟨⟨line, 0⟩, ⟨line, 4⟩⟩, none⟩

/-- Two files that share a definition, which one of them has twice, among references and other definitions. -/
private def sharing : List IndexEntry :=
  [entryOf "a" "Workflow:w:def" 0, entryOf "b" "Workflow:w:def" 1, entryOf "a" "Workflow:w:ref" 2,
    entryOf "b" "Workflow:w:ref" 3, entryOf "b" "ValueFunction:f:def" 4, entryOf "a" "Workflow:w:def" 5]

theorem duplicates_exact_sharing :
    (duplicates sharing "a").Perm
        ([entryOf "a" "Workflow:w:def" 0, entryOf "a" "Workflow:w:def" 5].map repetition) ∧
      (duplicates sharing.reverse "a").Perm (duplicates sharing "a") ∧
      (repetition (entryOf "a" "Workflow:w:def" 0) ∈ duplicates sharing "a" ↔
        repetition (entryOf "b" "Workflow:w:def" 1) ∈ duplicates sharing "b") := by
  obtain ⟨reported, order, shared⟩ := duplicates_exact sharing "a"
  refine ⟨?_, order _ sharing.reverse_perm, shared (entryOf "a" "Workflow:w:def" 0) (by decide)
    (entryOf "b" "Workflow:w:def" 1) (by decide) rfl⟩
  have repeated : (sharing.filter fun e => e.uri = "a" ∧ IsRepeated sharing e) =
      [entryOf "a" "Workflow:w:def" 0, entryOf "a" "Workflow:w:def" 5] := by decide +kernel
  rwa [repeated] at reported

end Index

end ManifestLens
