import ManifestLens.Proofs.Manifest.Lines
import ManifestLens.Report.File

/-!
# Reports on broken texts

A text that is broken inside of a document has the report on the documents before, with the error added to it; one that
is broken between documents has none (`FileReport.ofFile_of_syntaxError`).  The report on the documents before is that
of every file that has these documents on these lines and nothing after them.
-/

namespace ManifestLens

variable {f : Fault} {manifest : Manifest}

/-! ### The report on a manifest -/

namespace Block

variable {b : Block} {lines : List String}

private theorem firstLine_eq (same : b.lines[b.anchor.absolute.line.toNat]? = lines[b.anchor.absolute.line.toNat]?) :
    b.firstLine = { b with lines := lines }.firstLine := by
  rw [firstLine, firstLine, same]

private theorem remarkAt_eq (same : b.lines[b.anchor.absolute.line.toNat]? = lines[b.anchor.absolute.line.toNat]?)
    (key : String) (gravity : Gravity) (message : String) :
    b.remarkAt key gravity message = { b with lines := lines }.remarkAt key gravity message := by
  rw [remarkAt, remarkAt, firstLine_eq same]

/-- The report on a manifest depends on no line but its first. -/
private theorem report_eq (same : b.lines[b.anchor.absolute.line.toNat]? = lines[b.anchor.absolute.line.toNat]?)
    (services : Services) (cache : Cache) :
    b.report services cache = { b with lines := lines }.report services cache := by
  have prepared (kind : String) :
      b.prepared services kind cache = { b with lines := lines }.prepared services kind cache := by
    simp only [Block.prepared, remarkAt_eq same]
    rfl
  simp only [report, remarkAt_eq same, prepared]
  rfl

end Block

/-! ### The report on a file -/

namespace FileReport

private theorem append_assoc (a b c : FileReport) : (a.append b).append c = a.append (b.append c) := by
  simp [append]

private theorem nil_append (a : FileReport) : append {} a = a := by
  simp [append]

private theorem append_nil (a : FileReport) : a.append {} = a := by
  simp [append]

private theorem syntaxFault?_eq_none (h : f.ofSyntax = false) : syntaxFault? f = none := by
  unfold syntaxFault?
  split
  · exact if_neg (by simpa [Fault.ofSyntax, Yaml.Error.ofSyntax] using h)
  · rfl

/-- A syntax error is reported at its place. -/
private theorem ofEnding_within {e : Yaml.Error} (h : e.ofSyntax = true) (lines : List String) (source : List Char) :
    ∃ mark since, ofEnding lines (.within (.yaml e source)) = .ok (broken lines (e.message source) mark since) := by
  cases e with
  | fault stage task since problem mark =>
    refine ⟨mark, since, ?_⟩
    have stages : (stage == .tokens || stage == .events) = true := h
    simp only [ofEnding, syntaxFault?, stages, if_true]
  | _ => cases h

theorem ofEnding_of_not_ofSyntax (h : f.ofSyntax = false) (lines : List String) :
    ofEnding lines (.within f) = .error f := by
  rw [ofEnding, syntaxFault?_eq_none h]

/-! The first of some documents is faulty, has no data, or is a manifest, which is refused or reported. -/

section

variable {services : Services} {uri : String} {file : SourceFile} {ending : ManifestEnding} {reading next : FileReading}
  {store : Store} {document : Yaml.Document} {rest : List Yaml.Document} {schema : Schema}

theorem ofDocuments_of_fault
    (h : (readDocument file store.kinds reading document).runFrom store.schema = (.error f, schema)) :
    ofDocuments services uri file ending reading store (document :: rest) =
      (ofEnding file.lines (.within f), { store with schema := schema }) := by
  have run : (readDocument file store.kinds reading document).run.run store.schema = _ := h
  rw [ofDocuments, run]

theorem ofDocuments_of_noData
    (h : (readDocument file store.kinds reading document).runFrom store.schema = (.ok (none, next), schema)) :
    ofDocuments services uri file ending reading store (document :: rest) =
      ofDocuments services uri file ending next { store with schema := schema } rest := by
  have run : (readDocument file store.kinds reading document).run.run store.schema = _ := h
  rw [ofDocuments, run]

theorem ofDocuments_of_refused
    (h : (readDocument file store.kinds reading document).runFrom store.schema = (.ok (some manifest, next), schema))
    (refused : ofManifest services uri file.lines manifest store.cache = .error f) :
    ofDocuments services uri file ending reading store (document :: rest) =
      (.error f, { store with schema := schema }) := by
  have run : (readDocument file store.kinds reading document).run.run store.schema = _ := h
  rw [ofDocuments, run]
  dsimp only
  rw [refused]

theorem ofDocuments_of_reported {first : FileReport} {cache : Cache}
    (h : (readDocument file store.kinds reading document).runFrom store.schema = (.ok (some manifest, next), schema))
    (reported : ofManifest services uri file.lines manifest store.cache = .ok (first, cache)) :
    ofDocuments services uri file ending reading store (document :: rest) =
      ((ofDocuments services uri file ending next ⟨store.kinds, schema, cache⟩ rest).1.map first.append,
        (ofDocuments services uri file ending next ⟨store.kinds, schema, cache⟩ rest).2) := by
  have run : (readDocument file store.kinds reading document).run.run store.schema = _ := h
  rw [ofDocuments, run]
  dsimp only
  rw [reported]

end

section

variable {n : Nat} {file whole : SourceFile}

private theorem ofManifest_eq (same : file.lines.take n = whole.lines.take n) (services : Services) (uri : String)
    (within : manifest.anchor.absolute.line.toNat < n) (cache : Cache) :
    ofManifest services uri file.lines manifest cache = ofManifest services uri whole.lines manifest cache := by
  rw [ofManifest, ofManifest, Block.report_eq (getElem?_eq_of_take same within)]

/-- The second result goes on from the first: it has the report at the end added, or both are faults. -/
inductive GoesOn (ending : Except Fault FileReport) : Except Fault FileReport → Except Fault FileReport → Prop
  | ok (r : FileReport) : GoesOn ending (.ok r) (ending.map r.append)
  | error (f g : Fault) : GoesOn ending (.error f) (.error g)

private theorem GoesOn.start (ending : Except Fault FileReport) : GoesOn ending (.ok {}) ending := by
  have all : ending.map (append {}) = ending := by
    cases ending with
    | error f => rfl
    | ok last => exact congrArg Except.ok (nil_append last)
  have start : GoesOn ending _ _ := .ok {}
  rwa [all] at start

private theorem GoesOn.map {ending x y : Except Fault FileReport} (h : GoesOn ending x y) (first : FileReport) :
    GoesOn ending (x.map first.append) (y.map first.append) := by
  cases h with
  | ok r =>
    have joined : (ending.map r.append).map first.append = ending.map (first.append r).append := by
      cases ending with
      | error f => rfl
      | ok last => exact congrArg Except.ok (append_assoc first r last).symm
    rw [joined]
    exact .ok (first.append r)
  | error f g => exact .error f g

/-- The report on documents on the first lines is the same in a file that ends with them, up to its end. -/
private theorem goesOn_ofDocuments (same : file.lines.take n = whole.lines.take n) (services : Services) (uri : String)
    (ending : ManifestEnding) {documents : List Yaml.Document} (within : ∀ d ∈ documents, d.root.isWithin n = true)
    (reading : FileReading) (store : Store) :
    GoesOn (ofEnding file.lines ending) (ofDocuments services uri whole .complete reading store documents).1
        (ofDocuments services uri file ending reading store documents).1 ∧
      (ofDocuments services uri file ending reading store documents).2 =
        (ofDocuments services uri whole .complete reading store documents).2 := by
  induction documents generalizing reading store with
  | nil => exact ⟨.start _, rfl⟩
  | cons document rest ih =>
    have others := ih fun d mem => within d (List.mem_cons_of_mem _ mem)
    have first := within document List.mem_cons_self
    -- the two readings of the document are alike, and leave the same schema for the rest
    have runs := alikeRuns_readDocument same store.kinds reading first
    have results := runs.results store.schema
    have schemas := runs.schemas store.schema
    rcases inFile : (readDocument file store.kinds reading document).runFrom store.schema with ⟨r, schema⟩
    rcases inWhole : (readDocument whole store.kinds reading document).runFrom store.schema with ⟨r', schema'⟩
    rw [inFile, inWhole] at results schemas
    obtain rfl : schema = schema' := schemas
    cases results with
    | error hf hg =>
      -- a fault of a document is never one of syntax, so neither file is reported as broken here
      rw [ofDocuments_of_fault inFile, ofDocuments_of_fault inWhole, ofEnding_of_not_ofSyntax hf,
        ofEnding_of_not_ofSyntax hg]
      exact ⟨.error _ _, rfl⟩
    | ok result =>
      obtain ⟨_ | manifest, next⟩ := result
      · rw [ofDocuments_of_noData inFile, ofDocuments_of_noData inWhole]
        exact others next _
      · have made := ofManifest_eq same services uri (anchor_line_lt first inFile) store.cache
        cases reported : ofManifest services uri whole.lines manifest store.cache with
        | error fault =>
          rw [ofDocuments_of_refused inFile (made.trans reported), ofDocuments_of_refused inWhole reported]
          exact ⟨.error fault fault, rfl⟩
        | ok result =>
          obtain ⟨report, cache⟩ := result
          rw [ofDocuments_of_reported inFile (made.trans reported), ofDocuments_of_reported inWhole reported]
          obtain ⟨goesOn, stores⟩ := others next ⟨store.kinds, schema, cache⟩
          exact ⟨goesOn.map report, stores⟩

end

/-! ### Broken texts -/

/-- The report on the documents that the text of a file completes, as if the file ended with them. -/
def ofCompleted (services : Services) (uri : String) (file : SourceFile) (store : Store) :
    Except Fault FileReport × Store :=
  ofDocuments services uri file .complete ⟨0, .origin⟩ store (Yaml.DocumentStream.ofText file.text.toList).documents

/-- A file that is complete with the documents that another one completes, and has them on the same first lines. -/
structure IsCompletedBy (file whole : SourceFile) : Prop where
  ending : (Yaml.DocumentStream.ofText whole.text.toList).ending = .complete
  documents : (Yaml.DocumentStream.ofText whole.text.toList).documents =
    (Yaml.DocumentStream.ofText file.text.toList).documents
  lines : ∃ n, file.lines.take n = whole.lines.take n ∧
    ∀ d ∈ (Yaml.DocumentStream.ofText file.text.toList).documents, d.root.isWithin n = true

/-- The report says nothing but that there is an error, with a message. -/
structure IsError (message : String) (report : FileReport) : Prop where
  tokens : report.tokens = []
  index : report.index = []
  diagnostics : report.diagnostics ≠ []
  errors : ∀ d ∈ report.diagnostics, d.gravity = .error ∧ d.message = message

private theorem isError_broken (lines : List String) (message : String) (mark : Yaml.Mark) (since : Option Yaml.Mark) :
    IsError message (broken lines message mark since) := by
  refine ⟨rfl, rfl, by simp [broken], fun d mem => ?_⟩
  obtain ⟨_, _, rfl⟩ := List.mem_map.1 mem
  exact ⟨rfl, rfl⟩

/-- The report on a file goes on from that on the documents that its text completes. -/
private theorem goesOn_ofFile (services : Services) (uri : String) (file : SourceFile) (store : Store) :
    GoesOn (ofEnding file.lines (.ofYaml file.text.toList (Yaml.DocumentStream.ofText file.text.toList).ending))
        (ofCompleted services uri file store).1 (ofFile services uri file store).1 ∧
      (ofFile services uri file store).2 = (ofCompleted services uri file store).2 := by
  -- the file is compared with itself, so the lines matter only in that the documents are on some of them
  obtain ⟨n, within⟩ := Yaml.exists_itemsWithin
    ((Yaml.DocumentStream.ofText file.text.toList).documents.map Yaml.Document.root)
  refine goesOn_ofDocuments (n := n) rfl services uri _ (fun d mem => ?_) ⟨0, .origin⟩ store
  exact Yaml.itemsWithin_iff.1 (within n (Nat.le_refl n)) d.root (List.mem_map_of_mem mem)

private theorem IsCompletedBy.goesOn {file whole : SourceFile} (h : IsCompletedBy file whole) (services : Services)
    (uri : String) (store : Store) :
    GoesOn (.ok {}) (ofFile services uri whole store).1 (ofCompleted services uri file store).1 ∧
      (ofCompleted services uri file store).2 = (ofFile services uri whole store).2 := by
  obtain ⟨n, same, within⟩ := h.lines
  have goesOn := goesOn_ofDocuments same services uri .complete within ⟨0, .origin⟩ store
  rw [ofFile, h.ending, h.documents]
  exact goesOn

private theorem GoesOn.toOption {report : FileReport} {x y : Except Fault FileReport} (h : GoesOn (.ok report) x y) :
    y.toOption = x.toOption.map fun r => r.append report := by
  cases h <;> rfl

/-- A text whose syntax is broken inside of a document has the report on the documents before, with errors added.  One
that is broken between documents has no report.  The report on the documents before is the report on every file that
ends with them. -/
theorem ofFile_of_syntaxError (services : Services) (uri : String) (file : SourceFile) (store : Store) {e : Yaml.Error}
    (syntactic : e.ofSyntax = true) :
    ((Yaml.DocumentStream.ofText file.text.toList).ending = .within e →
      ∃ error, IsError (e.message file.text.toList) error ∧
        (ofFile services uri file store).1.toOption =
          (ofCompleted services uri file store).1.toOption.map fun r => r.append error) ∧
    ((Yaml.DocumentStream.ofText file.text.toList).ending = .between e →
      (ofFile services uri file store).1.toOption = none ∧
        ∀ r, (ofCompleted services uri file store).1 = .ok r →
          (ofFile services uri file store).1 = .error (.yaml e file.text.toList)) ∧
    (ofFile services uri file store).2 = (ofCompleted services uri file store).2 ∧
    ∀ whole, IsCompletedBy file whole →
      (ofCompleted services uri file store).1.toOption = (ofFile services uri whole store).1.toOption ∧
        (ofCompleted services uri file store).2 = (ofFile services uri whole store).2 := by
  obtain ⟨goesOn, stores⟩ := goesOn_ofFile services uri file store
  refine ⟨fun ending => ?_, fun ending => ?_, stores, fun whole completed => ?_⟩
  · obtain ⟨mark, since, reported⟩ := ofEnding_within syntactic file.lines file.text.toList
    rw [ending, ManifestEnding.ofYaml, reported] at goesOn
    exact ⟨_, isError_broken .., goesOn.toOption⟩
  · rw [ending, ManifestEnding.ofYaml, ofEnding] at goesOn
    generalize (ofCompleted services uri file store).1 = before at goesOn
    generalize (ofFile services uri file store).1 = all at goesOn
    cases goesOn with
    | ok r => exact ⟨rfl, fun _ _ => rfl⟩
    | error f g => exact ⟨rfl, fun _ h => nomatch h⟩
  · obtain ⟨goesOn, stores⟩ := completed.goesOn services uri store
    refine ⟨?_, stores⟩
    rw [goesOn.toOption]
    simp only [append_nil, Option.map_id']

/-! ### A stray character -/

def noServices : Services :=
  ⟨fun _ _ => .refused "", fun _ _ => []⟩

/-- No token starts with the third line of a text. -/
def strayCharacter : Yaml.Error :=
  .fault .tokens (some .nextToken) none (.strayCharacter '@') ⟨9, 2, 0⟩

def oneDocument : SourceFile :=
  .ofText "a: 1\n" true

/-- The stray character is in a second document. -/
def strayWithin : SourceFile :=
  .ofText "a: 1\n---\n@\n" true

/-- The stray character comes after the end of the document, and before another one starts. -/
def strayBetween : SourceFile :=
  .ofText "a: 1\n...\n@\n" true

set_option maxRecDepth 100000 in
private theorem isCompletedBy_oneDocument : IsCompletedBy strayWithin oneDocument where
  ending := by decide +kernel
  documents := by decide +kernel
  lines := ⟨1, by decide +kernel, by decide +kernel⟩

set_option maxRecDepth 100000 in
theorem ofFile_of_syntaxError_strayWithin :
    strayCharacter.ofSyntax = true ∧ (ofFile noServices "a.yaml" oneDocument .initial).1.toOption.isSome = true ∧
      ∃ error, IsError (strayCharacter.message strayWithin.text.toList) error ∧
        (ofFile noServices "a.yaml" strayWithin .initial).1.toOption =
          (ofFile noServices "a.yaml" oneDocument .initial).1.toOption.map fun r => r.append error := by
  obtain ⟨within, _, _, whole⟩ :=
    ofFile_of_syntaxError noServices "a.yaml" strayWithin .initial (e := strayCharacter) rfl
  obtain ⟨error, isError, reported⟩ := within (by decide +kernel)
  refine ⟨rfl, by decide +kernel, error, isError, ?_⟩
  rw [reported, (whole oneDocument isCompletedBy_oneDocument).1]

set_option maxRecDepth 100000 in
/-- The stray character between documents is an error of the syntax, and there is no report on the file. -/
theorem no_report_strayBetween :
    strayCharacter.ofSyntax = true ∧
      (Yaml.DocumentStream.ofText strayBetween.text.toList).ending = .between strayCharacter ∧
      (ofFile noServices "a.yaml" strayBetween .initial).1.toOption.isNone = true ∧
      (ofCompleted noServices "a.yaml" strayBetween .initial).1.toOption.isSome = true := by
  refine ⟨rfl, ?_, ?_, ?_⟩ <;> decide +kernel

end FileReport

end ManifestLens
