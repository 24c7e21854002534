import ManifestLens.Proofs.Manifest.Starts
import ManifestLens.Proofs.Report.Broken
import ManifestLens.Proofs.Report.Entries

/-!
# Which manifests are reported

A manifest is routed by its version and its kind: it is foreign, its kind is not known, or it is prepared.  On each
route all faults become remarks about parts of the outline or about the first line of the manifest, which is a line of
its file (`Block.isOnLine_of_isRead`), so there is a report.  What has none are kinds that cannot be looked up, and the
kind of the manifests that define others, which passes as known but is not prepared (`Block.report_cases`).
-/

namespace ManifestLens

/-- The report has all that the outline of the manifest gives. -/
structure BlockReport.Covers (r : BlockReport) (b : Block) : Prop where
  tokens : r.tokens = some b.tokens
  index : r.index = some b.index

private theorem exists_bind_ok {α β : Type} {x : Except Fault α} {f : α → Except Fault β} (first : ∃ a, x = .ok a)
    (further : ∀ a, ∃ b, f a = .ok b) : ∃ b, (x >>= f) = .ok b := by
  obtain ⟨a, rfl⟩ := first
  exact further a

private theorem ok_bind {α β : Type} (a : α) (f : α → Except Fault β) : (Except.ok a >>= f) = f a :=
  rfl

namespace Block

variable {b : Block}

/-- The manifest starts on a line of its file. -/
def IsOnLine (b : Block) : Prop :=
  b.anchor.absolute.line.toNat < b.lines.length

/-- The manifest is made from a document of its file. -/
def IsRead (b : Block) : Prop :=
  ∃ source keepBreaks kinds state document S manifest next T,
    document ∈ (Yaml.DocumentStream.ofText source.toList).documents ∧
    (readDocument (.ofText source keepBreaks) kinds state document).runFrom S = (.ok (some manifest, next), T) ∧
    b.lines = Text.lines source keepBreaks ∧ b.entries = manifest.entries ∧ b.anchor = manifest.anchor

/-- The metadata are a mapping, if there are any. -/
def HasPlainMetadata (b : Block) : Prop :=
  ∀ v, b.entries.get? "metadata" = some v → ∃ entries, v = .map entries

/-- There is a report that has all that the outline of the manifest gives. -/
def IsReported (b : Block) (services : Services) (cache : Cache) : Prop :=
  ∃ r cache', b.report services cache = .ok (r, cache') ∧ r.Covers b

private theorem isReported_iff {services : Services} {cache : Cache} :
    b.IsReported services cache ↔ ∃ r, b.report services cache = .ok r := by
  constructor
  · rintro ⟨r, cache', reported, -⟩
    exact ⟨_, reported⟩
  · rintro ⟨⟨r, cache'⟩, reported⟩
    exact ⟨r, cache', reported, (parts_of_report reported).1, (parts_of_report reported).2⟩

/-! ### Remarks -/

/-- A manifest that is made from a document and has a version starts on a line of its file. -/
theorem isOnLine_of_isRead {version : String} (h : b.IsRead) (isVersion : b.value "apiVersion" = .str version) :
    b.IsOnLine := by
  obtain ⟨source, keepBreaks, kinds, state, document, S, manifest, next, T, isDocument, read, isLines, isEntries,
    isAnchor⟩ := h
  rcases readDocument_eq_ok read with ⟨⟨⟩, _⟩ | ⟨root, entries, m, isRoot, ⟨⟩, _, run, _⟩
  obtain ⟨page, _, _, isPage, _, _, _, anchor, _⟩ := readEntries_eq_ok run
  rw [value, isEntries, (readEntries_made run).2.1] at isVersion
  obtain ⟨v, found⟩ : ∃ v, Entries.get? entries "apiVersion" = some v := by
    cases found : Entries.get? entries "apiVersion" with
    | none =>
      rw [found] at isVersion
      cases isVersion
    | some v => exact ⟨v, rfl⟩
  have onLine := Yaml.start_lt_of_get? isDocument isRoot found (by decide)
  rw [IsOnLine, isAnchor, anchor, isPage, isLines, Text.lines, List.length_map]
  exact onLine

private theorem exists_firstLine (onLine : b.IsOnLine) : ∃ range, b.firstLine = .ok range := by
  rw [firstLine, List.getElem?_eq_getElem onLine]
  exact ⟨_, rfl⟩

/-- Whatever the outline has under a key, a remark can be made about it. -/
private theorem exists_remarkAt (onLine : b.IsOnLine) (key : String) (gravity : Gravity) (message : String) :
    ∃ remarks, b.remarkAt key gravity message = .ok remarks := by
  obtain ⟨range, first⟩ := exists_firstLine onLine
  rw [remarkAt, first]
  split
  · exact ⟨_, rfl⟩
  · exact ⟨_, rfl⟩
  · exact ⟨_, rfl⟩

/-! ### Routes -/

private theorem exists_metadata (plain : b.HasPlainMetadata) : ∃ entries, b.metadata = .ok entries := by
  rw [metadata]
  cases found : b.entries.get? "metadata" with
  | none => exact ⟨[], rfl⟩
  | some v =>
    obtain ⟨entries, rfl⟩ := plain v found
    exact ⟨entries, rfl⟩

/-- Whether or not a manifest of a known kind can be prepared, it is reported. -/
private theorem exists_prepared (onLine : b.IsOnLine) (plain : b.HasPlainMetadata) (services : Services) (kind : String)
    (cache : Cache) : ∃ r, b.prepared services kind cache = .ok r := by
  refine exists_bind_ok (exists_metadata plain) fun entries => ?_
  dsimp only
  split
  · exact ⟨_, rfl⟩
  · exact exists_bind_ok (exists_remarkAt onLine _ _ _) fun trouble => ⟨_, rfl⟩

/-- A value that may be a key can be looked for among texts. -/
private theorem isAmong_of_isKey {v : Value} (isKey : v.isKey = true) (texts : List String) :
    ∃ found, isAmong v texts = .ok found ∧ (found = true ↔ ∃ s ∈ texts, v = .str s) := by
  cases v with
  | str s => exact ⟨texts.contains s, rfl, by simp⟩
  | _ => simp [isAmong, isKey]

private theorem isAmong_of_not_isKey {v : Value} (noKey : v.isKey = false) (texts : List String) :
    isAmong v texts = .error .wrongType := by
  cases v with
  | str s => cases noKey
  | _ => simp [isAmong, noKey]

/-- What comes of a manifest by its version and kind. -/
theorem report_cases {version : String} (isVersion : b.value "apiVersion" = .str version) (onLine : b.IsOnLine)
    (plain : b.HasPlainMetadata) (services : Services) (cache : Cache) :
    (∃ r, b.report services cache = .ok r) ∧
        (version ∈ resourceVersions → (b.value "kind").isKey = true ∧ b.value "kind" ≠ .str definitionKind) ∨
      version ∈ resourceVersions ∧ ((b.value "kind").isKey = false ∧ b.report services cache = .error .wrongType ∨
        b.value "kind" = .str definitionKind ∧ b.report services cache = .error .noEntry) := by
  obtain ⟨known, isKnown, known_iff⟩ := isAmong_of_isKey (v := .str version) rfl resourceVersions
  rw [report, isVersion, isKnown, ok_bind]
  cases known with
  | false =>
    have foreign : version ∉ resourceVersions := by simpa using known_iff
    refine .inl ⟨?_, fun mem => absurd mem foreign⟩
    exact exists_bind_ok (exists_remarkAt onLine _ _ _) fun reason => ⟨_, rfl⟩
  | true =>
    have own : version ∈ resourceVersions := by simpa using known_iff
    rw [if_neg (by decide)]
    cases isKey : (b.value "kind").isKey with
    | false =>
      rw [isAmong_of_not_isKey isKey]
      exact .inr ⟨own, .inl ⟨rfl, rfl⟩⟩
    | true =>
      obtain ⟨supported, isSupported, supported_iff⟩ := isAmong_of_isKey isKey (resourceKinds ++ [definitionKind])
      obtain ⟨preparable, isPreparable, preparable_iff⟩ := isAmong_of_isKey isKey resourceKinds
      rw [isSupported, ok_bind, isPreparable, ok_bind]
      by_cases defines : b.value "kind" = .str definitionKind
      · have passes : supported = true := supported_iff.2 ⟨definitionKind, by simp, defines⟩
        have fails : preparable = false := by
          rw [Bool.eq_false_iff]
          intro isOne
          obtain ⟨kind, mem, same⟩ := preparable_iff.1 isOne
          cases same.symm.trans defines
          exact absurd mem (by decide)
        rw [passes, fails]
        exact .inr ⟨own, .inr ⟨defines, rfl⟩⟩
      · refine .inl ⟨?_, fun _ => ⟨rfl, defines⟩⟩
        cases supported with
        | false => exact exists_bind_ok (exists_remarkAt onLine _ _ _) fun reason => ⟨_, rfl⟩
        | true =>
          have prepares : preparable = true := by
            obtain ⟨kind, mem, same⟩ := supported_iff.1 rfl
            refine preparable_iff.2 ⟨kind, ?_, same⟩
            rcases List.mem_append.1 mem with mem | mem
            · exact mem
            · exact absurd (same.trans (congrArg _ (List.mem_singleton.1 mem))) defines
          rw [prepares]
          exact exists_prepared onLine plain services _ cache

/-- A manifest with a text as its version is reported with all that its outline gives, whatever its specification and
whether or not it can be prepared, exactly if it is foreign, or its kind may be a key and defines no other kinds. -/
theorem isReported_iff_routed {version : String} (isVersion : b.value "apiVersion" = .str version)
    (placed : b.IsRead ∨ b.IsOnLine) (plain : b.HasPlainMetadata) (services : Services) (cache : Cache) :
    b.IsReported services cache ↔
      (version ∈ resourceVersions → (b.value "kind").isKey = true ∧ b.value "kind" ≠ .str definitionKind) := by
  have onLine : b.IsOnLine := placed.elim (isOnLine_of_isRead · isVersion) id
  rw [isReported_iff]
  rcases report_cases isVersion onLine plain services cache with
    ⟨reported, routed⟩ | ⟨own, ⟨noKey, failed⟩ | ⟨defines, failed⟩⟩
  · exact iff_of_true reported routed
  · refine iff_of_false ?_ fun routed => ?_
    · rintro ⟨r, reported⟩
      cases failed.symm.trans reported
    · rw [(routed own).1] at noKey
      cases noKey
  · refine iff_of_false ?_ fun routed => (routed own).2 defines
    rintro ⟨r, reported⟩
    cases failed.symm.trans reported

/-- A manifest from the second line of its file on, of which the kind is a number and so not known. -/
private def unknownManifest : Block where
  uri := "a.yaml"
  version := "b949068edc33f30872d06872d5cd9af3"
  lines := ["---\n", "apiVersion: koreo.dev/v1beta1\n", "kind: 5\n"]
  entries := [(.str "apiVersion", .str "koreo.dev/v1beta1"), (.str "kind", .int 5)]
  anchor := ⟨some "5:0", ⟨1, 0⟩, ⟨1, 0⟩, some [
    .token ⟨⟨1, 0⟩, ⟨0, 0⟩, 10, none, none, .keyword, none, none⟩ (some [
      .token ⟨⟨0, 12⟩, ⟨0, 12⟩, 17, some "api_version", none, .namespace_, none, none⟩ none]),
    .token ⟨⟨1, 0⟩, ⟨1, 0⟩, 4, none, none, .keyword, none, none⟩ (some [
      .token ⟨⟨0, 6⟩, ⟨1, 6⟩, 1, some "kind", none, .type, none, none⟩ none])]⟩

theorem isReported_iff_routed_unknown :
    unknownManifest.IsOnLine ∧ unknownManifest.tokens.length = 4 ∧ unknownManifest.index.length = 1 ∧
      unknownManifest.IsReported FileReport.noServices [] := by
  have onLine : unknownManifest.IsOnLine := by
    show 1 < 3
    decide
  have plain : unknownManifest.HasPlainMetadata := by
    intro v found
    simp [unknownManifest, Entries.get?, Entries.find?, Value.equals] at found
  have isVersion : unknownManifest.value "apiVersion" = .str "koreo.dev/v1beta1" := by
    simp [unknownManifest, value, Entries.get?, Entries.find?, Value.equals]
  have isKind : unknownManifest.value "kind" = .int 5 := by
    simp [unknownManifest, value, Entries.get?, Entries.find?, Value.equals]
  refine ⟨onLine, by decide, by decide,
    (isReported_iff_routed isVersion (.inr onLine) plain FileReport.noServices []).2 fun _ => ?_⟩
  rw [isKind]
  exact ⟨rfl, by simp⟩

end Block

/-- A definition of a kind, and a foreign manifest after it. -/
private def definitionFirst : SourceFile :=
  .ofText
    "apiVersion: apiextensions.k8s.io/v1\nkind: CustomResourceDefinition\n---\napiVersion: v1\nkind: Secret\n" true

private def foreignOnly : SourceFile :=
  .ofText "apiVersion: v1\nkind: Secret\n" true

/-- A manifest that defines a kind is not reported, and neither is the file that it is in, whatever comes after it. -/
theorem FileReport.no_report_definitionFirst :
    (ofFile noServices "a.yaml" foreignOnly .initial).1.toOption.isSome = true ∧
      (ofFile noServices "a.yaml" definitionFirst .initial).1.toOption = none := by
  decide +kernel

end ManifestLens
