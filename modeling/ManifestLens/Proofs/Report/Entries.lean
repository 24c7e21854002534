import ManifestLens.Proofs.Manifest.Run
import ManifestLens.Report.File

/-!
# Entries of reports

Whatever else is wrong with a manifest, its report has the tokens and the entries of its outline
(`Block.parts_of_report`), and all entries name the file that the manifest is in.  So all entries of the report on a
file name that file (`FileReport.isOn_ofFile`).
-/

namespace ManifestLens

variable {services : Services} {uri : String} {cache cache' : Cache} {lines : List String} {ending : ManifestEnding}

/-! ### The report on a manifest -/

private theorem Block.parts_of_prepared {b : Block} {kind : String} {r : BlockReport}
    (h : b.prepared services kind cache = .ok (r, cache')) : r.tokens = some b.tokens ∧ r.index = some b.index := by
  obtain ⟨metadata, _, h⟩ := except_bind_eq_ok_iff.1 h
  dsimp only at h
  split at h
  · cases h
    exact ⟨rfl, rfl⟩
  · obtain ⟨trouble, _, h⟩ := except_bind_eq_ok_iff.1 h
    cases h
    exact ⟨rfl, rfl⟩

/-- The report on a manifest has the tokens and the entries of its outline. -/
theorem Block.parts_of_report {b : Block} {r : BlockReport} (h : b.report services cache = .ok (r, cache')) :
    r.tokens = some b.tokens ∧ r.index = some b.index := by
  obtain ⟨known, _, h⟩ := except_bind_eq_ok_iff.1 h
  split at h
  · obtain ⟨reason, _, h⟩ := except_bind_eq_ok_iff.1 h
    cases h
    exact ⟨rfl, rfl⟩
  · obtain ⟨supported, _, h⟩ := except_bind_eq_ok_iff.1 h
    split at h
    · obtain ⟨reason, _, h⟩ := except_bind_eq_ok_iff.1 h
      cases h
      exact ⟨rfl, rfl⟩
    · obtain ⟨preparable, _, h⟩ := except_bind_eq_ok_iff.1 h
      split at h
      · cases h
      · exact parts_of_prepared h

/-! ### The report on a file -/

namespace FileReport

/-- All entries of the report name the file. -/
def IsOn (r : FileReport) (uri : String) : Prop :=
  ∀ e ∈ r.index, e.uri = uri

instance (r : FileReport) (uri : String) : Decidable (r.IsOn uri) :=
  inferInstanceAs (Decidable (∀ e ∈ r.index, e.uri = uri))

private theorem IsOn.append {a b : FileReport} (ha : a.IsOn uri) (hb : b.IsOn uri) : (a.append b).IsOn uri := by
  intro e he
  rcases List.mem_append.1 he with he | he
  · exact ha e he
  · exact hb e he

/-- The entries of the report on a manifest are those of its outline. -/
theorem index_ofManifest {manifest : Manifest} {r : FileReport}
    (h : ofManifest services uri lines manifest cache = .ok (r, cache')) :
    r.index = Block.index ⟨uri, manifest.version, lines, manifest.entries, manifest.anchor⟩ := by
  obtain ⟨⟨block, _⟩, report, h⟩ := except_bind_eq_ok_iff.1 h
  obtain ⟨_, joined, h⟩ := except_bind_eq_ok_iff.1 h
  cases h
  obtain ⟨tokens, _, h⟩ := except_bind_eq_ok_iff.1 joined
  cases h
  rw [(Block.parts_of_report report).2, Option.getD_some]

private theorem isOn_ofManifest {manifest : Manifest} {r : FileReport}
    (h : ofManifest services uri lines manifest cache = .ok (r, cache')) : r.IsOn uri := by
  intro e he
  rw [index_ofManifest h] at he
  obtain ⟨_, _, rfl⟩ := List.mem_map.1 he
  rfl

theorem index_ofEnding {r : FileReport} (h : ofEnding lines ending = .ok r) : r.index = [] := by
  unfold ofEnding at h
  split at h
  · cases h
    rfl
  · cases h
  · split at h
    · cases h
      rfl
    · cases h

private theorem isOn_ofEnding {r : FileReport} (uri : String) (h : ofEnding lines ending = .ok r) : r.IsOn uri := by
  simp [IsOn, index_ofEnding h]

private theorem isOn_ofDocuments {file : SourceFile} (documents : List Yaml.Document) {reading : FileReading}
    {store : Store} {r : FileReport} (h : (ofDocuments services uri file ending reading store documents).1 = .ok r) :
    r.IsOn uri := by
  induction documents generalizing reading store r with
  | nil => exact isOn_ofEnding uri h
  | cons document rest ih =>
    rw [ofDocuments] at h
    split at h
    · rename_i fault _ _
      exact isOn_ofEnding uri (show ofEnding file.lines (.within fault) = .ok r from h)
    · exact ih h
    · split at h
      · cases h
      · rename_i first _ made
        dsimp only at h
        cases others : (ofDocuments services uri file ending _ _ rest).1 with
        | error fault =>
          rw [others] at h
          cases h
        | ok later =>
          rw [others] at h
          cases h
          exact (isOn_ofManifest made).append (ih others)

/-- All entries of the report on a file name the file. -/
theorem isOn_ofFile {file : SourceFile} {store : Store} {r : FileReport}
    (h : (ofFile services uri file store).1 = .ok r) : r.IsOn uri :=
  isOn_ofDocuments _ h

end FileReport

end ManifestLens
