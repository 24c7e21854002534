import ManifestLens.Proofs.Report.Entries
import ManifestLens.Session.Analysis
import Mathlib.Data.Multiset.ZeroCons

/-!
# Analyses in any order

An analysis has to wait for its tests, and again for each resource that it forgets.  Between two such points it makes
one step, and in the meantime other analyses make theirs, files are read and documents change.  An activity
(`Activity`) is a session with the analyses under way, and its steps (`Activity.Step`) may come in any order.

What a session knows of a file (`Session.known`) is changed by the steps of the analyses of that file only
(`Activity.Step.known_of_ne`), and these leave the entries of all other files where they are
(`Activity.Step.without_eq`).
-/

namespace ManifestLens

variable {uri : String}

/-! ### Entries by file -/

namespace Index

variable {index : List IndexEntry} {other : String}

private theorem ofFile_append (a b : List IndexEntry) (uri : String) :
    ofFile (a ++ b) uri = ofFile a uri ++ ofFile b uri :=
  List.filter_append ..

private theorem without_append (a b : List IndexEntry) (uri : String) :
    without (a ++ b) uri = without a uri ++ without b uri :=
  List.filter_append ..

private theorem ofFile_without_self (index : List IndexEntry) (uri : String) : ofFile (without index uri) uri = [] := by
  simp [ofFile, without]

private theorem without_without (index : List IndexEntry) (uri : String) :
    without (without index uri) uri = without index uri := by
  simp [without]

private theorem ofFile_without_of_ne (index : List IndexEntry) (h : other ≠ uri) :
    ofFile (without index uri) other = ofFile index other := by
  rw [ofFile, without, List.filter_filter]
  refine List.filter_congr fun e _ => ?_
  by_cases own : e.uri = other
  · simp [own, h]
  · simp [own]

private theorem ofFile_of_forall (own : ∀ e ∈ index, e.uri = uri) : ofFile index uri = index :=
  List.filter_eq_self.2 fun e he => by simp [own e he]

private theorem ofFile_of_forall_of_ne (own : ∀ e ∈ index, e.uri = uri) (h : other ≠ uri) : ofFile index other = [] :=
  List.filter_eq_nil_iff.2 fun e he => by simp [own e he, h.symm]

private theorem without_of_forall (own : ∀ e ∈ index, e.uri = uri) : without index uri = [] :=
  List.filter_eq_nil_iff.2 fun e he => by simp [own e he]

end Index

/-! ### What is known of a file -/

/-- What a session knows of a file by its analyses. -/
structure Knowledge where
  entries : List IndexEntry
  tokens : Option (List Int)
  results : Option TestResults

/-- What the session knows of a file. -/
def Session.known (s : Session) (uri : String) : Knowledge :=
  ⟨Index.ofFile s.index uri, s.tokens.get? uri, s.results.get? uri⟩

namespace Analysis

variable {a : Analysis} {s : Session}

theorem ofFile_install (own : a.report.IsOn a.uri) : Index.ofFile (a.install s).index a.uri = a.report.index := by
  rw [install, newIndex, Index.ofFile_append, Index.ofFile_without_self, Index.ofFile_of_forall own, List.nil_append]

theorem known_install_of_ne (own : a.report.IsOn a.uri) (h : uri ≠ a.uri) : (a.install s).known uri = s.known uri := by
  rw [Session.known, install, newIndex, Index.ofFile_append, Index.ofFile_without_of_ne _ h,
    Index.ofFile_of_forall_of_ne own h, List.append_nil, ByFile.get?_set_of_ne _ _ h, ByFile.get?_remove_of_ne _ h]
  rfl

private theorem without_install (own : a.report.IsOn a.uri) :
    Index.without (a.install s).index a.uri = Index.without s.index a.uri := by
  rw [install, newIndex, Index.without_append, Index.without_without, Index.without_of_forall own, List.append_nil]

private theorem known_settle_of_ne (results : TestResults) (h : uri ≠ a.uri) :
    (a.settle results s).known uri = s.known uri := by
  rw [Session.known, settle, ByFile.get?_set_of_ne _ _ h]
  rfl

/-- An analysis that has begun is by the report on the file, and the document is the one that was read. -/
theorem of?_eq_some {services : Services} {r : VersionedReport} (h : of? services s uri r = .ok (some a)) :
    a.uri = uri ∧ a.report = r.report ∧ r.version = (s.document uri).version := by
  rw [of?] at h
  split at h
  · cases h
  · rename_i same
    obtain ⟨found, _, h⟩ := except_bind_eq_ok_iff.1 h
    cases h
    exact ⟨rfl, rfl, not_not.1 same⟩

end Analysis

/-! ### Activities -/

/-- How far an analysis is. -/
inductive Progress where
  /-- Its tests are running. -/
  | testing (a : Analysis) (own : a.report.IsOn a.uri)
  /-- Its entries are in the index, and some resources are left to be forgotten. -/
  | forgetting (a : Analysis) (results : TestResults) (left : List Index.Definition)

/-- A session with the analyses under way. -/
structure Activity where
  session : Session
  underWay : Multiset Progress

/-- What happens in a step. -/
inductive Action where
  /-- Nothing that belongs to an analysis. -/
  | elsewhere
  /-- A file is to be analyzed by a report on it; the analysis may have begun. -/
  | ask (uri : String) (r : VersionedReport) (begun : Option Analysis)
  /-- The tests have run, and the entries of the file are put into the index. -/
  | install (a : Analysis)
  /-- The tests could not be run to their end. -/
  | giveUp (a : Analysis)
  /-- A resource is forgotten. -/
  | forget (a : Analysis) (d : Index.Definition)
  /-- The analysis ends. -/
  | settle (a : Analysis)

namespace Action

/-- The file whose analysis makes the step. -/
def uri? : Action → Option String
  | .elsewhere => none
  | .ask uri _ _ => some uri
  | .install a => some a.uri
  | .giveUp a => some a.uri
  | .forget a _ => some a.uri
  | .settle a => some a.uri

/-- The analysis whose entries are put into the index. -/
def installed? : Action → Option Analysis
  | .install a => some a
  | _ => none

end Action

namespace Activity

/-- Nothing has happened yet. -/
def start : Activity :=
  ⟨.start, 0⟩

/-- What can happen next. -/
inductive Step : Activity → Action → Activity → Prop
  /-- Files are read, documents change, events come in: all that leaves alone what analyses found. -/
  | elsewhere (x : Activity) (s : Session) (index : s.index = x.session.index) (tokens : s.tokens = x.session.tokens)
      (results : s.results = x.session.results) : Step x .elsewhere { x with session := s }
  /-- The document has changed since it was read, or the first half of the analysis fails. -/
  | refuse (x : Activity) (services : Services) (uri : String) (r : VersionedReport)
      (refused : ∀ a, Analysis.of? services x.session uri r ≠ .ok (some a)) : Step x (.ask uri r none) x
  | begin (x : Activity) (services : Services) (uri : String) (r : VersionedReport) (a : Analysis)
      (begun : Analysis.of? services x.session uri r = .ok (some a)) (own : a.report.IsOn a.uri) :
      Step x (.ask uri r (some a)) { x with underWay := .testing a own ::ₘ x.underWay }
  | install (x : Activity) (a : Analysis) (own : a.report.IsOn a.uri) (others : Multiset Progress)
      (under : x.underWay = .testing a own ::ₘ others) (v : Analysis.Verdict)
      (verdict : a.verdict x.session.store.cache = .ok v) :
      Step x (.install a) ⟨a.install x.session, .forgetting a v.results (a.gone x.session.index) ::ₘ others⟩
  | giveUp (x : Activity) (a : Analysis) (own : a.report.IsOn a.uri) (others : Multiset Progress)
      (under : x.underWay = .testing a own ::ₘ others) (fault : Fault)
      (verdict : a.verdict x.session.store.cache = .error fault) : Step x (.giveUp a) { x with underWay := others }
  /-- Resources are forgotten one by one, in any order. -/
  | forget (x : Activity) (a : Analysis) (results : TestResults) (before after : List Index.Definition)
      (d : Index.Definition) (others : Multiset Progress)
      (under : x.underWay = .forgetting a results (before ++ d :: after) ::ₘ others) :
      Step x (.forget a d) ⟨x.session.forget d.resource, .forgetting a results (before ++ after) ::ₘ others⟩
  | settle (x : Activity) (a : Analysis) (results : TestResults) (others : Multiset Progress)
      (under : x.underWay = .forgetting a results [] ::ₘ others) :
      Step x (.settle a) ⟨a.settle results x.session, others⟩

/-- The activities to which steps lead, with the steps that led there, the latest first. -/
inductive Run : List Action → Activity → Prop
  | start : Run [] start
  | next {history : List Action} {x y : Activity} {action : Action} (run : Run history x) (step : Step x action y) :
      Run (action :: history) y

namespace Step

variable {x y : Activity} {action : Action}

/-- A step of the analysis of a file changes nothing that is known of another file, and other steps change nothing
that is known of any file. -/
theorem known_of_ne (step : Step x action y) (h : action.uri? ≠ some uri) :
    y.session.known uri = x.session.known uri := by
  have apart {own : String} (h : some own ≠ some uri) : uri ≠ own := fun e => h (e ▸ rfl)
  cases step with
  | elsewhere s index tokens results => rw [Session.known, index, tokens, results, Session.known]
  | refuse => rfl
  | begin => rfl
  | install a own => exact Analysis.known_install_of_ne own (apart h)
  | giveUp => rfl
  | forget => rfl
  | settle a results => exact Analysis.known_settle_of_ne results (apart h)

/-- A step of the analysis of a file leaves the entries of the other files as they are, in their order. -/
theorem without_eq (step : Step x action y) (h : action.uri? = some uri) :
    Index.without y.session.index uri = Index.without x.session.index uri := by
  cases step with
  | elsewhere => cases h
  | refuse => rfl
  | begin => rfl
  | install a own =>
    cases h
    exact Analysis.without_install own
  | giveUp => rfl
  | forget => rfl
  | settle => rfl

/-- Only the step that puts in the entries of a file changes entries and tokens. -/
theorem entries_eq (step : Step x action y) (h : action.installed? = none) :
    y.session.index = x.session.index ∧ y.session.tokens = x.session.tokens := by
  cases step with
  | elsewhere s index tokens => exact ⟨index, tokens⟩
  | refuse => exact ⟨rfl, rfl⟩
  | begin => exact ⟨rfl, rfl⟩
  | install => cases h
  | giveUp => exact ⟨rfl, rfl⟩
  | forget => exact ⟨rfl, rfl⟩
  | settle => exact ⟨rfl, rfl⟩

/-- An analysis by a report on another version of the document changes nothing. -/
theorem eq_of_version_ne {r : VersionedReport} {begun : Option Analysis} (step : Step x (.ask uri r begun) y)
    (changed : r.version ≠ (x.session.document uri).version) : y = x := by
  cases step with
  | refuse => rfl
  | begin services _ _ _ begun => exact absurd (Analysis.of?_eq_some begun).2.2 changed

end Step

end Activity

end ManifestLens
