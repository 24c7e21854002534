import ManifestLens.Proofs.Session.Schedule
import ManifestLens.Session.Request

/-!
# The index holds the latest analyses

Whatever the order of steps, a session holds for each file the entries and tokens of the latest analysis of that file
that put its entries into the index (`latest?`), and nothing of earlier ones (`Activity.Run.upToDate`).  Such an
analysis began with the document as it was read (`Activity.Begun`).
-/

namespace ManifestLens.Activity

/-- The latest analysis of a file whose entries were put into the index. -/
def latest? (history : List Action) (uri : String) : Option Analysis :=
  (history.filterMap Action.installed?).find? (·.uri == uri)

section

variable {history : List Action} {uri : String} {a : Analysis} {action : Action} {x y : Activity}

private theorem latest?_cons_of_none (h : action.installed? = none) (history : List Action) (uri : String) :
    latest? (action :: history) uri = latest? history uri := by
  rw [latest?, List.filterMap_cons_none h, latest?]

private theorem latest?_install_self (a : Analysis) (history : List Action) :
    latest? (.install a :: history) a.uri = some a := by
  simp [latest?, Action.installed?]

private theorem latest?_install_of_ne (history : List Action) (h : uri ≠ a.uri) :
    latest? (.install a :: history) uri = latest? history uri := by
  simp [latest?, Action.installed?, h.symm]

private theorem mem_of_latest? (h : latest? history uri = some a) : a.uri = uri ∧ .install a ∈ history := by
  rw [latest?] at h
  have same := List.find?_some h
  refine ⟨by simpa using same, ?_⟩
  obtain ⟨action, mem, installed⟩ := List.mem_filterMap.1 (List.mem_of_find?_eq_some h)
  cases action <;> cases installed
  exact mem

/-! ### What the session holds -/

/-- The session holds the entries and tokens of the latest analyses. -/
structure UpToDate (history : List Action) (s : Session) : Prop where
  entries : ∀ uri, Index.ofFile s.index uri = ((latest? history uri).map (·.report.index)).getD []
  tokens : ∀ uri, s.tokens.get? uri = (latest? history uri).map (·.report.tokens)

private theorem UpToDate.install {s : Session} (h : UpToDate history s) (own : a.report.IsOn a.uri) :
    UpToDate (.install a :: history) (a.install s) := by
  constructor
  · intro uri
    by_cases same : uri = a.uri
    · subst same
      rw [Analysis.ofFile_install own, latest?_install_self]
      rfl
    · rw [latest?_install_of_ne history same, ← h.entries uri]
      exact congrArg Knowledge.entries (Analysis.known_install_of_ne own same)
  · intro uri
    by_cases same : uri = a.uri
    · subst same
      rw [Analysis.install, ByFile.get?_set_self, latest?_install_self]
      rfl
    · rw [latest?_install_of_ne history same, ← h.tokens uri]
      exact congrArg Knowledge.tokens (Analysis.known_install_of_ne own same)

theorem Step.upToDate (step : Step x action y) (h : UpToDate history x.session) :
    UpToDate (action :: history) y.session := by
  have others (none : action.installed? = none) : UpToDate (action :: history) y.session := by
    obtain ⟨index, tokens⟩ := step.entries_eq none
    refine ⟨fun uri => ?_, fun uri => ?_⟩
    · rw [index, latest?_cons_of_none none, h.entries]
    · rw [tokens, latest?_cons_of_none none, h.tokens]
  cases step with
  | install a own => exact h.install own
  | _ => exact others rfl

theorem Run.upToDate (run : Run history x) : UpToDate history x.session := by
  induction run with
  | start => exact ⟨fun _ => rfl, fun _ => rfl⟩
  | next _ step ih => exact step.upToDate ih

/-! ### Where analyses come from -/

/-- The analysis began at some point of the history, by a report on the document as it was then. -/
def Begun (history : List Action) (a : Analysis) : Prop :=
  ∃ later earlier x r, history = later ++ .ask a.uri r (some a) :: earlier ∧ Run earlier x ∧ a.report = r.report ∧
    r.version = (x.session.document a.uri).version

private theorem Begun.cons (h : Begun history a) (action : Action) : Begun (action :: history) a := by
  obtain ⟨later, earlier, x, r, rfl, begun⟩ := h
  exact ⟨action :: later, earlier, x, r, rfl, begun⟩

/-- The analyses whose tests are running, and those whose entries were put into the index, have begun. -/
private theorem Run.begun (run : Run history x) :
    (∀ a own, .testing a own ∈ x.underWay → Begun history a) ∧ ∀ a, .install a ∈ history → Begun history a := by
  induction run with
  | start => exact ⟨fun _ _ mem => absurd mem (Multiset.notMem_zero _), fun _ mem => nomatch mem⟩
  | @next history x y action run step ih =>
    obtain ⟨testing, installed⟩ := ih
    -- an analysis whose tests are still running was so before, or it begins now
    have goesOn (mem : ∀ a own, .testing a own ∈ y.underWay → .testing a own ∈ x.underWay) a own
        (under : .testing a own ∈ y.underWay) : Begun (action :: history) a :=
      (testing a own (mem a own under)).cons action
    have earlier (other : action.installed? = none) a (mem : .install a ∈ action :: history) :
        Begun (action :: history) a := by
      rcases List.mem_cons.1 mem with rfl | mem
      · cases other
      · exact (installed a mem).cons action
    cases step with
    | elsewhere => exact ⟨goesOn fun _ _ => id, earlier rfl⟩
    | refuse => exact ⟨goesOn fun _ _ => id, earlier rfl⟩
    | begin services uri r a begun own =>
      refine ⟨fun b own' under => ?_, earlier rfl⟩
      rcases Multiset.mem_cons.1 under with same | under
      · cases same
        obtain ⟨rfl, report, version⟩ := Analysis.of?_eq_some begun
        exact ⟨[], history, x, r, rfl, run, report, version⟩
      · exact (testing b own' under).cons _
    | install a own others under =>
      rw [under] at testing
      refine ⟨fun b own' mem => ?_, fun b mem => ?_⟩
      · rcases Multiset.mem_cons.1 mem with same | mem
        · cases same
        · exact (testing b own' (Multiset.mem_cons_of_mem mem)).cons _
      · rcases List.mem_cons.1 mem with same | mem
        · cases same
          exact (testing a own (Multiset.mem_cons_self _ _)).cons _
        · exact (installed b mem).cons _
    | giveUp a own others under =>
      refine ⟨goesOn fun b own' mem => ?_, earlier rfl⟩
      rw [under]
      exact Multiset.mem_cons_of_mem mem
    | forget a results before after d others under =>
      refine ⟨goesOn fun b own' mem => ?_, earlier rfl⟩
      rcases Multiset.mem_cons.1 mem with same | mem
      · cases same
      · rw [under]
        exact Multiset.mem_cons_of_mem mem
    | settle a results others under =>
      refine ⟨goesOn fun b own' mem => ?_, earlier rfl⟩
      rw [under]
      exact Multiset.mem_cons_of_mem mem

/-! ### Documents that are opened -/

/-- A document that the editor shows is read and analyzed in steps, until nothing is under way. -/
theorem Run.openDocument {s : Session} (services : Services) (uri : String) (d : Document) (run : Run history ⟨s, 0⟩)
    (filed : s.Filed) :
    ∃ later, Run (later ++ history) ⟨(s.openDocument services uri d).1, 0⟩ ∧ (s.openDocument services uri d).1.Filed ∧
      (s.openDocument services uri d).2.filterMap Effect.forgotten? = (later.filterMap Action.forgotten?).reverse := by
  have shown : s.Leaves (s.withDocument uri d) := ⟨rfl, rfl, rfl⟩
  obtain ⟨later, reached, kept, told⟩ := Run.line services (s.withDocument uri d) [.readAll [uri]]
    (run.elsewhere shown) .nil filed
  refine ⟨later ++ [.elsewhere], ?_, kept, ?_⟩
  · rw [List.append_assoc]
    exact reached
  · rw [List.filterMap_append, List.filterMap_cons_none rfl, List.filterMap_nil, List.append_nil]
    exact told

end

/-- In whatever order steps come, the entries of each file in the index are those of its latest analysis that put its
entries there, in their order, and so are its tokens; that analysis began with the document as it was read.  No step of
an analysis moves the entries of other files or changes what is known of them, and one by a report on another version
of the document changes nothing.  Running the tasks in line is such an order of steps. -/
theorem index_eq_latest {history : List Action} {x : Activity} (run : Run history x) :
    (∀ uri, Index.ofFile x.session.index uri = ((latest? history uri).map (·.report.index)).getD [] ∧
      x.session.tokens.get? uri = (latest? history uri).map (·.report.tokens) ∧
      ∀ a, latest? history uri = some a → a.uri = uri ∧ Begun history a) ∧
    (∀ action y, Step x action y → ∀ uri,
      (action.uri? = some uri → Index.without y.session.index uri = Index.without x.session.index uri) ∧
      (action.uri? ≠ some uri → y.session.known uri = x.session.known uri)) ∧
    (∀ uri r begun y, Step x (.ask uri r begun) y → r.version ≠ (x.session.document uri).version → y = x) ∧
    ∀ services line, Testing (Session.analysesOf line) x.underWay → x.session.Filed →
      ∃ later, Run (later ++ history) ⟨(x.session.run services line).1, 0⟩ := by
  refine ⟨fun uri => ⟨run.upToDate.entries uri, run.upToDate.tokens uri, fun a latest => ?_⟩, ?_, ?_, ?_⟩
  · obtain ⟨same, installed⟩ := mem_of_latest? latest
    exact ⟨same, run.begun.2 a installed⟩
  · exact fun action y step uri => ⟨step.without_eq, step.known_of_ne⟩
  · exact fun uri r begun y step => step.eq_of_version_ne
  · intro services line running filed
    obtain ⟨later, reached, _⟩ := Run.line services x.session line run running filed
    exact ⟨later, reached⟩

/-- An analysis of a file in which a step stands at a line, and no tests. -/
def stepAnalysis (version line : Int) : Analysis :=
  let entry : IndexEntry := ⟨"a.yaml", "Step:main", ⟨⟨line, 0⟩, ⟨line, 4⟩⟩, none⟩
  ⟨"a.yaml", some version, ⟨[line], [entry], [], []⟩, [], [], .ok ([], [])⟩

/-- No pattern that the name of a step does not match finds anything in the file. -/
private theorem named_stepAnalysis {pattern : KeyPattern} (other : pattern.name? "Step:main" = none)
    (version line : Int) :
    Index.named pattern (stepAnalysis version line).report.index = [] := by
  simp [Index.named, stepAnalysis, other]

private theorem Run.ask_stepAnalysis {history : List Action} {x : Activity} (run : Run history x) (version line : Int) :
    ∃ s own,
      Run (.ask "a.yaml" ⟨some version, (stepAnalysis version line).report⟩ (some (stepAnalysis version line)) ::
        .elsewhere :: history) ⟨s, .testing (stepAnalysis version line) own ::ₘ x.underWay⟩ := by
  have shown := run.next (.elsewhere x (x.session.withDocument "a.yaml" ⟨.ofText "" true, some version⟩) rfl rfl rfl)
  have own : (stepAnalysis version line).report.IsOn (stepAnalysis version line).uri := by
    simp [FileReport.IsOn, stepAnalysis]
  refine ⟨_, own, shown.next (.begin _ ⟨fun _ _ => .prepared .other, fun _ _ => []⟩ _ _ _ ?_ own)⟩
  rw [Analysis.of?, if_neg (by simp [Session.document, Session.withDocument])]
  dsimp only
  rw [Index.workflows, Analysis.testsIn, Analysis.functions, named_stepAnalysis (by decide +kernel),
    named_stepAnalysis (by decide +kernel)]
  simp only [List.map_cons, List.map_nil]
  rw [named_stepAnalysis (by decide +kernel), named_stepAnalysis (by decide +kernel)]
  rfl

private theorem Run.install {history : List Action} {x : Activity} {a : Analysis} {v : Analysis.Verdict}
    (run : Run history x) (own : a.report.IsOn a.uri) (under : .testing a own ∈ x.underWay)
    (verdict : a.verdict x.session.store.cache = .ok v) :
    ∃ u, Run (.install a :: history) ⟨a.install x.session, u⟩ := by
  obtain ⟨others, under⟩ := Multiset.exists_cons_of_mem under
  exact ⟨_, run.next (.install x a own others under v verdict)⟩

/-- The analysis of an earlier version of a document may end after that of a later one, and is then the latest. -/
theorem index_eq_latest_overtaken :
    ∃ history x, Run history x ∧ history.filterMap Action.installed? = [stepAnalysis 1 0, stepAnalysis 2 5] ∧
      Index.ofFile x.session.index "a.yaml" = (stepAnalysis 1 0).report.index ∧
      x.session.tokens.get? "a.yaml" = some [0] := by
  have verdict (cache : Cache) (version line : Int) : (stepAnalysis version line).verdict cache = .ok ⟨[], [], []⟩ := by
    have none : KeyPattern.definition.match? "Step:main" = none := by decide +kernel
    have undefined : Index.definitions (stepAnalysis version line).report.index = [] := by
      simp [Index.definitions, Index.resource?, stepAnalysis, none]
    rw [Analysis.verdict, undefined]
    rfl
  obtain ⟨s, own, first⟩ := Run.start.ask_stepAnalysis 1 0
  obtain ⟨t, own', second⟩ := first.ask_stepAnalysis 2 5
  have overtaken := second.next (.install _ _ own' (.testing _ own ::ₘ 0) rfl _ (verdict _ 2 5))
  obtain ⟨u, run⟩ := overtaken.install own (by simp) (verdict _ 1 0)
  obtain ⟨entries, tokens, _⟩ := (index_eq_latest run).1 "a.yaml"
  exact ⟨_, _, run, rfl, entries, tokens⟩

end ManifestLens.Activity
