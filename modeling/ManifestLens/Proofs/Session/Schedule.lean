import ManifestLens.Proofs.Session.Steps
import ManifestLens.Session.Turn

/-!
# Turns as one order of steps

Running the tasks in line is one of the orders in which the steps of an activity can come.  A turn that goes on with an
analysis makes all the steps that are left of it, without a break (`Activity.Run.finish`), and every other turn begins
at most one analysis.  What is kept from turn to turn is that the analyses whose tests are running are those in line
(`Testing`), and that each report that is kept is one on its file (`Session.Filed`).
-/

namespace ManifestLens

namespace Session

/-- The reports that are kept are on their files. -/
def Filed (s : Session) : Prop :=
  ∀ uri r, s.reports.get? uri = some r → r.report.IsOn uri

theorem filed_start : start.Filed := by
  intro uri r h
  cases h

/-- The index, the tokens and the results of tests are the same in both. -/
structure Leaves (s t : Session) : Prop where
  index : t.index = s.index
  tokens : t.tokens = s.tokens
  results : t.results = s.results

private theorem Leaves.trans {s t u : Session} (h : s.Leaves t) (h' : t.Leaves u) : s.Leaves u :=
  ⟨h'.index.trans h.index, h'.tokens.trans h.tokens, h'.results.trans h.results⟩

private theorem leaves_withAnalyzer (s : Session) (uri : String) : s.Leaves (s.withAnalyzer uri).1 := by
  unfold withAnalyzer
  split <;> exact ⟨rfl, rfl, rfl⟩

private theorem reports_withAnalyzer (s : Session) (uri : String) : (s.withAnalyzer uri).1.reports = s.reports := by
  unfold withAnalyzer
  split <;> rfl

private theorem leaves_post (s : Session) (uri : String) (e : Event) : s.Leaves (s.post uri e).1 := by
  unfold post
  split <;> exact ⟨rfl, rfl, rfl⟩

private theorem reports_post (s : Session) (uri : String) (e : Event) : (s.post uri e).1.reports = s.reports := by
  unfold post
  split <;> rfl

/-- The analysis whose tests are running, for a task that waits for them. -/
def Task.analysis? : Task → Option Analysis
  | .tests a _ => some a
  | .tested a _ => some a
  | .resume a _ => some a
  | _ => none

/-- The analyses in line. -/
def analysesOf (line : List Task) : List Analysis :=
  line.filterMap Task.analysis?

private theorem analysesOf_cons_of_none {t : Task} (h : t.analysis? = none) (line : List Task) :
    analysesOf (t :: line) = analysesOf line :=
  List.filterMap_cons_none h

private theorem analysesOf_append (a b : List Task) : analysesOf (a ++ b) = analysesOf a ++ analysesOf b :=
  List.filterMap_append ..

private theorem analysesOf_withAnalyzer (s : Session) (uri : String) : analysesOf (s.withAnalyzer uri).2 = [] := by
  unfold withAnalyzer
  split <;> rfl

private theorem analysesOf_post (s : Session) (uri : String) (e : Event) : analysesOf (s.post uri e).2 = [] := by
  unfold post
  split <;> rfl

end Session

/-! ### What is forgotten -/

/-- The resource that an effect tells to be forgotten, with its version. -/
def Effect.forgotten? : Effect → Option (ResourceName × Option String)
  | .forget resource version => some (resource, version)
  | _ => none

/-- The resource that a step forgets, with its version. -/
def Action.forgotten? : Action → Option (ResourceName × Option String)
  | .forget _ d => some (d.resource, d.version)
  | _ => none

private theorem Effect.filterMap_forgotten?_log (logs : List Log) :
    (logs.map Effect.log).filterMap Effect.forgotten? = [] := by
  simp [List.filterMap_map, List.filterMap_eq_nil_iff, forgotten?]

namespace Activity

/-- The tests of exactly these analyses are running, and nothing else is under way. -/
inductive Testing : List Analysis → Multiset Progress → Prop
  | nil : Testing [] 0
  | cons {a : Analysis} (own : a.report.IsOn a.uri) {others : List Analysis} {u : Multiset Progress}
      (rest : Testing others u) : Testing (a :: others) (.testing a own ::ₘ u)

private theorem Testing.perm {l l' : List Analysis} (h : l.Perm l') {u : Multiset Progress} (running : Testing l u) :
    Testing l' u := by
  induction h generalizing u with
  | nil => exact running
  | cons a _ ih =>
    cases running with
    | cons own rest => exact .cons own (ih rest)
  | swap a b _ =>
    cases running with
    | cons own rest =>
      cases rest with
      | cons own' rest =>
        rw [Multiset.cons_swap]
        exact .cons own' (.cons own rest)
  | trans _ _ ih ih' => exact ih' (ih running)

/-! ### The second half of an analysis without a break -/

namespace Run

variable {history : List Action} {s t : Session} {u : Multiset Progress} {a : Analysis}

theorem elsewhere {x : Activity} (run : Run history x) (leaves : x.session.Leaves t) :
    Run (.elsewhere :: history) { x with session := t } :=
  run.next (.elsewhere x t leaves.index leaves.tokens leaves.results)

/-- All that is left is forgotten, one resource after the other. -/
private theorem forgetAll {results : TestResults} (left : List Index.Definition)
    (run : Run history ⟨s, .forgetting a results left ::ₘ u⟩) :
    Run ((left.map (.forget a)).reverse ++ history)
      ⟨(left.map (·.resource)).foldl Session.forget s, .forgetting a results [] ::ₘ u⟩ := by
  induction left generalizing history s with
  | nil => exact run
  | cons d left ih =>
    have next := run.next (.forget _ a results [] left d u rfl)
    rw [List.map_cons, List.reverse_cons, List.append_assoc]
    exact ih next

theorem finish {effects : List Effect} {own : a.report.IsOn a.uri} (run : Run history ⟨s, .testing a own ::ₘ u⟩)
    (finished : a.finish s = .ok (t, effects)) :
    ∃ later, Run (later ++ history) ⟨t, u⟩ ∧ t.reports = s.reports ∧
      effects.filterMap Effect.forgotten? = (later.filterMap Action.forgotten?).reverse := by
  obtain ⟨v, verdict, finished⟩ := except_bind_eq_ok_iff.1 finished
  cases finished
  have installed := run.next (.install _ a own u rfl v verdict)
  have settled := (forgetAll _ installed).next (.settle _ a v.results u rfl)
  refine ⟨.settle a :: (((a.gone s.index).map (.forget a)).reverse ++ [.install a]), ?_, ?_, ?_⟩
  · rw [List.cons_append, List.append_assoc]
    exact settled
  · rw [Analysis.apply, Session.foldl_forget]
    rfl
  · simp [List.filterMap_cons, Effect.forgotten?, Action.forgotten?, List.filterMap_map, Function.comp_def]

private theorem fail {fault : Fault} {own : a.report.IsOn a.uri} (run : Run history ⟨s, .testing a own ::ₘ u⟩)
    (finished : a.finish s = .error fault) : Run (.giveUp a :: history) ⟨s, u⟩ := by
  cases verdict : a.verdict s.store.cache with
  | error e => exact run.next (.giveUp _ a own u rfl e verdict)
  | ok v =>
    rw [Analysis.finish, verdict] at finished
    cases finished

end Run

/-! ### Turns -/

/-- The turn is made of steps, and leaves in line the analyses whose tests are then running. -/
def Made (history : List Action) (rest : List Session.Task) (turn : Session.Turn) : Prop :=
  ∃ later u, Run (later ++ history) ⟨turn.session, u⟩ ∧
    Testing (Session.analysesOf (turn.front ++ rest ++ turn.back)) u ∧ turn.session.Filed ∧
    turn.effects.filterMap Effect.forgotten? = (later.filterMap Action.forgotten?).reverse

variable {history : List Action} {s : Session} {u : Multiset Progress} {rest : List Session.Task}

/-- A turn that changes nothing that analyses found, and leaves no new analysis in line. -/
private theorem made_of_leaves {turn : Session.Turn} (run : Run history ⟨s, u⟩)
    (running : Testing (Session.analysesOf rest) u) (leaves : s.Leaves turn.session) (filed : turn.session.Filed)
    (front : Session.analysesOf turn.front = []) (back : Session.analysesOf turn.back = [])
    (told : turn.effects.filterMap Effect.forgotten? = []) :
    Made history rest turn := by
  refine ⟨[.elsewhere], u, run.elsewhere leaves, ?_, filed, told⟩
  rw [Session.analysesOf_append, Session.analysesOf_append, front, back, List.nil_append, List.append_nil]
  exact running

private theorem made_conclude_finish {a : Analysis} {own : a.report.IsOn a.uri}
    (run : Run history ⟨s, .testing a own ::ₘ u⟩) (running : Testing (Session.analysesOf rest) u) (filed : s.Filed)
    (origin : Session.Origin) (uri : String) :
    Made history rest (s.conclude uri origin (a.finish s)) := by
  cases finished : a.finish s with
  | error fault =>
    refine ⟨[.giveUp a], u, ?_⟩
    have ended := run.fail finished
    cases origin with
    | analyzer =>
      refine ⟨ended, ?_, filed, rfl⟩
      rw [Session.conclude, Session.analysesOf_append, Session.analysesOf_cons_of_none rfl]
      simpa [Session.analysesOf] using running
    | direct =>
      refine ⟨ended, ?_, filed, rfl⟩
      simpa [Session.conclude] using running
  | ok r =>
    obtain ⟨t, effects⟩ := r
    obtain ⟨later, ended, reports, told⟩ := run.finish finished
    have filed : t.Filed := by rwa [Session.Filed, reports]
    cases origin with
    | analyzer =>
      refine ⟨later, u, ended, ?_, filed, ?_⟩
      · simp only [Session.conclude, List.append_nil, List.singleton_append]
        rwa [Session.analysesOf_cons_of_none rfl]
      · rw [← told]
        simp [Session.conclude, Effect.forgotten?]
    | direct =>
      refine ⟨.elsewhere :: later, u, ended.elsewhere (t.leaves_withAnalyzer uri), ?_, ?_, told⟩
      · simp only [Session.conclude, List.nil_append, Session.analysesOf_append, Session.analysesOf_withAnalyzer,
          List.append_nil]
        exact running
      · rw [Session.Filed, Session.conclude, Session.reports_withAnalyzer]
        exact filed

private theorem made_analyze (services : Services) (uri : String) (origin : Session.Origin) (run : Run history ⟨s, u⟩)
    (running : Testing (Session.analysesOf rest) u) (filed : s.Filed) :
    Made history rest (s.analyze services uri origin) := by
  have same : s.Leaves s := ⟨rfl, rfl, rfl⟩
  unfold Session.analyze
  split
  · cases origin <;> exact made_of_leaves run running same filed rfl rfl rfl
  · cases origin <;> exact made_of_leaves run running same filed rfl rfl rfl
  · rename_i a started
    rw [Analysis.start?] at started
    split at started
    · cases started
    · rename_i r kept
      have own : a.report.IsOn a.uri := by
        obtain ⟨sameUri, sameReport, _⟩ := Analysis.of?_eq_some started
        rw [sameUri, sameReport]
        exact filed uri r kept
      have begun := run.next (.begin _ services uri r a started own)
      split
      · -- the tests are to run, and the analysis joins the end of the line
        refine ⟨[.ask uri r (some a)], _, begun, ?_, filed, rfl⟩
        rw [List.nil_append, Session.analysesOf_append]
        exact (Testing.cons own running).perm (List.perm_append_singleton a _).symm
      · obtain ⟨later, w, reached, ends⟩ := made_conclude_finish begun running filed origin uri
        refine ⟨later ++ [.ask uri r (some a)], w, ?_, ends.1, ends.2.1, ?_⟩
        · rw [List.append_assoc]
          exact reached
        · rw [ends.2.2, List.filterMap_append]
          simp [Action.forgotten?]

private theorem made_read (services : Services) (uri : String) (run : Run history ⟨s, u⟩)
    (running : Testing (Session.analysesOf rest) u) (filed : s.Filed) : Made history rest (s.read services uri) := by
  have started := s.leaves_withAnalyzer uri
  have reports := s.reports_withAnalyzer uri
  simp only [Session.read]
  split
  · refine made_of_leaves run running ⟨started.index, started.tokens, started.results⟩ ?_ rfl
      (s.analysesOf_withAnalyzer uri) rfl
    rw [Session.Filed, reports]
    exact filed
  · rename_i report store made
    refine made_of_leaves run running ?_ ?_ rfl ?_ (Effect.filterMap_forgotten?_log _)
    · have posted := Session.leaves_post
        { (s.withAnalyzer uri).1 with
          store := store, reports := (s.withAnalyzer uri).1.reports.set uri ⟨(s.document uri).version, report⟩ }
        uri .changed
      exact started.trans ⟨posted.index, posted.tokens, posted.results⟩
    · have own := FileReport.isOn_ofFile (congrArg Prod.fst made)
      rw [Session.Filed, Session.reports_post, reports]
      intro other r kept
      by_cases same : other = uri
      · subst same
        rw [ByFile.get?_set_self] at kept
        cases kept
        exact own
      · rw [ByFile.get?_set_of_ne _ _ same] at kept
        exact filed other r kept
    · rw [Session.analysesOf_append, Session.analysesOf_withAnalyzer, Session.analysesOf_post]
      rfl

/-- A turn is made of steps. -/
private theorem made_perform (services : Services) (task : Session.Task) (run : Run history ⟨s, u⟩)
    (running : Testing (Session.analysesOf (task :: rest)) u) (filed : s.Filed) :
    Made history rest (s.perform services task) := by
  have same : s.Leaves s := ⟨rfl, rfl, rfl⟩
  -- the tests of an analysis go on, and it moves to the end of the line
  have moved {turn : Session.Turn} {a : Analysis} (running : Testing (a :: Session.analysesOf rest) u)
      (session : turn.session = s) (front : turn.front = []) (back : Session.analysesOf turn.back = [a])
      (told : turn.effects = []) : Made history rest turn := by
    refine ⟨[], u, by rwa [session], ?_, by rwa [session], by rw [told]; rfl⟩
    rw [front, List.nil_append, Session.analysesOf_append, back]
    exact running.perm (List.perm_append_singleton a _).symm
  cases task with
  | readAll uris =>
    have running : Testing (Session.analysesOf rest) u := running
    cases uris with
    | nil => exact made_of_leaves run running same filed rfl rfl rfl
    | cons uri more => exact made_of_leaves run running same filed rfl rfl rfl
  | read uri more =>
    have running : Testing (Session.analysesOf rest) u := running
    obtain ⟨later, w, reached, tests, kept, told⟩ := made_read services uri run running filed
    refine ⟨later, w, reached, ?_, kept, told⟩
    rw [Session.perform, ← List.append_assoc, Session.analysesOf_append, Session.analysesOf_cons_of_none rfl]
    simpa [Session.analysesOf] using tests
  | analyzer uri =>
    have running : Testing (Session.analysesOf rest) u := running
    simp only [Session.perform]
    split
    · exact made_of_leaves run running ⟨rfl, rfl, rfl⟩ filed rfl rfl rfl
    · exact made_of_leaves run running ⟨rfl, rfl, rfl⟩ filed rfl rfl rfl
    · rename_i left _
      obtain ⟨later, w, reached, ends⟩ := made_analyze (s := { s with pending := left }) services uri .analyzer
        (run.elsewhere ⟨rfl, rfl, rfl⟩) running filed
      refine ⟨later ++ [.elsewhere], w, ?_, ends.1, ends.2.1, ?_⟩
      · rw [List.append_assoc]
        exact reached
      · rw [ends.2.2, List.filterMap_append]
        simp [Action.forgotten?]
  | direct uri =>
    have running : Testing (Session.analysesOf rest) u := running
    exact made_analyze services uri .direct run running filed
  | tests a origin => exact moved running rfl rfl rfl rfl
  | tested a origin => exact moved running rfl rfl rfl rfl
  | resume a origin =>
    cases running with
    | cons own others => exact made_conclude_finish run others filed origin a.uri
  | remove uri fault =>
    have running : Testing (Session.analysesOf rest) u := running
    exact made_of_leaves run running ⟨rfl, rfl, rfl⟩ filed rfl rfl rfl

/-- Running the tasks in line makes steps until no analysis is under way; it tells to forget what the steps forget. -/
theorem Run.line (services : Services) (s : Session) (line : List Session.Task) {history : List Action}
    {u : Multiset Progress} (run : Run history ⟨s, u⟩) (running : Testing (Session.analysesOf line) u)
    (filed : s.Filed) :
    ∃ later, Run (later ++ history) ⟨(s.run services line).1, 0⟩ ∧ (s.run services line).1.Filed ∧
      (s.run services line).2.filterMap Effect.forgotten? = (later.filterMap Action.forgotten?).reverse := by
  induction s, line using Session.run.induct services generalizing history u with
  | case1 s =>
    rw [Session.run]
    cases running
    exact ⟨[], run, filed, rfl⟩
  | case2 s task rest ih =>
    obtain ⟨later, w, reached, tests, kept, told⟩ := made_perform services task run running filed
    obtain ⟨more, done, keptDone, toldDone⟩ := ih reached tests kept
    rw [Session.run]
    refine ⟨more ++ later, ?_, keptDone, ?_⟩
    · rw [List.append_assoc]
      exact done
    · rw [List.filterMap_append, told, toldDone, List.filterMap_append, List.reverse_append]

end Activity

end ManifestLens
