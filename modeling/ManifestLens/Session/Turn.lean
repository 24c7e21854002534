import ManifestLens.Session.Analysis

/-!
# Turns

Files are read and analyzed in turns.  A task runs without a break when its turn comes; what has to wait joins the end
of the line, and what goes on at once its front.  Every turn leaves less to do, so the line comes to an end.
-/

namespace ManifestLens.Session

/-- Who asked for an analysis: the analyzer of the file, or somebody directly. -/
inductive Origin where
  | analyzer
  | direct
  deriving DecidableEq, Inhabited

/-- What can run. -/
inductive Task where
  /-- Files are to be read, one after the other. -/
  | readAll (uris : List String)
  /-- A file is read, and others after it. -/
  | read (uri : String) (rest : List String)
  /-- The analyzer of a file looks for events. -/
  | analyzer (uri : String)
  /-- A file is analyzed directly. -/
  | direct (uri : String)
  /-- The tests of an analysis run. -/
  | tests (a : Analysis) (origin : Origin)
  /-- The tests of an analysis have run. -/
  | tested (a : Analysis) (origin : Origin)
  /-- An analysis goes on with its second half. -/
  | resume (a : Analysis) (origin : Origin)
  /-- The analyzer of a file is removed. -/
  | remove (uri : String) (fault : Option Fault)

/-- What comes of a turn. -/
structure Turn where
  session : Session
  effects : List Effect := []
  /-- What goes on at once. -/
  front : List Task := []
  /-- What joins the end of the line. -/
  back : List Task := []

/-- A file gets an analyzer if it has none. -/
def withAnalyzer (s : Session) (uri : String) : Session × List Task :=
  if s.analyzers.contains uri then (s, [])
  else ({ s with analyzers := uri :: s.analyzers, registered := uri :: s.registered }, [.analyzer uri])

/-- Leaves an event for the analyzer of a file, which runs if it waits for events. -/
def post (s : Session) (uri : String) (e : Event) : Session × List Task :=
  if s.idle.contains uri then
    ({ s with pending := s.pending ++ [(uri, e)], idle := s.idle.filter (· != uri) }, [.analyzer uri])
  else ({ s with pending := s.pending ++ [(uri, e)] }, [])

/-- Reads a file and tells its analyzer; a file that cannot be read leaves the earlier report in place. -/
def read (services : Services) (s : Session) (uri : String) : Turn :=
  let document := s.document uri
  let (s, started) := s.withAnalyzer uri
  match FileReport.ofFile services uri document.file s.store with
  | (.error _, store) => { session := { s with store := store }, back := started }
  | (.ok report, store) =>
    let s := { s with store := store, reports := s.reports.set uri ⟨document.version, report⟩ }
    let (s, woken) := s.post uri .changed
    { session := s, effects := report.logs.map .log, back := started ++ woken }

/-- What follows an analysis. -/
def conclude (s : Session) (uri : String) (origin : Origin) (result : Except Fault (Session × List Effect)) : Turn :=
  match origin, result with
  | .analyzer, .error fault => { session := s, back := [.remove uri (some fault)] }
  | .analyzer, .ok (s, effects) =>
    { session := s, effects := effects ++ [.refreshHints, .refreshLenses], front := [.analyzer uri] }
  | .direct, .error fault => { session := s, effects := [.refused fault] }
  | .direct, .ok (s, effects) =>
    let (s, started) := s.withAnalyzer uri
    { session := s, effects := effects, back := started }

/-- Analyzes a file, up to its tests if it has some. -/
def analyze (services : Services) (s : Session) (uri : String) (origin : Origin) : Turn :=
  match Analysis.start? services s uri with
  | .error fault => s.conclude uri origin (.error fault)
  | .ok none =>
    match origin with
    | .analyzer => s.conclude uri origin (.ok (s, []))
    | .direct => { session := s }
  | .ok (some a) =>
    if Analysis.runsTests services s.store.cache a.report.index then { session := s, back := [.tests a origin] }
    else s.conclude uri origin (a.finish s)

/-- The first event for a file, and the others. -/
def take? (uri : String) : List (String × Event) → Option (Event × List (String × Event))
  | [] => none
  | (u, e) :: rest =>
    if u == uri then some (e, rest) else (take? uri rest).map fun (found, left) => (found, (u, e) :: left)

/-- Runs a task. -/
def perform (services : Services) (s : Session) : Task → Turn
  | .readAll [] => { session := s }
  | .readAll (uri :: rest) => { session := s, back := [.read uri rest] }
  | .read uri rest =>
    let turn := s.read services uri
    { turn with back := turn.back ++ [.readAll rest] }
  | .analyzer uri =>
    match take? uri s.pending with
    | none => { session := { s with idle := uri :: s.idle } }
    | some (.kill, left) => { session := { s with pending := left }, back := [.remove uri none] }
    | some (.changed, left) => analyze services { s with pending := left } uri .analyzer
  | .direct uri => s.analyze services uri .direct
  | .tests a origin => { session := s, back := [.tested a origin] }
  | .tested a origin => { session := s, back := [.resume a origin] }
  | .resume a origin => s.conclude a.uri origin (a.finish s)
  | .remove uri fault =>
    { session := { s with analyzers := s.analyzers.filter (· != uri) }, effects := [.ended uri fault] }

/-! ### Running the line -/

/-- A bound on what a task gives rise to. -/
def Task.weight : Task → Nat
  | .readAll uris => 1 + 10 * uris.length
  | .read _ rest => 10 + 10 * rest.length
  | .analyzer _ => 1
  | .direct _ => 6
  | .tests _ _ => 5
  | .tested _ _ => 4
  | .resume _ _ => 3
  | .remove _ _ => 1

/-- The weight of all tasks in line. -/
def weight : List Task → Nat
  | [] => 0
  | t :: line => t.weight + weight line

@[simp] theorem weight_nil : weight [] = 0 := rfl

@[simp] theorem weight_cons (t : Task) (line : List Task) : weight (t :: line) = t.weight + weight line :=
  rfl

@[simp] theorem weight_append (a b : List Task) : weight (a ++ b) = weight a + weight b := by
  induction a with
  | nil => simp
  | cons t a ih => simp [ih, Nat.add_assoc]

theorem length_of_take? {uri : String} {pending left : List (String × Event)} {e : Event}
    (h : take? uri pending = some (e, left)) : pending.length = left.length + 1 := by
  induction pending generalizing left with
  | nil => simp [take?] at h
  | cons p rest ih =>
    obtain ⟨u, f⟩ := p
    simp only [take?] at h
    split at h
    · obtain ⟨rfl, rfl⟩ := by simpa using h
      rfl
    · obtain ⟨⟨f', left'⟩, hl, hf⟩ := Option.map_eq_some_iff.1 h
      simp only [Prod.mk.injEq] at hf
      obtain ⟨rfl, rfl⟩ := hf
      simp [ih hl]

theorem withAnalyzer_bounds (s : Session) (uri : String) :
    (s.withAnalyzer uri).1.pending = s.pending ∧ weight (s.withAnalyzer uri).2 ≤ 1 := by
  unfold withAnalyzer
  split <;> simp [Task.weight]

theorem post_bounds (s : Session) (uri : String) (e : Event) :
    (s.post uri e).1.pending.length = s.pending.length + 1 ∧ weight (s.post uri e).2 ≤ 1 := by
  unfold post
  split <;> simp [Task.weight]

/-- The weight of what a turn leaves to do in line. -/
def Turn.weight (t : Turn) : Nat :=
  Session.weight t.front + Session.weight t.back

private theorem conclude_bounds (s : Session) (uri : String) (origin : Origin)
    (result : Except Fault (Session × List Effect))
    (h : ∀ t effects, result = .ok (t, effects) → t.pending = s.pending) :
    (s.conclude uri origin result).session.pending = s.pending ∧ (s.conclude uri origin result).weight ≤ 1 := by
  cases result with
  | error fault => cases origin <;> simp [conclude, Turn.weight, Task.weight]
  | ok r =>
    obtain ⟨t, effects⟩ := r
    have same := h t effects rfl
    cases origin with
    | analyzer => simp [conclude, Turn.weight, Task.weight, same]
    | direct =>
      have bounds := withAnalyzer_bounds t uri
      simp only [conclude, Turn.weight, weight_nil, Nat.zero_add]
      exact ⟨bounds.1.trans same, bounds.2⟩

private theorem analyze_bounds (services : Services) (s : Session) (uri : String) (origin : Origin) :
    (s.analyze services uri origin).session.pending = s.pending ∧ (s.analyze services uri origin).weight ≤ 5 := by
  unfold analyze
  split
  · rename_i fault _
    have bounds := conclude_bounds s uri origin (.error fault) (by simp)
    exact ⟨bounds.1, by omega⟩
  · cases origin with
    | analyzer =>
      have bounds := conclude_bounds s uri .analyzer (.ok (s, [])) (by simp)
      exact ⟨bounds.1, Nat.le_trans bounds.2 (by omega)⟩
    | direct => simp [Turn.weight]
  · rename_i a _
    split
    · simp [Turn.weight, Task.weight]
    · have bounds := conclude_bounds s uri origin (a.finish s) fun _ _ h => Analysis.pending_of_finish h
      exact ⟨bounds.1, by omega⟩

private theorem read_bounds (services : Services) (s : Session) (uri : String) :
    (s.read services uri).session.pending.length ≤ s.pending.length + 1 ∧ (s.read services uri).front = [] ∧
      weight (s.read services uri).back ≤ 2 := by
  have started := withAnalyzer_bounds s uri
  simp only [read]
  split
  · exact ⟨by simp only [started.1]; omega, rfl, by simp only; omega⟩
  · rename_i report store _
    have woken := post_bounds
      { (s.withAnalyzer uri).1 with
        store := store, reports := (s.withAnalyzer uri).1.reports.set uri ⟨(s.document uri).version, report⟩ }
      uri .changed
    have same := congrArg List.length started.1
    simp only at woken
    exact ⟨by simp only; omega, rfl, by simp only [weight_append]; omega⟩

/-- Every turn leaves less to do. -/
theorem toDo_perform (services : Services) (s : Session) (t : Task) :
    (s.perform services t).weight + 6 * (s.perform services t).session.pending.length <
      t.weight + 6 * s.pending.length := by
  cases t with
  | readAll uris =>
    cases uris with
    | nil => simp [perform, Turn.weight, Task.weight]
    | cons uri rest => simp [perform, Turn.weight, Task.weight]; omega
  | read uri rest =>
    have bounds := read_bounds services s uri
    simp only [perform, Turn.weight, bounds.2.1, weight_append, weight_cons, weight_nil, Task.weight]
    omega
  | analyzer uri =>
    simp only [perform]
    split
    · simp [Turn.weight, Task.weight]
    · rename_i left h
      have := length_of_take? h
      simp [Turn.weight, Task.weight]
      omega
    · rename_i left h
      have := length_of_take? h
      have bounds := analyze_bounds services { s with pending := left } uri .analyzer
      simp only [bounds.1, Task.weight]
      omega
  | direct uri =>
    have bounds := analyze_bounds services s uri .direct
    simp only [perform, bounds.1, Task.weight]
    omega
  | tests a origin => simp [perform, Turn.weight, Task.weight]
  | tested a origin => simp [perform, Turn.weight, Task.weight]
  | resume a origin =>
    have bounds := conclude_bounds s a.uri origin (a.finish s) fun _ _ h => Analysis.pending_of_finish h
    simp only [perform, bounds.1, Task.weight]
    omega
  | remove uri fault => simp [perform, Turn.weight, Task.weight]

/-- Runs the tasks in line and all that they give rise to. -/
def run (services : Services) (s : Session) (line : List Task) : Session × List Effect :=
  match line with
  | [] => (s, [])
  | task :: rest =>
    let after := run services (s.perform services task).session
      ((s.perform services task).front ++ rest ++ (s.perform services task).back)
    (after.1, (s.perform services task).effects ++ after.2)
termination_by weight line + 6 * s.pending.length
decreasing_by
  have less := toDo_perform services s task
  simp only [Turn.weight, weight_append, weight_cons] at less ⊢
  omega

end ManifestLens.Session
