import ManifestLens.Proofs.Session.Latest

/-!
# What analyses forget

An analysis forgets the resources that its file defined by its latest analysis before, and no longer defines
(`Activity.TakesAway`): each of them, and no others.  Other files are not looked at.  So a resource that moved to
another file, or was copied there, is forgotten although the other file defines it, and in the same version where the
text is the same.
-/

namespace ManifestLens

/-- The entry defines the resource in the version of the definition. -/
def IndexEntry.Repeats (e : IndexEntry) (d : Index.Definition) : Prop :=
  e.name = s!"{d.resource.kind}:{d.resource.name}:def" ∧ e.version = d.version

instance (e : IndexEntry) (d : Index.Definition) : Decidable (e.Repeats d) :=
  inferInstanceAs (Decidable (_ ∧ _))

namespace Activity

/-- After the given steps, the file of an analysis defines a resource that it does not define by the analysis. -/
def TakesAway (earlier : List Action) (a : Analysis) (d : Index.Definition) : Prop :=
  (∃ b, latest? earlier a.uri = some b ∧ d ∈ Index.definitions b.report.index) ∧
    ∀ e ∈ Index.definitions a.report.index, e.resource ≠ d.resource

/-- The definitions that are left to be forgotten were taken away when the entries of the analysis were put into the
index, and the others that were taken away have been forgotten since then. -/
def Owed (history : List Action) (a : Analysis) (left : List Index.Definition) : Prop :=
  ∃ later earlier, history = later ++ .install a :: earlier ∧ (∀ d ∈ left, TakesAway earlier a d) ∧
    ∀ d, TakesAway earlier a d → d ∈ left ∨ .forget a d ∈ later

section

variable {history : List Action} {a : Analysis} {x : Activity}

private theorem mem_gone_iff {s : Session} (h : UpToDate history s) (d : Index.Definition) :
    d ∈ a.gone s.index ↔ TakesAway history a d := by
  have before : d ∈ Index.definitions (Index.ofFile s.index a.uri) ↔
      ∃ b, latest? history a.uri = some b ∧ d ∈ Index.definitions b.report.index := by
    rw [h.entries]
    cases latest? history a.uri with
    | none => simp [Index.definitions]
    | some b => simp
  have now : (!((Index.definitions a.report.index).map (·.resource)).contains d.resource) = true ↔
      ∀ e ∈ Index.definitions a.report.index, e.resource ≠ d.resource := by
    simp
  rw [Analysis.gone, List.mem_filter, before, now, TakesAway]

private theorem Owed.cons {left : List Index.Definition} (h : Owed history a left) (action : Action) :
    Owed (action :: history) a left := by
  obtain ⟨later, earlier, rfl, taken, settled⟩ := h
  exact ⟨action :: later, earlier, rfl, taken, fun d h => (settled d h).imp_right (List.mem_cons_of_mem _)⟩

private theorem Owed.forget {before after : List Index.Definition} {d : Index.Definition}
    (h : Owed history a (before ++ d :: after)) : Owed (.forget a d :: history) a (before ++ after) := by
  obtain ⟨later, earlier, rfl, taken, settled⟩ := h
  refine ⟨.forget a d :: later, earlier, rfl, fun c mem => taken c ?_, fun c h => ?_⟩
  · rcases List.mem_append.1 mem with mem | mem
    · exact List.mem_append_left _ mem
    · exact List.mem_append_right _ (List.mem_cons_of_mem _ mem)
  · rcases settled c h with mem | mem
    · rcases List.mem_append.1 mem with mem | mem
      · exact .inl (List.mem_append_left _ mem)
      · rcases List.mem_cons.1 mem with rfl | mem
        · exact .inr List.mem_cons_self
        · exact .inl (List.mem_append_right _ mem)
    · exact .inr (List.mem_cons_of_mem _ mem)

/-- The analyses under way forget what they took away. -/
private theorem Run.owed (run : Run history x) {results : TestResults} {left : List Index.Definition}
    (under : .forgetting a results left ∈ x.underWay) : Owed history a left := by
  induction run generalizing a results left with
  | start => exact absurd under (Multiset.notMem_zero _)
  | @next history x y action run step ih =>
    cases step with
    | elsewhere => exact (ih under).cons _
    | refuse => exact (ih under).cons _
    | begin services uri r b begun own =>
      rcases Multiset.mem_cons.1 under with same | under
      · cases same
      · exact (ih under).cons _
    | install b own others before v verdict =>
      rw [before] at ih
      rcases Multiset.mem_cons.1 under with same | under
      · cases same
        exact ⟨[], history, rfl, fun d => (mem_gone_iff run.upToDate d).1,
          fun d h => .inl ((mem_gone_iff run.upToDate d).2 h)⟩
      · exact (ih (Multiset.mem_cons_of_mem under)).cons _
    | giveUp b own others before =>
      rw [before] at ih
      exact (ih (Multiset.mem_cons_of_mem under)).cons _
    | forget b results' front back d others before =>
      rw [before] at ih
      rcases Multiset.mem_cons.1 under with same | under
      · cases same
        exact (ih (Multiset.mem_cons_self _ _)).forget
      · exact (ih (Multiset.mem_cons_of_mem under)).cons _
    | settle b results' others before =>
      rw [before] at ih
      exact (ih (Multiset.mem_cons_of_mem under)).cons _

/-- Other files have such an entry in the index exactly if one has it by its latest analysis. -/
private theorem UpToDate.exists_entry_iff {s : Session} (h : UpToDate history s) (own : String)
    (p : IndexEntry → Prop) :
    (∃ e ∈ s.index, e.uri ≠ own ∧ p e) ↔
      ∃ uri b, uri ≠ own ∧ latest? history uri = some b ∧ ∃ e ∈ b.report.index, p e := by
  constructor
  · rintro ⟨e, mem, apart, holds⟩
    have listed : e ∈ Index.ofFile s.index e.uri := List.mem_filter.2 ⟨mem, beq_self_eq_true _⟩
    rw [h.entries] at listed
    cases latest : latest? history e.uri with
    | none => simp [latest] at listed
    | some b => exact ⟨e.uri, b, apart, latest, e, by simpa [latest] using listed, holds⟩
  · rintro ⟨uri, b, apart, latest, e, mem, holds⟩
    have listed : e ∈ Index.ofFile s.index uri := by simpa [h.entries, latest] using mem
    obtain ⟨mem, same⟩ := List.mem_filter.1 listed
    exact ⟨e, mem, beq_iff_eq.1 same ▸ apart, holds⟩

/-- A step of a run was made in an activity to which the steps before it lead. -/
private theorem Run.exists_step {later earlier : List Action} {action : Action}
    (run : Run (later ++ action :: earlier) x) :
    ∃ y z, Run earlier y ∧ Step y action z := by
  induction later generalizing x with
  | nil =>
    cases run with
    | next run step => exact ⟨_, _, run, step⟩
  | cons _ _ ih =>
    cases run with
    | next run _ => exact ih run

/-- What the steps of a run forget is forgotten in one of them. -/
private theorem Run.exists_forget {later : List Action} (run : Run (later ++ history) x) {resource : ResourceName}
    {version : Option String} (told : (resource, version) ∈ later.filterMap Action.forgotten?) :
    ∃ between y z b d, Run (between ++ history) y ∧ Step y (.forget b d) z ∧ d.resource = resource ∧
      d.version = version := by
  obtain ⟨action, mem, forgotten⟩ := List.mem_filterMap.1 told
  cases action with
  | forget b d =>
    cases forgotten
    obtain ⟨after, between, rfl⟩ := List.append_of_mem mem
    rw [List.append_assoc] at run
    obtain ⟨y, z, reached, step⟩ := run.exists_step
    exact ⟨between, y, z, b, d, reached, step, rfl, rfl⟩
  | _ => cases forgotten

end

/-- An analysis forgets a resource only if its file defined it by its latest analysis before and does not define it
now, and by its end has forgotten each of these.  Another file has an entry that defines the resource in the same
version at that moment exactly if it has one by its own latest analysis.  What a session tells to forget as it runs the
tasks in line is forgotten in such a step. -/
theorem forgets_exactly_takenAway {history : List Action} {x : Activity} (run : Run history x) :
    (∀ a d y, Step x (.forget a d) y →
      (∃ later earlier, history = later ++ .install a :: earlier ∧ TakesAway earlier a d) ∧
      y.session = x.session.forget d.resource ∧
      ((∃ e ∈ x.session.index, e.uri ≠ a.uri ∧ e.Repeats d) ↔
        ∃ uri b, uri ≠ a.uri ∧ latest? history uri = some b ∧ ∃ e ∈ b.report.index, e.Repeats d)) ∧
    (∀ a y, Step x (.settle a) y →
      ∃ later earlier, history = later ++ .install a :: earlier ∧ ∀ d, TakesAway earlier a d → .forget a d ∈ later) ∧
    ∀ services line, Testing (Session.analysesOf line) x.underWay → x.session.Filed →
      ∀ resource version, (resource, version) ∈ (x.session.run services line).2.filterMap Effect.forgotten? →
        ∃ between y z a d, Run (between ++ history) y ∧ Step y (.forget a d) z ∧ d.resource = resource ∧
          d.version = version := by
  refine ⟨fun a d y step => ?_, fun a y step => ?_, fun services line running filed resource version told => ?_⟩
  · cases step with
    | forget _ results before after _ others under =>
      have owed := run.owed (under ▸ Multiset.mem_cons_self _ _)
      obtain ⟨later, earlier, steps, taken, _⟩ := owed
      exact ⟨⟨later, earlier, steps, taken d (by simp)⟩, rfl, run.upToDate.exists_entry_iff a.uri (·.Repeats d)⟩
  · cases step with
    | settle _ results others under =>
      have owed := run.owed (under ▸ Multiset.mem_cons_self _ _)
      obtain ⟨later, earlier, steps, _, settled⟩ := owed
      exact ⟨later, earlier, steps, fun d taken => (settled d taken).resolve_left (by simp)⟩
  · obtain ⟨later, reached, _, same⟩ := Run.line services x.session line run running filed
    rw [same, List.mem_reverse] at told
    exact reached.exists_forget told

/-! ### A copy is forgotten -/

/-- Every manifest can be used, and nothing depends on another. -/
def plainServices : Services :=
  ⟨fun _ _ => .prepared .other, fun _ _ => []⟩

/-- A document with one function. -/
def functionDocument : Document :=
  ⟨.ofText "apiVersion: koreo.dev/v1beta1\nkind: ValueFunction\nmetadata:\n  name: f\n" true, some 1⟩

/-- Two files hold the same text. -/
def copied : Session × List Effect :=
  (Session.start.openDocument plainServices "a.yaml" functionDocument).1.openDocument plainServices "b.yaml"
    functionDocument

/-- The text of the first file is taken away. -/
def cleared : Session × List Effect :=
  copied.1.openDocument plainServices "a.yaml" ⟨.ofText "" true, some 2⟩

/-- The function of the first file, in the version that its text has. -/
def copiedFunction : ResourceName × Option String :=
  (⟨"ValueFunction", "f"⟩, some "2438f529e73771c766aa0bb605b191ac")

set_option maxRecDepth 100000 in
private theorem forgotten_cleared : cleared.2.filterMap Effect.forgotten? = [copiedFunction] := by
  decide +kernel

/-- The function is forgotten in some step, and the first file defined it before. -/
theorem forgets_exactly_takenAway_cleared :
    ∃ history x a d y, Run history x ∧ Step x (.forget a d) y ∧ (d.resource, d.version) = copiedFunction ∧
      ∃ later earlier, history = later ++ .install a :: earlier ∧ TakesAway earlier a d := by
  obtain ⟨_, first, filed, _⟩ := Run.start.openDocument plainServices "a.yaml" functionDocument Session.filed_start
  obtain ⟨_, second, filed, _⟩ := first.openDocument plainServices "b.yaml" functionDocument filed
  obtain ⟨later, third, _, told⟩ := second.openDocument plainServices "a.yaml" ⟨.ofText "" true, some 2⟩ filed
  have forgotten : copiedFunction ∈ later.filterMap Action.forgotten? := by
    rw [← List.mem_reverse, ← told]
    exact List.mem_of_mem_head? (congrArg List.head? forgotten_cleared)
  obtain ⟨_, x, y, a, d, run, step, resource, version⟩ := third.exists_forget forgotten
  refine ⟨_, x, a, d, y, run, step, Prod.ext resource version, ?_⟩
  exact ((forgets_exactly_takenAway run).1 a d y step).1

set_option maxRecDepth 100000 in
/-- The function is forgotten although the second file defines it all the time, in the same version. -/
theorem forgotten_while_defined :
    cleared.2.filterMap Effect.forgotten? = [copiedFunction] ∧
      ∃ e ∈ copied.1.index, e ∈ cleared.1.index ∧ e.uri ≠ "a.yaml" ∧
        e.Repeats ⟨copiedFunction.1, copiedFunction.2, e.range⟩ := by
  decide +kernel

end Activity

end ManifestLens
