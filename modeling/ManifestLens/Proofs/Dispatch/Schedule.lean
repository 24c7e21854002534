import ManifestLens.Proofs.Dispatch.Accounting

/-!
# The line as one order of steps

Running the tasks in line is one of the orders in which the steps of a floor can happen.  A worker that works through
its jobs without a break makes its turns one after the other (`Floor.drain`), and every other task is a single step.
What the line has to do with the floor is kept by each task (`Floor.Scheduled.perform`): it holds the stops under way,
the workers to be removed and the workers that are going to run.  At the end of the line no worker has anything left to
do, so every request has its answer.
-/

namespace ManifestLens.Dispatch

variable {σ ρ ε : Type}

/-! ### Working through the jobs -/

/-- The worker that has worked through its jobs. -/
def Worker.after (w : Worker ρ) (drained : Drained σ ρ ε) : Worker ρ :=
  match drained.left with
  | none => { w with stack := [], memory := drained.memory, phase := .idle }
  | some left => { w with stack := left, memory := drained.memory, phase := .ended }

namespace Worker

private theorem number_after (w : Worker ρ) (drained : Drained σ ρ ε) : (w.after drained).number = w.number := by
  unfold after
  split <;> rfl

private theorem target_after (w : Worker ρ) (drained : Drained σ ρ ε) : (w.after drained).target = w.target := by
  unfold after
  split <;> rfl

private theorem phase_after (w : Worker ρ) (drained : Drained σ ρ ε) : (w.after drained).phase ≠ .ready := by
  unfold after
  split <;> simp

private theorem stack_after (w : Worker ρ) (drained : Drained σ ρ ε) (idle : (w.after drained).phase = .idle) :
    (w.after drained).stack = [] := by
  unfold after at *
  split at idle <;> simp_all

end Worker

private theorem Dispatcher.work_eq (process : Processor σ ρ ε) (d : Dispatcher σ ρ ε) (w : Worker ρ)
    {drained : Drained σ ρ ε} (h : w.memory.drain process w.target d.state w.stack = drained) : d.work process w =
      ({ d.replace (w.after drained) with answers := d.answers ++ drained.answers, state := drained.state },
        if (w.after drained).phase = .ended then [.cleanup w.target.key] else []) := by
  obtain ⟨memory, answers, state, left⟩ := drained
  simp only [work, h]
  cases left <;> rfl

namespace Floor

variable {f : Floor σ ρ ε}

private theorem map_put_put {v w : Worker ρ} (h : v.number = w.number) (l : List (Worker ρ)) :
    (l.map fun u => if u.number = w.number then v else u).map (fun u => if u.number = w.number then w else u) =
      l.map fun u => if u.number = w.number then w else u := by
  simp only [List.map_map, List.map_inj_left, Function.comp]
  intro u _
  split <;> simp_all

private theorem move_move (f : Floor σ ρ ε) {v w : Worker ρ} (h : v.number = w.number) (running : v.phase ≠ .ended)
    (x y : Option Request) (a b : List (Nat × Answer ρ ε)) (s t : σ) :
    (f.move v x a s).move w y b t = f.move w y (a ++ b) t := by
  simp only [move, Dispatcher.replace, map_put_put h, running, if_false, h, Function.update_idem, List.append_assoc]

private theorem move_mem (inv : f.Inv) {v w : Worker ρ} (hv : v ∈ f.dispatcher.workers) (h : w.number = v.number)
    (x : Option Request) (a : List (Nat × Answer ρ ε)) (s : σ) : w ∈ (f.move w x a s).dispatcher.workers :=
  (inv.registered.mem_replace hv h).2 (.inl rfl)

private theorem move_hand (w : Worker ρ) (x : Option Request) (a : List (Nat × Answer ρ ε)) (s : σ) :
    (f.move w x a s).hand w.number = x :=
  Function.update_self ..

private theorem turn_turn (inv : f.Inv) {u v w : Worker ρ} {x y : Option Request} {a b : List (Nat × Answer ρ ε)}
    (hu : u ∈ f.dispatcher.workers) (running : u.phase ≠ .ended) (first : u.Turn (f.hand u.number) v x a)
    (running' : v.phase ≠ .ended) (second : v.Turn x w y b) (s t : σ) :
    Relation.ReflTransGen Step f (f.move w y (a ++ b) t) := by
  have mem : v ∈ (f.move v x a s).dispatcher.workers := move_mem inv hu first.number ..
  rw [← move_hand (f := f) v x a s] at second
  have step := Step.turn _ mem running' second t
  rw [move_move f second.number.symm running'] at step
  exact .head (.turn f hu running first s) (.single step)

/-- Serving a request is a turn from memory, or one in which the processor is called and one in which it comes back. -/
private theorem serve (process : Processor σ ρ ε) {w : Worker ρ} {r : Request} {rest : List Job} (inv : f.Inv)
    (mem : { w with stack := .process r :: rest } ∈ f.dispatcher.workers) (running : w.phase ≠ .ended)
    (free : f.hand w.number = none) {served : Served σ ρ ε}
    (h : w.memory.serve process w.target r f.dispatcher.state = served) :
    Relation.ReflTransGen Step f
      (f.move { w with stack := rest, memory := served.memory } none [(r.number, served.answer)] served.state) := by
  subst h
  unfold Memory.serve
  split
  · rename_i old
    refine .single (.turn f mem running ?_ _)
    rw [free]
    exact .remember r rfl old
  · rename_i new
    obtain ⟨outcome, s⟩ := process f.dispatcher.state w.target
    have take := Worker.Turn.take (w := { w with stack := .process r :: rest }) (ε := ε) r rfl new
    rw [← free] at take
    exact turn_turn inv mem running take running (.finish r outcome) f.dispatcher.state s

/-- A worker that works through its jobs without a break makes one turn after the other. -/
theorem drain (process : Processor σ ρ ε) (stack : List Job) {w : Worker ρ} (inv : f.Inv)
    (mem : { w with stack := stack } ∈ f.dispatcher.workers) (running : w.phase ≠ .ended)
    (free : f.hand w.number = none) {drained : Drained σ ρ ε}
    (h : w.memory.drain process w.target f.dispatcher.state stack = drained) :
    Relation.ReflTransGen Step f (f.move (w.after drained) none drained.answers drained.state) := by
  induction stack generalizing f w drained with
  | nil =>
    subst h
    refine .single (.turn f mem running ?_ _)
    rw [free]
    exact .wait rfl
  | cons job rest ih =>
    subst h
    cases job with
    | stop =>
      refine .single (.turn f mem running ?_ _)
      rw [free]
      exact .halt rfl
    | process r =>
      -- the other jobs are worked through from where the first one leaves the floor
      obtain ⟨served, h⟩ : ∃ served, w.memory.serve process w.target r f.dispatcher.state = served := ⟨_, rfl⟩
      have first := serve process inv mem running free h
      have others := ih (w := { w with memory := served.memory }) (inv.steps first) (move_mem inv mem (by rfl) ..)
        running (move_hand ..) rfl
      rw [move_move] at others
      · rw [Memory.drain, h]
        exact first.trans others
      · exact (Worker.number_after ..).symm
      · exact running

end Floor

/-! ### The workers in line -/

namespace Task

/-- The number of a request or shutdown that comes in. -/
def number? : Task → Option Nat
  | .request _ r => some r.number
  | .shutdown number => some number
  | .stray number _ => some number
  | _ => none

/-- The worker that a stop is under way to. -/
def stop? : Task → Option Nat
  | .stop worker => some worker
  | _ => none

/-- The worker that is going to run. -/
def work? : Task → Option Nat
  | .work worker => some worker
  | _ => none

/-- The key under which a worker is to be removed. -/
def cleanup? : Task → Option String
  | .cleanup key => some key
  | _ => none

end Task

namespace Dispatcher

/-- The workers in line are those that are going to run, each once, and nothing waits for the idle ones. -/
structure Lined (d : Dispatcher σ ρ ε) (line : List Nat) : Prop where
  ready : ∀ n, n ∈ line ↔ ∃ w ∈ d.workers, w.phase = .ready ∧ w.number = n
  once : line.Nodup
  idle : ∀ w ∈ d.workers, w.phase = .idle → w.stack = []

namespace Lined

variable {d : Dispatcher σ ρ ε} {line : List Nat} {w : Worker ρ}

private theorem push_ready (w : Worker ρ) (job : Job) :
    (w.push job).phase = .ready ↔ w.phase = .ready ∨ w.phase = .idle := by
  unfold Worker.push
  cases w.phase <;> simp

private theorem push_idle (w : Worker ρ) (job : Job) : (w.push job).phase ≠ .idle := by
  unfold Worker.push
  cases w.phase <;> simp

private theorem give (h : d.Registered) (lined : d.Lined line) (hw : w ∈ d.workers) (job : Job) :
    (d.give w job).1.Lined (line ++ (d.give w job).2.filterMap Task.work?) := by
  have mem (v : Worker ρ) : v ∈ (d.give w job).1.workers ↔ _ := h.mem_replace hw (by rfl)
  have called (n : Nat) : n ∈ (d.give w job).2.filterMap Task.work? ↔ w.phase = .idle ∧ w.number = n := by
    unfold Dispatcher.give
    split <;> simp_all [Task.work?, eq_comm]
  -- a worker in line is ready already, so an idle one is not called twice
  have notIn (idle : w.phase = .idle) : w.number ∉ line := by
    intro hn
    obtain ⟨v, hv, ready, e⟩ := (lined.ready _).1 hn
    rw [h.eq_of_number hv hw e, idle] at ready
    cases ready
  exact {
    ready := by
      intro n
      rw [List.mem_append, lined.ready, called]
      constructor
      · rintro (⟨v, hv, ready, rfl⟩ | ⟨idle, rfl⟩)
        · by_cases e : v = w
          · subst e
            exact ⟨v.push job, (mem _).2 (.inl rfl), (push_ready v job).2 (.inl ready), rfl⟩
          · exact ⟨v, (mem v).2 (.inr ⟨hv, e⟩), ready, rfl⟩
        · exact ⟨w.push job, (mem _).2 (.inl rfl), (push_ready w job).2 (.inr idle), rfl⟩
      · rintro ⟨v, hv, ready, rfl⟩
        rcases (mem v).1 hv with rfl | ⟨hv, -⟩
        · rcases (push_ready w job).1 ready with ready | idle
          · exact .inl ⟨w, hw, ready, rfl⟩
          · exact .inr ⟨idle, rfl⟩
        · exact .inl ⟨v, hv, ready, rfl⟩
    once := by
      by_cases idle : w.phase = .idle
      · have tasks : (d.give w job).2.filterMap Task.work? = [w.number] := by simp [Dispatcher.give, idle, Task.work?]
        rw [tasks, ← List.concat_eq_append]
        exact List.Nodup.concat (notIn idle) lined.once
      · simpa [Dispatcher.give, idle] using lined.once
    idle := by
      intro v hv idle
      rcases (mem v).1 hv with rfl | ⟨hv, -⟩
      · exact absurd idle (push_idle w job)
      · exact lined.idle v hv idle }

private theorem stop (h : d.Registered) (lined : d.Lined line) (n : Nat) :
    (d.stop n).1.Lined (line ++ (d.stop n).2.filterMap Task.work?) := by
  unfold Dispatcher.stop
  split
  · rename_i w found
    exact lined.give h (h.worker?_eq_some_iff.1 found).1 _
  · simpa using lined

private theorem request (h : d.Registered) (lined : d.Lined line) (target : Target) (r : Request) :
    (d.request target r).1.Lined (line ++ (d.request target r).2.filterMap Task.work?) := by
  unfold Dispatcher.request
  split
  · rename_i w found
    exact lined.give h (h.find?_eq_some_iff.1 found).1 _
  · have notIn : d.made ∉ line := by
      intro hn
      obtain ⟨v, hv, -, e⟩ := (lined.ready _).1 hn
      exact absurd (h.made v hv) (by rw [e]; exact Nat.lt_irrefl _)
    exact {
      ready := by
        intro n
        simp [Task.work?, lined.ready, or_and_right, exists_or, Worker.start, @eq_comm _ n]
      once := by
        simp only [List.filterMap_cons, Task.work?, List.filterMap_nil, ← List.concat_eq_append]
        exact List.Nodup.concat notIn lined.once
      idle := by
        intro v hv idle
        rcases List.mem_append.1 hv with hv | hv
        · exact lined.idle v hv idle
        · rw [List.mem_singleton.1 hv] at idle
          cases idle }

private theorem cleanup (h : d.Registered) (lined : d.Lined line) (hw : w ∈ d.workers) (ended : w.phase = .ended) :
    (d.cleanup w.target.key).Lined line where
  ready n := by
    rw [lined.ready]
    constructor
    · rintro ⟨v, hv, ready, rfl⟩
      refine ⟨v, Registered.mem_cleanup.2 ⟨hv, fun same => ?_⟩, ready, rfl⟩
      rw [h.eq_of_key hv hw same, ended] at ready
      cases ready
    · rintro ⟨v, hv, ready, rfl⟩
      exact ⟨v, (Registered.mem_cleanup.1 hv).1, ready, rfl⟩
  once := lined.once
  idle v hv := lined.idle v (Registered.mem_cleanup.1 hv).1

private theorem work (h : d.Registered) {n : Nat} (lined : d.Lined (n :: line)) (hw : w ∈ d.workers)
    (number : w.number = n) (drained : Drained σ ρ ε) : (d.replace (w.after drained)).Lined line := by
  have mem (v : Worker ρ) : v ∈ (d.replace (w.after drained)).workers ↔ _ := h.mem_replace hw (w.number_after drained)
  obtain ⟨notIn, once⟩ := List.nodup_cons.1 lined.once
  exact {
    ready := by
      intro m
      constructor
      · intro hm
        obtain ⟨v, hv, ready, rfl⟩ := (lined.ready m).1 (List.mem_cons_of_mem _ hm)
        refine ⟨v, (mem v).2 (.inr ⟨hv, ?_⟩), ready, rfl⟩
        rintro rfl
        exact notIn (number ▸ hm)
      · rintro ⟨v, hv, ready, rfl⟩
        rcases (mem v).1 hv with rfl | ⟨hv, other⟩
        · exact absurd ready (w.phase_after drained)
        · rcases List.mem_cons.1 ((lined.ready _).2 ⟨v, hv, ready, rfl⟩) with e | hm
          · exact absurd (h.eq_of_number hv hw (e.trans number.symm)) other
          · exact hm
    once := once
    idle := by
      intro v hv idle
      rcases (mem v).1 hv with rfl | ⟨hv, -⟩
      · exact w.stack_after drained idle
      · exact lined.idle v hv idle }

end Lined

/-- Giving jobs only sets workers to work. -/
private theorem give_tasks (d : Dispatcher σ ρ ε) (w : Worker ρ) (job : Job) :
    ∃ ns : List Nat, (d.give w job).2 = ns.map Task.work := by
  unfold give
  split
  · exact ⟨[w.number], rfl⟩
  · exact ⟨[], rfl⟩

private theorem request_tasks (d : Dispatcher σ ρ ε) (target : Target) (r : Request) :
    ∃ ns : List Nat, (d.request target r).2 = ns.map Task.work := by
  unfold request
  split
  · exact d.give_tasks _ _
  · exact ⟨[d.made], rfl⟩

private theorem stop_tasks (d : Dispatcher σ ρ ε) (n : Nat) : ∃ ns : List Nat, (d.stop n).2 = ns.map Task.work := by
  unfold stop
  split
  · exact d.give_tasks _ _
  · exact ⟨[], rfl⟩

end Dispatcher

/-! ### One task after the other -/

namespace Floor

variable {f : Floor σ ρ ε} {line : List Task}

/-- The line holds the stops under way, the workers to be removed, the workers that are going to run, and requests
under new numbers. -/
structure Scheduled (f : Floor σ ρ ε) (line : List Task) : Prop where
  free : ∀ n, f.hand n = none
  stops : f.stops = line.filterMap Task.stop?
  ended : f.ended.map Prod.fst = line.filterMap Task.cleanup?
  lined : f.dispatcher.Lined (line.filterMap Task.work?)
  numbers : (line.filterMap Task.number?).Nodup
  fresh : ∀ n ∈ line.filterMap Task.number?, n ∉ f.used

/-- Nothing that was asked is forgotten. -/
private theorem asked_subset {f' : Floor σ ρ ε} (steps : Relation.ReflTransGen Step f f') : f.asked ⊆ f'.asked := by
  induction steps with
  | refl => exact List.Subset.refl _
  | tail _ step ih =>
    refine List.Subset.trans ih ?_
    cases step with
    | request => exact List.subset_cons_self ..
    | _ => exact List.Subset.refl _

namespace Scheduled

private theorem filterMap_works {α : Type} {g : Task → Option α} (none : ∀ n, g (.work n) = none) (ns : List Nat) :
    (ns.map Task.work).filterMap g = [] := by
  simp [List.filterMap_map, none]

private theorem filterMap_concat {α : Type} {g : Task → Option α} {task : Task} (none : g task = none)
    (line : List Task) : (line ++ [task]).filterMap g = line.filterMap g := by
  simp [none]

private theorem of_works {ns : List Nat} (free : ∀ n, f.hand n = none) (stops : f.stops = line.filterMap Task.stop?)
    (ended : f.ended.map Prod.fst = line.filterMap Task.cleanup?)
    (lined : f.dispatcher.Lined (line.filterMap Task.work? ++ (ns.map Task.work).filterMap Task.work?))
    (numbers : (line.filterMap Task.number?).Nodup) (fresh : ∀ n ∈ line.filterMap Task.number?, n ∉ f.used) :
    f.Scheduled (line ++ ns.map Task.work) where
  free := free
  stops := by rw [stops, List.filterMap_append, filterMap_works fun _ => rfl, List.append_nil]
  ended := by rw [ended, List.filterMap_append, filterMap_works fun _ => rfl, List.append_nil]
  lined := by rwa [List.filterMap_append]
  numbers := by rwa [List.filterMap_append, filterMap_works fun _ => rfl, List.append_nil]
  fresh := by rwa [List.filterMap_append, filterMap_works fun _ => rfl, List.append_nil]

/-- The number of the first task in line is new, and those after it are new even then. -/
private theorem number_new {task : Task} (h : f.Scheduled (task :: line)) {m : Nat} (number : task.number? = some m) :
    m ∉ f.used ∧ (line.filterMap Task.number?).Nodup ∧ ∀ n ∈ line.filterMap Task.number?, n ∉ m :: f.used := by
  have numbers := h.numbers
  have fresh := h.fresh
  rw [List.filterMap_cons_some number] at numbers fresh
  obtain ⟨notIn, numbers⟩ := List.nodup_cons.1 numbers
  refine ⟨fresh m List.mem_cons_self, numbers, fun n hn => ?_⟩
  rw [List.mem_cons, not_or]
  exact ⟨fun e => notIn (e ▸ hn), fresh n (List.mem_cons_of_mem _ hn)⟩

/-- A worker that is through with its jobs leaves its removal in line if it took a stop, and nothing else. -/
private theorem move {n : Nat} {w : Worker ρ} {given : List (Nat × Answer ρ ε)} {s : σ}
    (h : f.Scheduled (.work n :: line)) (lined : (f.dispatcher.replace w).Lined (line.filterMap Task.work?)) :
    (f.move w none given s).Scheduled (line ++ if w.phase = .ended then [.cleanup w.target.key] else []) := by
  have ended : f.ended.map Prod.fst = line.filterMap Task.cleanup? := h.ended
  have free (m : Nat) : (f.move w none given s).hand m = none := by
    simp [Floor.move, Function.update_apply, h.free]
  by_cases halted : w.phase = .ended
  · rw [if_pos halted]
    exact {
      free := free
      stops := by
        rw [filterMap_concat rfl]
        exact h.stops
      ended := by
        rw [Floor.move, if_pos halted, List.map_append, ended, List.filterMap_append]
        rfl
      lined := by
        rw [filterMap_concat rfl]
        exact ⟨lined.ready, lined.once, lined.idle⟩
      numbers := by
        rw [filterMap_concat rfl]
        exact h.numbers
      fresh := by
        rw [filterMap_concat rfl]
        exact h.fresh }
  · rw [if_neg halted, List.append_nil]
    have sameEnded : (f.move w none given s).ended = f.ended := if_neg halted
    exact ⟨free, h.stops, sameEnded ▸ ended, ⟨lined.ready, lined.once, lined.idle⟩, h.numbers, h.fresh⟩

/-- Performing the first task in line takes steps, after which the line is as it should be. -/
theorem perform (process : Processor σ ρ ε) (inv : f.Inv) {task : Task} (h : f.Scheduled (task :: line)) :
    ∃ f', Relation.ReflTransGen Step f f' ∧ f'.dispatcher = (f.dispatcher.perform process task).1 ∧
      f'.Scheduled (line ++ (f.dispatcher.perform process task).2) ∧
      ∀ target r, task = .request target r → (target.key, r) ∈ f'.asked := by
  cases task with
  | request target r =>
    obtain ⟨new, numbers, fresh⟩ := h.number_new rfl
    obtain ⟨ns, tasks⟩ := f.dispatcher.request_tasks target r
    have lined := h.lined.request inv.registered target r
    refine ⟨_, .single (.request f target r new), rfl, ?_, ?_⟩
    · rw [Dispatcher.perform, tasks] at *
      exact .of_works h.free h.stops h.ended lined numbers fresh
    · rintro _ _ ⟨⟩
      exact List.mem_cons_self
  | shutdown number =>
    obtain ⟨new, numbers, fresh⟩ := h.number_new rfl
    refine ⟨_, .single (.shutdown f number new), rfl, ?_, by simp⟩
    have stops : f.stops = line.filterMap Task.stop? := h.stops
    have ended : f.ended.map Prod.fst = line.filterMap Task.cleanup? := h.ended
    have lined : f.dispatcher.Lined (line.filterMap Task.work?) := h.lined
    rw [Dispatcher.perform]
    exact {
      free := h.free
      stops := by simp [Function.comp_def, Task.stop?, stops]
      ended := by simpa [Function.comp_def, Task.cleanup?] using ended
      lined := by
        rw [List.filterMap_append, List.filterMap_map]
        simpa [Function.comp_def, Task.work?] using
          (⟨lined.ready, lined.once, lined.idle⟩ : (f.dispatcher.reply number (.result none)).Lined _)
      numbers := by simpa [Function.comp_def, Task.number?] using numbers
      fresh := by simpa [Function.comp_def, Task.number?] using fresh }
  | stray number target =>
    obtain ⟨new, numbers, fresh⟩ := h.number_new rfl
    refine ⟨_, .single (.stray f number target new), rfl, ?_, by simp⟩
    rw [Dispatcher.perform, List.append_nil]
    exact ⟨h.free, h.stops, h.ended, ⟨h.lined.ready, h.lined.once, h.lined.idle⟩, numbers, fresh⟩
  | stop n =>
    obtain ⟨ns, tasks⟩ := f.dispatcher.stop_tasks n
    have lined := h.lined.stop inv.registered n
    refine ⟨_, .single (.stop f [] _ n h.stops), rfl, ?_, by simp⟩
    rw [Dispatcher.perform, tasks] at *
    exact .of_works h.free rfl h.ended lined h.numbers h.fresh
  | work n =>
    obtain ⟨w, hw, ready, number⟩ := (h.lined.ready n).1 List.mem_cons_self
    have running : w.phase ≠ .ended := by simp [ready]
    have found := inv.registered.worker?_eq_some_iff.2 ⟨hw, number⟩
    obtain ⟨drained, drain⟩ : ∃ drained, w.memory.drain process w.target f.dispatcher.state w.stack = drained :=
      ⟨_, rfl⟩
    have steps := Floor.drain process w.stack inv hw running (h.free _) drain
    have lined := Dispatcher.Lined.work inv.registered h.lined hw number drained
    have performed : f.dispatcher.perform process (.work n) = f.dispatcher.work process w := by
      rw [Dispatcher.perform, found]
    rw [performed, f.dispatcher.work_eq process w drain]
    refine ⟨_, steps, rfl, ?_, by simp⟩
    rw [← w.target_after drained]
    exact h.move lined
  | cleanup key =>
    obtain ⟨⟨_, n⟩, rest, due, rfl, ended⟩ := List.map_eq_cons_iff.1 h.ended
    obtain ⟨w, hw, halted, same⟩ := (inv.due _).1 (due ▸ List.mem_cons_self)
    obtain ⟨rfl, rfl⟩ := Prod.mk.inj same
    refine ⟨_, .single (.cleanup f [] rest _ _ due), rfl, ?_, by simp⟩
    rw [Dispatcher.perform, List.append_nil]
    exact ⟨h.free, h.stops, ended, h.lined.cleanup inv.registered hw halted, h.numbers, h.fresh⟩

/-- Running the line takes steps, at the end of which nothing is in line and all its requests were asked. -/
theorem run (process : Processor σ ρ ε) (line : List Task) (inv : f.Inv) (h : f.Scheduled line) :
    ∃ f', Relation.ReflTransGen Step f f' ∧ f'.dispatcher = f.dispatcher.run process line ∧ f'.Scheduled [] ∧
      ∀ target r, .request target r ∈ line → (target.key, r) ∈ f'.asked := by
  generalize start : f.dispatcher = d
  induction d, line using Dispatcher.run.induct process generalizing f with
  | case1 d => exact ⟨f, .refl, by rw [start, Dispatcher.run], h, by simp⟩
  | case2 d task rest ih =>
    subst start
    -- the induction is on the run, and what the line has to do with the floor carries it
    obtain ⟨f₁, first, performed, scheduled, asked⟩ := h.perform process inv
    obtain ⟨f₂, others, ran, finished, askedLater⟩ := ih (inv.steps first) scheduled performed
    refine ⟨f₂, first.trans others, by rw [ran, Dispatcher.run], finished, fun target r mem => ?_⟩
    rcases List.mem_cons.1 mem with e | mem
    · exact asked_subset others (asked target r e.symm)
    · exact askedLater target r (List.mem_append_left _ mem)

end Scheduled

end Floor

end ManifestLens.Dispatch
