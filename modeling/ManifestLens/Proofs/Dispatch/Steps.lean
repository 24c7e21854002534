import ManifestLens.Proofs.Dispatch.Registry
import Mathlib.Logic.Function.Basic
import Mathlib.Logic.Relation

/-!
# Steps in any order

Between two points where it has to wait, a worker makes one turn (`Worker.Turn`).  A floor (`Floor`) is a dispatcher
with all that is under way around it, and the steps of a floor (`Floor.Step`) are the turns of its workers, requests
and shutdowns that come in, stops that arrive and workers that are removed, in any order.

How often a request waits for the worker under a key or is in its hand is its load (`Dispatcher.load`).  A turn
answers exactly the requests that it takes away (`Worker.Turn.conserves`), a request adds one to its own load, a stop
changes no load, and a removal takes the load of one key away.
-/

namespace ManifestLens.Dispatch

variable {σ ρ ε : Type}

/-! ### The turns of a worker -/

/-- How often a request waits for a worker or is in its hand. -/
def Worker.load (w : Worker ρ) (hand : Option Request) (r : Request) : Nat :=
  w.stack.count (.process r) + hand.toList.count r

/-- What a worker does until it has to wait, given what it has in hand: the worker that it becomes, what it then has
in hand, and the answers that it gives. -/
inductive Worker.Turn : Worker ρ → Option Request → Worker ρ → Option Request → List (Nat × Answer ρ ε) → Prop
  /-- A request that is not later than the latest success is answered from memory. -/
  | remember {w : Worker ρ} (r : Request) {rest : List Job} (stack : w.stack = .process r :: rest)
      (old : r.time ≤ w.memory.time) :
      Turn w none { w with stack := rest } none [(r.number, .result w.memory.result)]
  /-- The processor is called for a later one. -/
  | take {w : Worker ρ} (r : Request) {rest : List Job} (stack : w.stack = .process r :: rest)
      (new : ¬r.time ≤ w.memory.time) : Turn w none { w with stack := rest } (some r) []
  /-- The processor comes back with a result or an error. -/
  | finish {w : Worker ρ} (r : Request) (outcome : Except ε ρ) :
      Turn w (some r) { w with memory := (w.memory.finish r outcome).1 } none
        [(r.number, (w.memory.finish r outcome).2)]
  /-- There is nothing to take. -/
  | wait {w : Worker ρ} (stack : w.stack = []) : Turn w none { w with phase := .idle } none []
  /-- A stop ends the worker. -/
  | halt {w : Worker ρ} {rest : List Job} (stack : w.stack = .stop :: rest) :
      Turn w none { w with stack := rest, phase := .ended } none []

namespace Worker.Turn

variable {w w' : Worker ρ} {hand hand' : Option Request} {given : List (Nat × Answer ρ ε)}

theorem number (t : Turn w hand w' hand' given) : w'.number = w.number := by
  cases t <;> rfl

theorem target (t : Turn w hand w' hand' given) : w'.target = w.target := by
  cases t <;> rfl

theorem running (t : Turn w hand w' hand' given) (h : w.phase ≠ .ended) {r : Request} (held : hand' = some r) :
    w'.phase ≠ .ended := by
  cases t <;> simp_all

/-- A turn answers exactly the requests that it takes away. -/
theorem conserves (t : Turn w hand w' hand' given) :
    ∃ settled : List Request, given.map Prod.fst = settled.map Request.number ∧
      ∀ r, w'.load hand' r + settled.count r = w.load hand r := by
  cases t with
  | remember r stack =>
    refine ⟨[r], rfl, fun x => ?_⟩
    simp [load, stack, List.count_cons]
  | take r stack =>
    refine ⟨[], rfl, fun x => ?_⟩
    simp [load, stack, List.count_cons]
  | finish r =>
    refine ⟨[r], rfl, fun x => ?_⟩
    simp [load]
  | wait stack => exact ⟨[], rfl, fun x => by simp [load]⟩
  | halt stack =>
    refine ⟨[], rfl, fun x => ?_⟩
    simp [load, stack]

end Worker.Turn

/-! ### What a dispatcher holds -/

namespace Dispatcher

/-- How often a request waits for the worker under a key or is in its hand. -/
def load (d : Dispatcher σ ρ ε) (hand : Nat → Option Request) (key : String) (r : Request) : Nat :=
  match d.find? key with
  | some w => w.load (hand w.number) r
  | none => 0

/-- How many answers were given to a request. -/
def answered (d : Dispatcher σ ρ ε) (number : Nat) : Nat :=
  (d.answers.map Prod.fst).count number

/-- A worker has ended and is not removed. -/
def Ended (d : Dispatcher σ ρ ε) (e : String × Nat) : Prop :=
  ∃ w ∈ d.workers, w.phase = .ended ∧ (w.target.key, w.number) = e

/-- A worker has not ended. -/
def Running (d : Dispatcher σ ρ ε) (number : Nat) : Prop :=
  ∃ w ∈ d.workers, w.phase ≠ .ended ∧ w.number = number

/-- Whoever is registered stays so, with the same key and number, and whether it has ended stays the same too; nothing
is answered. -/
structure Keeps (d d' : Dispatcher σ ρ ε) : Prop where
  registered : d'.Registered
  ended : ∀ e, d'.Ended e ↔ d.Ended e
  running : ∀ n, d.Running n → d'.Running n
  answers : d'.answers = d.answers

@[simp] theorem load_reply (d : Dispatcher σ ρ ε) (number : Nat) (answer : Answer ρ ε) :
    (d.reply number answer).load = d.load :=
  rfl

theorem answered_append {d d' : Dispatcher σ ρ ε} {given : List (Nat × Answer ρ ε)}
    (h : d'.answers = d.answers ++ given) (n : Nat) :
    d'.answered n = d.answered n + (given.map Prod.fst).count n := by
  rw [answered, h, List.map_append, List.count_append, answered]

theorem answered_reply (d : Dispatcher σ ρ ε) (number : Nat) (answer : Answer ρ ε) (n : Nat) :
    (d.reply number answer).answered n = d.answered n + if number = n then 1 else 0 := by
  have answers : (d.reply number answer).answers = d.answers ++ [(number, answer)] := rfl
  rw [answered_append answers, List.map_singleton, List.count_singleton]
  simp only [beq_iff_eq]

namespace Registered

variable {d : Dispatcher σ ρ ε} {w w' : Worker ρ}

theorem load_of_mem (h : d.Registered) (hw : w ∈ d.workers) (hand : Nat → Option Request) (r : Request) :
    d.load hand w.target.key r = w.load (hand w.number) r := by
  rw [load, h.find?_eq_some_iff.2 ⟨hw, rfl⟩]

theorem load_replace (h : d.Registered) (hw : w ∈ d.workers) (number : w'.number = w.number)
    (target : w'.target = w.target) (hand : Nat → Option Request) (x : Option Request) (key : String) (r : Request) :
    (d.replace w').load (Function.update hand w.number x) key r =
      if key = w.target.key then w'.load x r else d.load hand key r := by
  rw [load, h.find?_replace hw number target]
  by_cases same : key = w.target.key
  · simp [same, number]
  · rw [if_neg same, if_neg same, load]
    cases found : d.find? key with
    | none => rfl
    | some v =>
      obtain ⟨hv, rfl⟩ := h.find?_eq_some_iff.1 found
      -- the worker under another key has another number, so what it has in hand stays
      have apart : v.number ≠ w.number := fun e => same (by rw [h.eq_of_number hv hw e])
      simp [Function.update_of_ne apart]

/-! ### A job that is given -/

private theorem push_phase (w : Worker ρ) (job : Job) : (w.push job).phase = .ended ↔ w.phase = .ended := by
  unfold Worker.push
  cases w.phase <;> simp

private theorem load_push (w : Worker ρ) (job : Job) (x : Option Request) (r : Request) :
    (w.push job).load x r = w.load x r + if job = .process r then 1 else 0 := by
  simp only [Worker.load, Worker.push, List.count_cons, beq_iff_eq]
  omega

private theorem keeps (h : d.Registered) : d.Keeps d :=
  ⟨h, fun _ => .rfl, fun _ => id, rfl⟩

private theorem keeps_give (h : d.Registered) (hw : w ∈ d.workers) (job : Job) : d.Keeps (d.give w job).1 := by
  have mem (v : Worker ρ) : v ∈ (d.give w job).1.workers ↔ _ := h.mem_replace hw (by rfl)
  exact {
    registered := h.replace hw rfl rfl
    ended := by
      intro e
      constructor
      · rintro ⟨v, hv, ended, rfl⟩
        rcases (mem v).1 hv with rfl | ⟨hv, -⟩
        · exact ⟨w, hw, (push_phase w job).1 ended, rfl⟩
        · exact ⟨v, hv, ended, rfl⟩
      · rintro ⟨v, hv, ended, rfl⟩
        by_cases e : v = w
        · subst e
          exact ⟨v.push job, (mem _).2 (.inl rfl), (push_phase v job).2 ended, rfl⟩
        · exact ⟨v, (mem v).2 (.inr ⟨hv, e⟩), ended, rfl⟩
    running := by
      rintro n ⟨v, hv, runs, rfl⟩
      by_cases e : v = w
      · subst e
        exact ⟨v.push job, (mem _).2 (.inl rfl), fun ended => runs ((push_phase v job).1 ended), rfl⟩
      · exact ⟨v, (mem v).2 (.inr ⟨hv, e⟩), runs, rfl⟩
    answers := rfl }

private theorem load_give (h : d.Registered) (hw : w ∈ d.workers) (job : Job) (hand : Nat → Option Request)
    (key : String) (r : Request) : (d.give w job).1.load hand key r =
      d.load hand key r + if key = w.target.key ∧ job = .process r then 1 else 0 := by
  have replaced := h.load_replace hw (show (w.push job).number = w.number from rfl) rfl hand (hand w.number) key r
  rw [Function.update_eq_self] at replaced
  change (d.replace (w.push job)).load hand key r = _
  rw [replaced]
  by_cases same : key = w.target.key
  · simp [same, load_push, h.load_of_mem hw]
  · simp [same]

/-! ### A request, a stop and a removal -/

theorem keeps_stop (h : d.Registered) (n : Nat) : d.Keeps (d.stop n).1 := by
  unfold Dispatcher.stop
  split
  · rename_i w found
    exact h.keeps_give (h.worker?_eq_some_iff.1 found).1 _
  · exact h.keeps

theorem load_stop (h : d.Registered) (n : Nat) (hand : Nat → Option Request) (key : String) (r : Request) :
    (d.stop n).1.load hand key r = d.load hand key r := by
  unfold Dispatcher.stop
  split
  · rename_i w found
    simp [h.load_give (h.worker?_eq_some_iff.1 found).1]
  · rfl

theorem keeps_request (h : d.Registered) (target : Target) (r : Request) : d.Keeps (d.request target r).1 := by
  cases found : d.find? target.key with
  | some w =>
    rw [Dispatcher.request, found]
    exact h.keeps_give (h.find?_eq_some_iff.1 found).1 _
  | none =>
    have registered := h.setUp (r := r) found
    rw [Dispatcher.request, found] at registered ⊢
    -- the worker that is set up has not ended
    exact {
      registered := registered
      ended := by simp [Ended, or_and_right, exists_or, Worker.start]
      running := by
        rintro n ⟨w, hw, runs, rfl⟩
        exact ⟨w, List.mem_append_left _ hw, runs, rfl⟩
      answers := rfl }

/-- A request waits once more, for the worker under its key. -/
theorem load_request (h : d.Registered) (target : Target) (r : Request) {hand : Nat → Option Request}
    (free : hand d.made = none) (key : String) (x : Request) : (d.request target r).1.load hand key x =
      d.load hand key x + if (key, x) = (target.key, r) then 1 else 0 := by
  cases found : d.find? target.key with
  | some w =>
    obtain ⟨hw, same⟩ := h.find?_eq_some_iff.1 found
    rw [Dispatcher.request, found]
    simp only [h.load_give hw, Prod.mk.injEq, Job.process.injEq, same, eq_comm]
  | none =>
    rw [load, Registered.find?_setUp found]
    by_cases same : key = target.key
    · subst same
      simp [load, found, Worker.load, Worker.start, free, List.count_cons, @eq_comm _ r x]
    · simp [load, same]

theorem load_cleanup (h : d.Registered) (removed : String) (hand : Nat → Option Request) (key : String)
    (r : Request) : (d.cleanup removed).load hand key r = if key = removed then 0 else d.load hand key r := by
  rw [load, h.find?_cleanup]
  by_cases same : key = removed
  · simp [same]
  · simp [same, load]

end Registered

end Dispatcher

/-- A worker that is removed answers exactly the requests that wait for it. -/
theorem Worker.dropped_conserves (ε : Type) (w : Worker ρ) :
    ∃ settled : List Request, (w.dropped : List (Nat × Answer ρ ε)).map Prod.fst = settled.map Request.number ∧
      ∀ r, settled.count r = w.stack.count (.process r) := by
  unfold dropped
  induction w.stack with
  | nil => exact ⟨[], rfl, fun r => rfl⟩
  | cons job stack ih =>
    obtain ⟨settled, told, conserved⟩ := ih
    cases job with
    | stop => exact ⟨settled, told, fun r => by simp [conserved]⟩
    | process x => exact ⟨x :: settled, by simp [told], fun r => by simp [List.count_cons, conserved]⟩

/-! ### The floor -/

/-- A dispatcher and all that is under way around it. -/
structure Floor (σ ρ ε : Type) where
  dispatcher : Dispatcher σ ρ ε
  /-- The request that a worker has in hand. -/
  hand : Nat → Option Request
  /-- The workers that stops are under way to. -/
  stops : List Nat
  /-- The keys and numbers of the workers that have ended and are to be removed. -/
  ended : List (String × Nat)
  /-- All requests that ever came in, with the keys that they are for. -/
  asked : List (String × Request)
  /-- The numbers that were given out to tell requests apart. -/
  used : List Nat

namespace Floor

/-- The floor before anything happens. -/
def start (s : σ) : Floor σ ρ ε :=
  ⟨.start s, fun _ => none, [], [], [], []⟩

/-- A worker becomes another one and gives answers; if it has ended, it is to be removed. -/
def move (f : Floor σ ρ ε) (w : Worker ρ) (hand : Option Request) (given : List (Nat × Answer ρ ε)) (s : σ) :
    Floor σ ρ ε :=
  { f with
    dispatcher := { f.dispatcher.replace w with answers := f.dispatcher.answers ++ given, state := s }
    hand := Function.update f.hand w.number hand
    ended := if w.phase = .ended then f.ended ++ [(w.target.key, w.number)] else f.ended }

theorem mem_ended_move {f : Floor σ ρ ε} {w : Worker ρ} {hand : Option Request} {given : List (Nat × Answer ρ ε)}
    {s : σ} {e : String × Nat} :
    e ∈ (f.move w hand given s).ended ↔ e ∈ f.ended ∨ w.phase = .ended ∧ (w.target.key, w.number) = e := by
  by_cases ended : w.phase = .ended <;> simp [move, ended, eq_comm]

/-- What can happen next. -/
inductive Step : Floor σ ρ ε → Floor σ ρ ε → Prop
  | request (f : Floor σ ρ ε) (target : Target) (r : Request) (fresh : r.number ∉ f.used) :
      Step f { f with
        dispatcher := (f.dispatcher.request target r).1
        asked := (target.key, r) :: f.asked
        used := r.number :: f.used }
  /-- A stop is sent to every worker that is registered. -/
  | shutdown (f : Floor σ ρ ε) (number : Nat) (fresh : number ∉ f.used) :
      Step f { f with
        dispatcher := f.dispatcher.reply number (.result none)
        stops := f.stops ++ f.dispatcher.workers.map (·.number)
        used := number :: f.used }
  | stray (f : Floor σ ρ ε) (number : Nat) (target : Target) (fresh : number ∉ f.used) :
      Step f { f with
        dispatcher := f.dispatcher.reply number (.notStarted target)
        used := number :: f.used }
  /-- A stop arrives, be the worker removed by now or not. -/
  | stop (f : Floor σ ρ ε) (before after : List Nat) (n : Nat) (due : f.stops = before ++ n :: after) :
      Step f { f with dispatcher := (f.dispatcher.stop n).1, stops := before ++ after }
  /-- A worker makes a turn, and processors change their state in the meantime. -/
  | turn (f : Floor σ ρ ε) {w w' : Worker ρ} {hand : Option Request} {given : List (Nat × Answer ρ ε)}
      (registered : w ∈ f.dispatcher.workers) (running : w.phase ≠ .ended)
      (turn : w.Turn (f.hand w.number) w' hand given) (s : σ) : Step f (f.move w' hand given s)
  /-- What is registered under the key of a worker that has ended is removed, be it this worker or another. -/
  | cleanup (f : Floor σ ρ ε) (before after : List (String × Nat)) (key : String) (n : Nat)
      (due : f.ended = before ++ (key, n) :: after) :
      Step f { f with dispatcher := f.dispatcher.cleanup key, ended := before ++ after }

/-- A floor to which steps lead from the start. -/
def Reachable (s : σ) (f : Floor σ ρ ε) : Prop :=
  Relation.ReflTransGen Step (start s) f

end Floor

end ManifestLens.Dispatch
