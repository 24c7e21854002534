import ManifestLens.Proofs.Dispatch.Steps
import Mathlib.Algebra.Order.Ring.Unbundled.Rat
import Mathlib.Data.List.Induction

/-!
# The life of a worker

A worker, what it has in hand and the answers that it gave are its desk (`Desk`).  What happens to the worker leaves
another desk, if it is possible (`Desk.next?`).  The turns of a worker are what can happen to it, apart from jobs that
it is given (`Desk.turn_iff`).  A life (`Life`) is all that happened to a worker from its first request on, with jobs
given and results coming back in any order.

A worker remembers its latest success, and successes are of later and later requests (`Desk.Keeps`): one event keeps
that (`Desk.Keeps.after`), and so does a life (`Life.keeps`).  So no answer from memory is older than the request, and
the processor is called for none but later requests (`Life.coalesces`).
-/

namespace ManifestLens.Dispatch

variable {ρ ε : Type}

/-! ### Events -/

/-- What happens to a worker. -/
inductive Event (ρ ε : Type) where
  /-- It is given a job. -/
  | given (job : Job)
  /-- It takes a request and answers it from memory. -/
  | remembered (r : Request)
  /-- It takes a request and calls the processor. -/
  | called (r : Request)
  /-- The processor comes back to it. -/
  | finished (r : Request) (outcome : Except ε ρ)
  /-- It begins to wait for jobs. -/
  | waited
  /-- It takes a stop and ends. -/
  | halted

/-- The request that a worker is given. -/
def Event.request? : Event ρ ε → Option Request
  | .given (.process r) => some r
  | _ => none

/-- The request that was processed with success, and the result. -/
def Event.success? : Event ρ ε → Option (Request × ρ)
  | .finished r (.ok v) => some (r, v)
  | _ => none

/-- The last turn of a worker was to call the processor for a request, and since then it was only given jobs. -/
def HasCalled (events : List (Event ρ ε)) (r : Request) : Prop :=
  ∃ (before : List (Event ρ ε)) (jobs : List Job), events = before ++ .called r :: jobs.map .given

/-- The successes among events. -/
def successes (events : List (Event ρ ε)) : List (Request × ρ) :=
  events.filterMap Event.success?

private theorem successes_concat (events : List (Event ρ ε)) (e : Event ρ ε) :
    successes (events ++ [e]) = successes events ++ e.success?.toList := by
  rw [successes, List.filterMap_append, successes]
  cases h : e.success? <;> simp [h]

/-- What is remembered after some successes: the last one. -/
def Memory.latest (runs : List (Request × ρ)) : Memory ρ :=
  match runs.getLast? with
  | none => {}
  | some run => ⟨run.1.time, some run.2⟩

private theorem Memory.latest_concat (runs : List (Request × ρ)) (run : Request × ρ) :
    Memory.latest (runs ++ [run]) = ⟨run.1.time, some run.2⟩ := by
  rw [latest, List.getLast?_concat]

/-- Of successes at later and later times, the last one is the latest. -/
private theorem Memory.time_le_latest {runs : List (Request × ρ)} (increasing : (runs.map (·.1.time)).Pairwise (· < ·))
    {run : Request × ρ} (mem : run ∈ runs) : run.1.time ≤ (Memory.latest runs).time := by
  rcases List.eq_nil_or_concat' runs with rfl | ⟨earlier, last, rfl⟩
  · cases mem
  · rw [latest_concat]
    rcases List.mem_append.1 mem with mem | mem
    · rw [List.map_append, List.pairwise_append] at increasing
      exact le_of_lt (increasing.2.2 _ (List.mem_map_of_mem mem) _ (List.mem_singleton.2 rfl))
    · rw [List.mem_singleton.1 mem]

/-! ### Desks -/

/-- A worker, what it has in hand and the answers that it gave. -/
structure Desk (ρ ε : Type) where
  worker : Worker ρ
  hand : Option Request
  answers : List (Nat × Answer ρ ε)

namespace Desk

/-- The desk of a worker that has its first request. -/
def start (number : Nat) (target : Target) (r : Request) : Desk ρ ε :=
  ⟨.start number target r, none, []⟩

/-- The worker can take a job. -/
def Free (d : Desk ρ ε) : Prop :=
  d.worker.phase ≠ .ended ∧ d.hand = none

/-- What can happen to the worker.  It takes the newest job, and jobs can be given to it at any time. -/
def Allows (d : Desk ρ ε) : Event ρ ε → Prop
  | .given _ => True
  | .remembered r => d.Free ∧ d.worker.stack.head? = some (.process r) ∧ r.time ≤ d.worker.memory.time
  | .called r => d.Free ∧ d.worker.stack.head? = some (.process r) ∧ ¬r.time ≤ d.worker.memory.time
  | .finished r _ => d.worker.phase ≠ .ended ∧ d.hand = some r
  | .waited => d.Free ∧ d.worker.stack = []
  | .halted => d.Free ∧ d.worker.stack.head? = some .stop

instance (d : Desk ρ ε) : Decidable d.Free :=
  inferInstanceAs (Decidable (_ ∧ _))

instance (d : Desk ρ ε) (e : Event ρ ε) : Decidable (d.Allows e) :=
  match e with
  | .given _ => isTrue trivial
  | .remembered _ => inferInstanceAs (Decidable (_ ∧ _ ∧ _))
  | .called _ => inferInstanceAs (Decidable (_ ∧ _ ∧ ¬_))
  | .finished _ _ => inferInstanceAs (Decidable (_ ∧ _))
  | .waited => inferInstanceAs (Decidable (_ ∧ _))
  | .halted => inferInstanceAs (Decidable (_ ∧ _))

/-- The desk after something happened. -/
def after (d : Desk ρ ε) : Event ρ ε → Desk ρ ε
  | .given job => { d with worker := d.worker.push job }
  | .remembered r =>
    { d with
      worker := { d.worker with stack := d.worker.stack.tail }
      answers := d.answers ++ [(r.number, .result d.worker.memory.result)] }
  | .called r => { d with worker := { d.worker with stack := d.worker.stack.tail }, hand := some r }
  | .finished r outcome =>
    { worker := { d.worker with memory := (d.worker.memory.finish r outcome).1 }
      hand := none
      answers := d.answers ++ [(r.number, (d.worker.memory.finish r outcome).2)] }
  | .waited => { d with worker := { d.worker with phase := .idle } }
  | .halted => { d with worker := { d.worker with stack := d.worker.stack.tail, phase := .ended } }

/-- The desk after something that can happen. -/
def next? (d : Desk ρ ε) (e : Event ρ ε) : Option (Desk ρ ε) :=
  if d.Allows e then some (d.after e) else none

theorem next?_eq_some_iff {d d' : Desk ρ ε} {e : Event ρ ε} :
    d.next? e = some d' ↔ d.Allows e ∧ d.after e = d' := by
  rw [next?, Option.ite_none_right_eq_some, Option.some.injEq]

theorem number_after (d : Desk ρ ε) (e : Event ρ ε) : (d.after e).worker.number = d.worker.number := by
  cases e <;> rfl

private theorem target_after (d : Desk ρ ε) (e : Event ρ ε) : (d.after e).worker.target = d.worker.target := by
  cases e <;> rfl

/-- An answer is given to a request that is taken from memory or for which the processor comes back. -/
private theorem mem_answers_after {d : Desk ρ ε} {e : Event ρ ε} {p : Nat × Answer ρ ε} (h : p ∈ (d.after e).answers) :
    p ∈ d.answers ∨ ∃ r, (e = .remembered r ∨ ∃ outcome, e = .finished r outcome) ∧ p.1 = r.number ∧
      (d.after e).answers = d.answers ++ [p] := by
  cases e with
  | remembered r =>
    rcases List.mem_append.1 h with h | h
    · exact .inl h
    · obtain rfl := List.mem_singleton.1 h
      exact .inr ⟨r, .inl rfl, rfl, rfl⟩
  | finished r outcome =>
    rcases List.mem_append.1 h with h | h
    · exact .inl h
    · obtain rfl := List.mem_singleton.1 h
      exact .inr ⟨r, .inr ⟨outcome, rfl⟩, rfl, rfl⟩
  | given job => exact .inl h
  | called r => exact .inl h
  | waited => exact .inl h
  | halted => exact .inl h

/-- The turns of a worker that has not ended are what can happen to it, apart from jobs that it is given. -/
theorem turn_iff {w w' : Worker ρ} {hand hand' : Option Request} {given : List (Nat × Answer ρ ε)}
    (running : w.phase ≠ .ended) (answers : List (Nat × Answer ρ ε)) :
    w.Turn hand w' hand' given ↔
      ∃ e, (∀ job, e ≠ .given job) ∧ (Desk.mk w hand answers).next? e = some ⟨w', hand', answers ++ given⟩ := by
  simp only [next?_eq_some_iff]
  constructor
  · intro turn
    cases turn with
    | remember r stack old =>
      exact ⟨.remembered r, by simp, by simp [Allows, Free, running, stack, old], by simp [after, stack]⟩
    | take r stack new =>
      exact ⟨.called r, by simp, by simp [Allows, Free, running, stack, new], by simp [after, stack]⟩
    | finish r outcome => exact ⟨.finished r outcome, by simp, ⟨running, rfl⟩, rfl⟩
    | wait stack => exact ⟨.waited, by simp, ⟨⟨running, rfl⟩, stack⟩, by simp [after]⟩
    | halt stack => exact ⟨.halted, by simp, by simp [Allows, Free, running, stack], by simp [after, stack]⟩
  · rintro ⟨e, turn, allowed, same⟩
    cases e with
    | given job => exact absurd rfl (turn job)
    | remembered r =>
      obtain ⟨⟨_, free⟩, newest, old⟩ := allowed
      simp only [after, mk.injEq, List.append_cancel_left_eq] at same free
      obtain ⟨rfl, rfl, rfl⟩ := same
      subst free
      exact .remember r (List.cons_head?_tail newest).symm old
    | called r =>
      obtain ⟨⟨_, free⟩, newest, new⟩ := allowed
      simp only [after, mk.injEq, List.self_eq_append_right] at same free
      obtain ⟨rfl, rfl, rfl⟩ := same
      subst free
      exact .take r (List.cons_head?_tail newest).symm new
    | finished r outcome =>
      obtain ⟨_, held⟩ := allowed
      simp only [after, mk.injEq, List.append_cancel_left_eq] at same held
      obtain ⟨rfl, rfl, rfl⟩ := same
      subst held
      exact .finish r outcome
    | waited =>
      obtain ⟨⟨_, free⟩, stack⟩ := allowed
      simp only [after, mk.injEq, List.self_eq_append_right] at same free
      obtain ⟨rfl, rfl, rfl⟩ := same
      subst free
      exact .wait stack
    | halted =>
      obtain ⟨⟨_, free⟩, newest⟩ := allowed
      simp only [after, mk.injEq, List.self_eq_append_right] at same free
      obtain ⟨rfl, rfl, rfl⟩ := same
      subst free
      exact .halt (List.cons_head?_tail newest).symm

/-- The desk after some events, if they can happen one after the other. -/
def run? (d : Desk ρ ε) (events : List (Event ρ ε)) : Option (Desk ρ ε) :=
  events.foldlM next? d

private theorem run?_append {d d' : Desk ρ ε} {before later : List (Event ρ ε)} :
    d.run? (before ++ later) = some d' ↔ ∃ middle, d.run? before = some middle ∧ middle.run? later = some d' := by
  rw [run?, List.foldlM_append]
  exact Option.bind_eq_some_iff

private theorem run?_cons {d d' : Desk ρ ε} {e : Event ρ ε} {later : List (Event ρ ε)} :
    d.run? (e :: later) = some d' ↔ d.Allows e ∧ (d.after e).run? later = some d' := by
  rw [run?, List.foldlM_cons]
  constructor
  · intro h
    obtain ⟨middle, step, rest⟩ := Option.bind_eq_some_iff.1 h
    obtain ⟨allowed, rfl⟩ := next?_eq_some_iff.1 step
    exact ⟨allowed, rest⟩
  · rintro ⟨allowed, rest⟩
    exact Option.bind_eq_some_iff.2 ⟨_, next?_eq_some_iff.2 ⟨allowed, rfl⟩, rest⟩

private theorem run?_concat {d d' : Desk ρ ε} {before : List (Event ρ ε)} {e : Event ρ ε} :
    d.run? (before ++ [e]) = some d' ↔
      ∃ middle, d.run? before = some middle ∧ middle.Allows e ∧ middle.after e = d' := by
  simp only [run?_append, run?_cons]
  simp [run?]

/-! ### What a worker remembers -/

/-- What is true of a desk after some events: the worker remembers the last success, successes are of later and later
requests, and the processor was called for what is in hand, which is later than they are. -/
structure Keeps (d : Desk ρ ε) (events : List (Event ρ ε)) : Prop where
  memory : d.worker.memory = .latest (successes events)
  increasing : ((successes events).map (·.1.time)).Pairwise (· < ·)
  inHand : ∀ r, d.hand = some r → d.worker.memory.time < r.time ∧ HasCalled events r

private theorem Keeps.start (number : Nat) (target : Target) (r : Request) :
    (Desk.start number target r : Desk ρ ε).Keeps [] where
  memory := rfl
  increasing := List.Pairwise.nil
  inHand := by simp [Desk.start]

namespace Keeps

variable {d : Desk ρ ε} {events : List (Event ρ ε)}

/-- A success is later than all before it. -/
private theorem increasing_concat (h : d.Keeps events) {r : Request} (later : d.worker.memory.time < r.time) (v : ρ) :
    ((successes events ++ [(r, v)]).map (·.1.time)).Pairwise (· < ·) := by
  rw [List.map_append, List.pairwise_append]
  refine ⟨h.increasing, List.pairwise_singleton _ _, fun t earlier t' last => ?_⟩
  obtain ⟨run, mem, rfl⟩ := List.mem_map.1 earlier
  obtain rfl := List.mem_singleton.1 last
  rw [h.memory] at later
  exact lt_of_le_of_lt (Memory.time_le_latest h.increasing mem) later

/-- Nothing else is to be remembered after an event that is no success. -/
private theorem of_memory_eq (h : d.Keeps events) {d' : Desk ρ ε} {e : Event ρ ε} (none : e.success? = none)
    (memory : d'.worker.memory = d.worker.memory)
    (inHand : ∀ r, d'.hand = some r → d.worker.memory.time < r.time ∧ HasCalled (events ++ [e]) r) :
    d'.Keeps (events ++ [e]) where
  memory := by rw [memory, h.memory, successes_concat, none, Option.toList_none, List.append_nil]
  increasing := by
    rw [successes_concat, none, Option.toList_none, List.append_nil]
    exact h.increasing
  inHand := by
    rw [memory]
    exact inHand

theorem after (h : d.Keeps events) {e : Event ρ ε} (allowed : d.Allows e) : (d.after e).Keeps (events ++ [e]) := by
  cases e with
  | given job =>
    refine h.of_memory_eq rfl rfl fun r held => ?_
    obtain ⟨later, before, jobs, same⟩ := h.inHand r held
    exact ⟨later, before, jobs ++ [job], by simp [same]⟩
  | remembered r => exact h.of_memory_eq rfl rfl fun x held => by simp [Desk.after, allowed.1.2] at held
  | called r =>
    refine h.of_memory_eq rfl rfl fun x held => ?_
    obtain rfl : r = x := Option.some.inj held
    exact ⟨not_le.1 allowed.2.2, events, [], rfl⟩
  | finished r outcome =>
    cases outcome with
    | error e => exact h.of_memory_eq rfl rfl fun x held => by simp [Desk.after] at held
    | ok v =>
      obtain ⟨later, _⟩ := h.inHand r allowed.2
      exact {
        memory := by
          rw [successes_concat]
          exact (Memory.latest_concat (successes events) (r, v)).symm
        increasing := by
          rw [successes_concat]
          exact h.increasing_concat later v
        inHand := by simp [Desk.after] }
  | waited => exact h.of_memory_eq rfl rfl fun x held => by simp [Desk.after, allowed.1.2] at held
  | halted => exact h.of_memory_eq rfl rfl fun x held => by simp [Desk.after, allowed.1.2] at held

end Keeps

/-! ### What a worker has to do with -/

/-- What waits for a worker, what it has in hand and what it answered are requests that it was given. -/
structure Holds (d : Desk ρ ε) (requests : List Request) : Prop where
  stack : ∀ r, .process r ∈ d.worker.stack → r ∈ requests
  hand : ∀ r, d.hand = some r → r ∈ requests
  answers : ∀ p ∈ d.answers, ∃ r ∈ requests, p.1 = r.number

private theorem Holds.start (number : Nat) (target : Target) (r : Request) :
    (Desk.start number target r : Desk ρ ε).Holds [r] where
  stack := by simp [Desk.start, Worker.start]
  hand := by simp [Desk.start]
  answers := by simp [Desk.start]

namespace Holds

variable {d : Desk ρ ε} {requests : List Request}

private theorem append (h : d.Holds requests) (more : List Request) : d.Holds (requests ++ more) where
  stack r mem := List.mem_append_left _ (h.stack r mem)
  hand r held := List.mem_append_left _ (h.hand r held)
  answers p mem := by
    obtain ⟨r, given, told⟩ := h.answers p mem
    exact ⟨r, List.mem_append_left _ given, told⟩

private theorem answers_concat (h : d.Holds requests) {r : Request} (given : r ∈ requests) (answer : Answer ρ ε) :
    ∀ p ∈ d.answers ++ [(r.number, answer)], ∃ r ∈ requests, p.1 = r.number := by
  intro p mem
  rcases List.mem_append.1 mem with mem | mem
  · exact h.answers p mem
  · rw [List.mem_singleton.1 mem]
    exact ⟨r, given, rfl⟩

theorem after (h : d.Holds requests) {e : Event ρ ε} (allowed : d.Allows e) :
    (d.after e).Holds (requests ++ e.request?.toList) := by
  have rest (r : Request) (mem : .process r ∈ d.worker.stack.tail) : r ∈ requests :=
    h.stack r (List.mem_of_mem_tail mem)
  cases e with
  | given job =>
    have more := h.append (Event.given job : Event ρ ε).request?.toList
    refine ⟨fun r mem => ?_, more.hand, more.answers⟩
    rcases List.mem_cons.1 mem with rfl | mem
    · simp [Event.request?]
    · exact more.stack r mem
  | remembered r =>
    have given : r ∈ requests := h.stack r (List.mem_of_mem_head? allowed.2.1)
    have holds : (d.after (.remembered r)).Holds requests := ⟨rest, h.hand, h.answers_concat given _⟩
    exact holds.append []
  | called r =>
    have given : r ∈ requests := h.stack r (List.mem_of_mem_head? allowed.2.1)
    have holds : (d.after (.called r)).Holds requests := ⟨rest, fun x held => Option.some.inj held ▸ given, h.answers⟩
    exact holds.append []
  | finished r outcome =>
    have given : r ∈ requests := h.hand r allowed.2
    have holds : (d.after (.finished r outcome)).Holds requests :=
      ⟨h.stack, by simp [Desk.after], h.answers_concat given _⟩
    exact holds.append []
  | waited =>
    have holds : (d.after .waited).Holds requests := ⟨h.stack, h.hand, h.answers⟩
    exact holds.append []
  | halted =>
    have holds : (d.after .halted).Holds requests := ⟨rest, h.hand, h.answers⟩
    exact holds.append []

end Holds

end Desk

/-! ### Lives -/

/-- All that happened to a worker from its first request on. -/
structure Life (ρ ε : Type) where
  number : Nat
  target : Target
  first : Request
  events : List (Event ρ ε)
  /-- The desk as it is now. -/
  now : Desk ρ ε
  lived : (Desk.start number target first).run? events = some now

namespace Life

/-- A worker that was set up just now. -/
def start (number : Nat) (target : Target) (r : Request) : Life ρ ε :=
  ⟨number, target, r, [], .start number target r, rfl⟩

/-- Something more happens. -/
def extend (l : Life ρ ε) (e : Event ρ ε) (allowed : l.now.Allows e) : Life ρ ε where
  number := l.number
  target := l.target
  first := l.first
  events := l.events ++ [e]
  now := l.now.after e
  lived := Desk.run?_concat.2 ⟨l.now, l.lived, allowed, rfl⟩

/-- All requests that the worker ever had. -/
def requests (l : Life ρ ε) : List Request :=
  l.first :: l.events.filterMap Event.request?

theorem requests_extend (l : Life ρ ε) (e : Event ρ ε) (allowed : l.now.Allows e) :
    (l.extend e allowed).requests = l.requests ++ e.request?.toList := by
  rw [requests, extend, List.filterMap_append, requests, List.cons_append]
  cases h : e.request? <;> simp [h]

/-- What is true of a worker that was set up just now, and is kept by all that can happen, is true of every life. -/
@[elab_as_elim]
theorem inductionOn {motive : Life ρ ε → Prop} (l : Life ρ ε)
    (start : ∀ number target r, motive (.start number target r))
    (extend : ∀ l e allowed, motive l → motive (l.extend e allowed)) : motive l := by
  obtain ⟨number, target, first, events, now, lived⟩ := l
  induction events using List.reverseRecOn generalizing now with
  | nil =>
    cases lived
    exact start number target first
  | append_singleton events e ih =>
    obtain ⟨middle, earlier, allowed, rfl⟩ := Desk.run?_concat.1 lived
    exact extend ⟨number, target, first, events, middle, earlier⟩ e allowed (ih middle earlier)

theorem now_worker (l : Life ρ ε) : l.now.worker.number = l.number ∧ l.now.worker.target = l.target := by
  induction l using inductionOn with
  | start number target r => exact ⟨rfl, rfl⟩
  | extend l e allowed ih =>
    rw [extend, Desk.number_after, Desk.target_after]
    exact ih

theorem keeps (l : Life ρ ε) : l.now.Keeps l.events := by
  induction l using inductionOn with
  | start number target r => exact .start number target r
  | extend l e allowed ih => exact ih.after allowed

theorem holds (l : Life ρ ε) : l.now.Holds l.requests := by
  induction l using inductionOn with
  | start number target r => exact .start number target r
  | extend l e allowed ih =>
    rw [requests_extend]
    exact ih.after allowed

/-! ### Moments -/

/-- An event in a life, and the desk just before it. -/
structure Moment (l : Life ρ ε) where
  before : List (Event ρ ε)
  event : Event ρ ε
  later : List (Event ρ ε)
  split : l.events = before ++ event :: later
  desk : Desk ρ ε
  reached : (Desk.start l.number l.target l.first).run? before = some desk

namespace Moment

variable {l : Life ρ ε}

/-- The desk just after the event. -/
def next (m : l.Moment) : Desk ρ ε :=
  m.desk.after m.event

private theorem allowed (m : l.Moment) : m.desk.Allows m.event := by
  have lived := l.lived
  rw [m.split, Desk.run?_append] at lived
  obtain ⟨middle, ran, rest⟩ := lived
  obtain rfl : m.desk = middle := Option.some.inj (m.reached.symm.trans ran)
  exact (Desk.run?_cons.1 rest).1

/-- The life up to the moment. -/
def past (m : l.Moment) : Life ρ ε :=
  ⟨l.number, l.target, l.first, m.before, m.desk, m.reached⟩

theorem keeps (m : l.Moment) : m.desk.Keeps m.before :=
  m.past.keeps

/-- The last moment of a life. -/
def last (l : Life ρ ε) (e : Event ρ ε) (allowed : l.now.Allows e) : (l.extend e allowed).Moment :=
  ⟨l.events, e, [], rfl, l.now, l.lived⟩

/-- A moment stays one when the life goes on. -/
def onward (m : l.Moment) (e : Event ρ ε) (allowed : l.now.Allows e) : (l.extend e allowed).Moment :=
  ⟨m.before, m.event, m.later ++ [e], (congrArg (· ++ [e]) m.split).trans (List.append_assoc ..), m.desk, m.reached⟩

end Moment

/-- Every event of a life has its moment. -/
theorem exists_moment (l : Life ρ ε) {before later : List (Event ρ ε)} {e : Event ρ ε}
    (split : l.events = before ++ e :: later) : ∃ m : l.Moment, m.before = before ∧ m.event = e := by
  have lived := l.lived
  rw [split, Desk.run?_append] at lived
  obtain ⟨desk, reached, _⟩ := lived
  exact ⟨⟨before, e, later, split, desk, reached⟩, rfl, rfl⟩

/-- Every answer was given at some moment, to a request that was answered from memory or processed. -/
private theorem exists_moment_of_mem_answers (l : Life ρ ε) {p : Nat × Answer ρ ε} (h : p ∈ l.now.answers) :
    ∃ (m : l.Moment) (r : Request), (m.event = .remembered r ∨ ∃ outcome, m.event = .finished r outcome) ∧
      p.1 = r.number ∧ m.next.answers = m.desk.answers ++ [p] := by
  induction l using inductionOn with
  | start number target r => cases h
  | extend l e allowed ih =>
    rcases Desk.mem_answers_after h with earlier | ⟨r, answers, told, added⟩
    · obtain ⟨m, r, answers, told, added⟩ := ih earlier
      exact ⟨m.onward e allowed, r, answers, told, added⟩
    · exact ⟨.last l e allowed, r, answers, told, added⟩

/-- Answers are never older than the requests. -/
structure Coalesces (l : Life ρ ε) : Prop where
  /-- The times of the successes increase. -/
  increasing : ((successes l.events).map (·.1.time)).Pairwise (· < ·)
  /-- A request that is answered from memory gets the result of the latest success, which is not older. -/
  remembered : ∀ (m : l.Moment) (r : Request), m.event = .remembered r → 0 < r.time →
    ∃ run, (successes m.before).getLast? = some run ∧ r.time ≤ run.1.time ∧
      m.next.answers = m.desk.answers ++ [(r.number, .result (some run.2))]
  /-- The processor is called for none but requests that are later than all successes. -/
  called : ∀ (m : l.Moment) (r : Request), m.event = .called r → ∀ run ∈ successes m.before, run.1.time < r.time
  /-- The processor comes back with what it was called for, and no turn was made in the meantime. -/
  finished : ∀ (m : l.Moment) (r : Request) (outcome : Except ε ρ), m.event = .finished r outcome →
    HasCalled m.before r
  /-- A failure is the answer to its own request, and what is remembered stays. -/
  failed : ∀ (m : l.Moment) (r : Request) (e : ε), m.event = .finished r (.error e) →
    m.next.worker.memory = m.desk.worker.memory ∧
      m.next.answers = m.desk.answers ++ [(r.number, .failed e)]
  /-- Every answer is given in one of these ways, or with a success. -/
  answered : ∀ p ∈ l.now.answers, ∃ (m : l.Moment) (r : Request),
    (m.event = .remembered r ∨ ∃ outcome, m.event = .finished r outcome) ∧ p.1 = r.number ∧
      m.next.answers = m.desk.answers ++ [p]

theorem coalesces (l : Life ρ ε) : l.Coalesces where
  increasing := l.keeps.increasing
  remembered m r happens positive := by
    have allowed := m.allowed
    rw [happens] at allowed
    obtain ⟨_, _, old⟩ := allowed
    have memory := m.keeps.memory
    cases last : (successes m.before).getLast? with
    | none =>
      -- before the first success the time is zero
      rw [memory, Memory.latest, last] at old
      exact absurd positive (not_lt.2 old)
    | some run =>
      rw [Memory.latest, last] at memory
      refine ⟨run, rfl, ?_, ?_⟩
      · rwa [memory] at old
      · rw [Moment.next, happens, Desk.after, memory]
  called m r happens run mem := by
    have allowed := m.allowed
    rw [happens] at allowed
    obtain ⟨_, _, new⟩ := allowed
    rw [m.keeps.memory] at new
    exact lt_of_le_of_lt (Memory.time_le_latest m.keeps.increasing mem) (not_le.1 new)
  finished m r outcome happens := by
    have allowed := m.allowed
    rw [happens] at allowed
    exact (m.keeps.inHand r allowed.2).2
  failed m r e happens := by
    rw [Moment.next, happens]
    exact ⟨rfl, rfl⟩
  answered p := l.exists_moment_of_mem_answers

end Life

end ManifestLens.Dispatch
