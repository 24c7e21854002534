/-!
# Workers

Files are processed by workers, one for each processor and file.  A worker takes the newest request first and answers
older ones with the result that it already has: a request is processed only if it is later than all that were
processed with success before.
-/

namespace ManifestLens.Dispatch

/-- The order of requests. -/
abbrev Time := Rat

/-- A file and the processor that it is for. -/
structure Target where
  processor : String
  uri : String
  deriving DecidableEq, Inhabited

/-- The key by which the worker for a target is found. -/
def Target.key (t : Target) : String :=
  t.processor ++ "$" ++ t.uri

/-- A request to process a file as of some time.  Its number tells it from all others. -/
structure Request where
  number : Nat
  time : Time
  deriving DecidableEq

/-- What waits for a worker. -/
inductive Job where
  | process (r : Request)
  | stop
  deriving DecidableEq

/-- How a request is answered, where processing gives an `ρ` or fails with an `ε`. -/
inductive Answer (ρ ε : Type) where
  /-- The latest result, if there is one. -/
  | result (r : Option ρ)
  | failed (e : ε)
  /-- The worker ended before it came to the request. -/
  | dropped (key : String)
  /-- There is no worker to take requests. -/
  | notStarted (target : Target)

/-- The text that tells why a request was not processed. -/
def Answer.reason? {ρ ε : Type} : Answer ρ ε → Option String
  | .dropped key => some s!"Exception within handler for '{key}'"
  | .notStarted target => some s!"{target.processor} for ('{target.uri}') not initialized."
  | _ => none

/-- The latest success of a worker; before the first one, the time is zero. -/
structure Memory (ρ : Type) where
  time : Time := 0
  result : Option ρ := none

/-- A processor of files over a state of type `σ`. -/
abbrev Processor (σ ρ ε : Type) := σ → Target → Except ε ρ × σ

/-- What comes of serving a request. -/
structure Served (σ ρ ε : Type) where
  memory : Memory ρ
  answer : Answer ρ ε
  state : σ

variable {σ ρ ε : Type}

/-- What is remembered once a request was processed, and the answer to it. -/
def Memory.finish (m : Memory ρ) (r : Request) : Except ε ρ → Memory ρ × Answer ρ ε
  | .ok v => (⟨r.time, some v⟩, .result (some v))
  | .error e => (m, .failed e)

/-- Serves a request: one that is not later than the latest success is answered from memory. -/
def Memory.serve (process : Processor σ ρ ε) (target : Target) (m : Memory ρ) (r : Request) (s : σ) : Served σ ρ ε :=
  if r.time ≤ m.time then ⟨m, .result m.result, s⟩
  else
    let (outcome, s) := process s target
    let (memory, answer) := m.finish r outcome
    ⟨memory, answer, s⟩

/-- What comes of working through waiting jobs. -/
structure Drained (σ ρ ε : Type) where
  memory : Memory ρ
  answers : List (Nat × Answer ρ ε)
  state : σ
  /-- A stop was taken, and these jobs are left. -/
  left : Option (List Job)

/-- Works through jobs, the first one first, up to a stop. -/
def Memory.drain (process : Processor σ ρ ε) (target : Target) (m : Memory ρ) (s : σ) : List Job → Drained σ ρ ε
  | [] => ⟨m, [], s, none⟩
  | .stop :: rest => ⟨m, [], s, some rest⟩
  | .process r :: rest =>
    let served := m.serve process target r s
    let others := served.memory.drain process target served.state rest
    { others with answers := (r.number, served.answer) :: others.answers }

/-- What a worker is doing. -/
inductive Phase where
  /-- It is going to run. -/
  | ready
  /-- It waits for jobs. -/
  | idle
  /-- It has taken a stop and is going to be removed. -/
  | ended
  deriving DecidableEq, Inhabited

/-- A worker, with the jobs that wait for it, the newest first. -/
structure Worker (ρ : Type) where
  number : Nat
  target : Target
  stack : List Job
  memory : Memory ρ
  phase : Phase

/-- A worker that has its first request. -/
def Worker.start (number : Nat) (target : Target) (r : Request) : Worker ρ :=
  ⟨number, target, [.process r], {}, .ready⟩

/-- Gives a job to a worker; one that waits for jobs is going to run then. -/
def Worker.push (w : Worker ρ) (job : Job) : Worker ρ :=
  { w with stack := job :: w.stack, phase := if w.phase = .idle then .ready else w.phase }

/-- The answers to the requests that are left when a worker is removed. -/
def Worker.dropped (w : Worker ρ) : List (Nat × Answer ρ ε) :=
  w.stack.filterMap fun job => match job with
    | .process r => some (r.number, .dropped w.target.key)
    | .stop => none

end ManifestLens.Dispatch
