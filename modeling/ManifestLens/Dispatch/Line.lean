import ManifestLens.Dispatch.Worker

/-!
# The line of tasks

Tasks that can run stand in line, and each one runs without a break when its turn comes.  What it gives rise to joins
the end of the line.  A task other than a shutdown gives rise to less than itself, and a shutdown to no shutdown, so
the line comes to an end.
-/

namespace ManifestLens.Dispatch

/-- What can run. -/
inductive Task where
  /-- A request for a target comes in. -/
  | request (target : Target) (r : Request)
  /-- A request to end all workers comes in. -/
  | shutdown (number : Nat)
  /-- A worker is started that nobody set up. -/
  | stray (number : Nat) (target : Target)
  /-- A worker is told to stop. -/
  | stop (worker : Nat)
  /-- A worker runs. -/
  | work (worker : Nat)
  /-- A worker has ended, and what is registered under its key is removed. -/
  | cleanup (key : String)
  deriving DecidableEq

namespace Task

def isShutdown : Task → Bool
  | .shutdown _ => true
  | _ => false

/-- A bound on what a task gives rise to. -/
def weight : Task → Nat
  | .request _ _ => 3
  | .shutdown _ => 0
  | .stray _ _ => 1
  | .stop _ => 3
  | .work _ => 2
  | .cleanup _ => 1

end Task

variable {σ ρ ε : Type}

/-- The workers, the answers that were given, and the state of the processors. -/
structure Dispatcher (σ ρ ε : Type) where
  workers : List (Worker ρ)
  /-- The number of workers that were ever made. -/
  made : Nat
  answers : List (Nat × Answer ρ ε)
  state : σ

namespace Dispatcher

/-- The state in which nothing has been asked yet. -/
def start (s : σ) : Dispatcher σ ρ ε :=
  ⟨[], 0, [], s⟩

/-- The worker with a given key. -/
def find? (d : Dispatcher σ ρ ε) (key : String) : Option (Worker ρ) :=
  d.workers.find? (·.target.key == key)

/-- The worker with a given number. -/
def worker? (d : Dispatcher σ ρ ε) (number : Nat) : Option (Worker ρ) :=
  d.workers.find? (·.number == number)

/-- Puts a worker in the place of the one with its number. -/
def replace (d : Dispatcher σ ρ ε) (w : Worker ρ) : Dispatcher σ ρ ε :=
  { d with workers := d.workers.map fun v => if v.number = w.number then w else v }

/-- Answers a request. -/
def reply (d : Dispatcher σ ρ ε) (number : Nat) (answer : Answer ρ ε) : Dispatcher σ ρ ε :=
  { d with answers := d.answers ++ [(number, answer)] }

/-- Gives a job to a worker. -/
def give (d : Dispatcher σ ρ ε) (w : Worker ρ) (job : Job) : Dispatcher σ ρ ε × List Task :=
  (d.replace (w.push job), if w.phase = .idle then [.work w.number] else [])

/-- Hands a request to the worker for its target, which is made if there is none. -/
def request (d : Dispatcher σ ρ ε) (target : Target) (r : Request) : Dispatcher σ ρ ε × List Task :=
  match d.find? target.key with
  | some w => d.give w (.process r)
  | none => ({ d with workers := d.workers ++ [.start d.made target r], made := d.made + 1 }, [.work d.made])

/-- Tells a worker to stop, if it is not removed. -/
def stop (d : Dispatcher σ ρ ε) (number : Nat) : Dispatcher σ ρ ε × List Task :=
  match d.worker? number with
  | some w => d.give w .stop
  | none => (d, [])

/-- Lets a worker work through its jobs. -/
def work (process : Processor σ ρ ε) (d : Dispatcher σ ρ ε) (w : Worker ρ) : Dispatcher σ ρ ε × List Task :=
  let drained := w.memory.drain process w.target d.state w.stack
  let d := { d with answers := d.answers ++ drained.answers, state := drained.state }
  match drained.left with
  | none => (d.replace { w with stack := [], memory := drained.memory, phase := .idle }, [])
  | some left =>
    (d.replace { w with stack := left, memory := drained.memory, phase := .ended }, [.cleanup w.target.key])

/-- Removes the worker that is registered under a key, and answers the requests that are left. -/
def cleanup (d : Dispatcher σ ρ ε) (key : String) : Dispatcher σ ρ ε :=
  match d.find? key with
  | some w =>
    { d with workers := d.workers.filter fun v => v.target.key != key, answers := d.answers ++ w.dropped }
  | none => d

/-- Runs a task, and gives the tasks that it gives rise to. -/
def perform (process : Processor σ ρ ε) (d : Dispatcher σ ρ ε) : Task → Dispatcher σ ρ ε × List Task
  | .request target r => d.request target r
  | .shutdown number => (d.reply number (.result none), d.workers.map fun w => .stop w.number)
  | .stray number target => (d.reply number (.notStarted target), [])
  | .stop number => d.stop number
  | .work number =>
    match d.worker? number with
    | some w => d.work process w
    | none => (d, [])
  | .cleanup key => (d.cleanup key, [])

/-! ### Running the line -/

/-- The number of shutdowns in line. -/
def shutdowns (line : List Task) : Nat :=
  line.countP Task.isShutdown

/-- The weight of all tasks in line. -/
def weight : List Task → Nat
  | [] => 0
  | t :: line => t.weight + weight line

theorem weight_append (a b : List Task) : weight (a ++ b) = weight a + weight b := by
  induction a with
  | nil => simp [weight]
  | cons t a ih => simp [weight, ih, Nat.add_assoc]

theorem shutdowns_append (a b : List Task) : shutdowns (a ++ b) = shutdowns a + shutdowns b := by
  simp [shutdowns]

private theorem give_bounds (d : Dispatcher σ ρ ε) (w : Worker ρ) (job : Job) :
    shutdowns (d.give w job).2 = 0 ∧ weight (d.give w job).2 < 3 := by
  unfold give
  split <;> simp [shutdowns, weight, Task.isShutdown, Task.weight]

private theorem request_bounds (d : Dispatcher σ ρ ε) (target : Target) (r : Request) :
    shutdowns (d.request target r).2 = 0 ∧ weight (d.request target r).2 < 3 := by
  unfold request
  split
  · exact give_bounds d _ _
  · simp [shutdowns, weight, Task.isShutdown, Task.weight]

private theorem stop_bounds (d : Dispatcher σ ρ ε) (number : Nat) :
    shutdowns (d.stop number).2 = 0 ∧ weight (d.stop number).2 < 3 := by
  unfold stop
  split
  · exact give_bounds d _ _
  · simp [shutdowns, weight]

private theorem work_bounds (process : Processor σ ρ ε) (d : Dispatcher σ ρ ε) (w : Worker ρ) :
    shutdowns (d.work process w).2 = 0 ∧ weight (d.work process w).2 < 2 := by
  simp only [work]
  split <;> simp [shutdowns, weight, Task.isShutdown, Task.weight]

/-- No task gives rise to a shutdown. -/
theorem shutdowns_perform (process : Processor σ ρ ε) (d : Dispatcher σ ρ ε) (t : Task) :
    shutdowns (d.perform process t).2 = 0 := by
  cases t with
  | request target r => exact (request_bounds d target r).1
  | shutdown number => simp [perform, shutdowns, Task.isShutdown]
  | stray number target => rfl
  | stop number => exact (stop_bounds d number).1
  | work number =>
    simp only [perform]
    split
    · exact (work_bounds process d _).1
    · rfl
  | cleanup key => rfl

/-- A task other than a shutdown gives rise to less than itself. -/
theorem weight_perform (process : Processor σ ρ ε) (d : Dispatcher σ ρ ε) (t : Task) (h : t.isShutdown = false) :
    weight (d.perform process t).2 < t.weight := by
  cases t with
  | request target r => exact (request_bounds d target r).2
  | shutdown number => simp [Task.isShutdown] at h
  | stray number target => simp [perform, weight, Task.weight]
  | stop number => exact (stop_bounds d number).2
  | work number =>
    simp only [perform]
    split
    · exact (work_bounds process d _).2
    · simp [weight, Task.weight]
  | cleanup key => simp [perform, weight, Task.weight]

/-- Runs the tasks in line and all that they give rise to. -/
def run (process : Processor σ ρ ε) (d : Dispatcher σ ρ ε) : List Task → Dispatcher σ ρ ε
  | [] => d
  | task :: rest => run process (d.perform process task).1 (rest ++ (d.perform process task).2)
termination_by line => (shutdowns line, weight line)
decreasing_by
  have noShutdowns := shutdowns_perform process d task
  cases h : task.isShutdown with
  | true =>
    apply Prod.Lex.left
    rw [shutdowns_append, noShutdowns]
    simp [shutdowns, h]
  | false =>
    have lighter := weight_perform process d task h
    have same : shutdowns (rest ++ (d.perform process task).2) = shutdowns (task :: rest) := by
      rw [shutdowns_append, noShutdowns]
      simp [shutdowns, h]
    rw [same]
    apply Prod.Lex.right
    rw [weight_append]
    simp only [weight] at *
    omega

/-- The answer to the request with a given number. -/
def answer? (d : Dispatcher σ ρ ε) (number : Nat) : Option (Answer ρ ε) :=
  d.answers.lookup number

/-- The keys of the workers that are not removed. -/
def keys (d : Dispatcher σ ρ ε) : List String :=
  d.workers.map (·.target.key)

end Dispatcher

end ManifestLens.Dispatch
