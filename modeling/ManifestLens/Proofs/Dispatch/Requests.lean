import ManifestLens.Proofs.Dispatch.Schedule

/-!
# No request is lost

Wherever steps lead to, a request that was asked waits for the worker that is registered under its key, or that worker
has it in hand, or it was answered, and exactly one of the three, once.  A removal takes away the worker that has ended
and no other one, whatever was registered since.  Running a line of tasks is one such order of steps, and at its end
every request of the line was answered once.
-/

namespace ManifestLens.Dispatch.Floor

variable {σ ρ ε : Type} {f : Floor σ ρ ε}

/-- How often a request waits for the worker that is registered under a key. -/
def waiting (f : Floor σ ρ ε) (key : String) (r : Request) : Nat :=
  match f.dispatcher.find? key with
  | some w => w.stack.count (.process r)
  | none => 0

/-- How often the worker that is registered under a key, if it has not ended, has a request in hand. -/
def holding (f : Floor σ ρ ε) (key : String) (r : Request) : Nat :=
  match f.dispatcher.find? key with
  | some w => if w.phase ≠ .ended ∧ f.hand w.number = some r then 1 else 0
  | none => 0

private theorem Inv.waiting_add_holding (inv : f.Inv) (key : String) (r : Request) :
    f.waiting key r + f.holding key r = f.dispatcher.load f.hand key r := by
  unfold waiting holding Dispatcher.load
  cases found : f.dispatcher.find? key with
  | none => rfl
  | some w =>
    have hw := (inv.registered.find?_eq_some_iff.1 found).1
    simp only [Worker.load, Nat.add_left_cancel_iff]
    cases held : f.hand w.number with
    | none => simp
    | some x =>
      have running : w.phase ≠ .ended := fun ended => by simp [inv.hand_ended hw ended] at held
      simp [running, List.count_singleton]

/-- At the end of the line nothing waits and nothing is in hand. -/
theorem Scheduled.load_eq_zero (inv : f.Inv) (h : f.Scheduled []) (key : String) (r : Request) :
    f.dispatcher.load f.hand key r = 0 := by
  unfold Dispatcher.load
  split
  · rename_i w found
    have hw := (inv.registered.find?_eq_some_iff.1 found).1
    have stack : w.stack = [] := by
      cases phase : w.phase with
      | ready => exact absurd ((h.lined.ready w.number).2 ⟨w, hw, phase, rfl⟩) (by simp)
      | idle => exact h.lined.idle w hw phase
      | ended =>
        have due := (inv.due _).2 ⟨w, hw, phase, rfl⟩
        rw [List.map_eq_nil_iff.1 h.ended] at due
        cases due
    simp [Worker.load, stack, h.free]
  · rfl

theorem Inv.asked_once (inv : f.Inv) {a : String × Request} (ha : a ∈ f.asked) :
    f.dispatcher.load f.hand a.1 a.2 + f.dispatcher.answered a.2.number = 1 := by
  have balance := inv.balance a
  have nodup : f.asked.Nodup := List.Nodup.of_map _ inv.numbers
  rw [if_pos ha, List.count_eq_one_of_mem nodup ha] at balance
  exact balance

private theorem Inv.cleanup_only (inv : f.Inv) {e : String × Nat} (he : e ∈ f.ended) :
    ∃ w ∈ f.dispatcher.workers, w.number = e.2 ∧ w.phase = .ended ∧
      ∀ v ∈ f.dispatcher.workers, v ∈ (f.dispatcher.cleanup e.1).workers ↔ v ≠ w := by
  obtain ⟨w, hw, ended, rfl⟩ := (inv.due e).1 he
  refine ⟨w, hw, rfl, ended, fun v hv => ?_⟩
  rw [Dispatcher.Registered.mem_cleanup]
  constructor
  · rintro ⟨-, other⟩ rfl
    exact other rfl
  · exact fun other => ⟨hv, fun same => other (inv.registered.eq_of_key hv hw same)⟩

theorem scheduled_start (s : σ) {line : List Task} (incoming : ∀ t ∈ line, t.number?.isSome)
    (numbers : (line.filterMap Task.number?).Nodup) : (start s : Floor σ ρ ε).Scheduled line := by
  have none {α : Type} {g : Task → Option α} (h : ∀ t, t.number?.isSome → g t = none) : line.filterMap g = [] :=
    List.filterMap_eq_nil_iff.2 fun t ht => h t (incoming t ht)
  exact {
    free := fun _ => rfl
    stops := by
      rw [none]
      · rfl
      · rintro ⟨⟩ <;> simp [Task.number?, Task.stop?]
    ended := by
      rw [none]
      · rfl
      · rintro ⟨⟩ <;> simp [Task.number?, Task.cleanup?]
    lined := by
      rw [none]
      · exact ⟨by simp [start, Dispatcher.start], List.nodup_nil, by simp [start, Dispatcher.start]⟩
      · rintro ⟨⟩ <;> simp [Task.number?, Task.work?]
    numbers := numbers
    fresh := by simp [start] }

/-- Each request that was asked waits for the worker under its key, is in that worker's hand or was answered, once and
in one of these ways only; a removal takes away the worker that has ended and leaves all others.  Running a line of
requests and shutdowns is such an order of steps, and answers every request in line once. -/
theorem asked_exactly_once (s : σ) :
    (∀ f : Floor σ ρ ε, Reachable s f →
      (∀ a ∈ f.asked, f.waiting a.1 a.2 + f.holding a.1 a.2 + f.dispatcher.answered a.2.number = 1) ∧
      ∀ e ∈ f.ended, ∃ w ∈ f.dispatcher.workers, w.number = e.2 ∧ w.phase = .ended ∧
        ∀ v ∈ f.dispatcher.workers, v ∈ (f.dispatcher.cleanup e.1).workers ↔ v ≠ w) ∧
    ∀ (process : Processor σ ρ ε) (line : List Task), (∀ t ∈ line, t.number?.isSome) →
      (line.filterMap Task.number?).Nodup →
      ∃ f : Floor σ ρ ε, Reachable s f ∧ f.dispatcher = Dispatcher.run process (.start s) line ∧
        ∀ target r, .request target r ∈ line →
          (target.key, r) ∈ f.asked ∧ f.dispatcher.answered r.number = 1 := by
  constructor
  · intro f reached
    have inv := Inv.of_reachable reached
    refine ⟨fun a ha => ?_, fun e he => inv.cleanup_only he⟩
    rw [inv.waiting_add_holding]
    exact inv.asked_once ha
  · intro process line incoming numbers
    obtain ⟨f, steps, ran, finished, asked⟩ :=
      (scheduled_start s incoming numbers).run process line (Inv.start s)
    have inv := Inv.of_reachable steps
    refine ⟨f, steps, ran, fun target r mem => ⟨asked target r mem, ?_⟩⟩
    have once := inv.asked_once (asked target r mem)
    rwa [finished.load_eq_zero inv, Nat.zero_add] at once

private def sheet : Target := ⟨"check", "a.yaml"⟩

-- The worker takes a stop while one request waits below it, and another one comes in before the worker is removed.
private theorem exists_late : ∃ f : Floor Unit Nat String, Reachable () f ∧
    f.asked = [(sheet.key, ⟨3, 3⟩), (sheet.key, ⟨1, 2⟩), (sheet.key, ⟨0, 1⟩)] ∧ f.ended = [(sheet.key, 0)] ∧
    f.dispatcher.workers.map (·.stack) = [[.process ⟨3, 3⟩, .process ⟨1, 2⟩]] := by
  have h₀ : Reachable () (start () : Floor Unit Nat String) := .refl
  have h₁ := h₀.tail (.request _ sheet ⟨0, 1⟩ (by decide))
  have h₂ := h₁.tail (.turn _ (List.mem_singleton.2 rfl) (by decide) (.take ⟨0, 1⟩ rfl (by decide)) ())
  have h₃ := h₂.tail (.request _ sheet ⟨1, 2⟩ (by decide))
  have h₄ := h₃.tail (.shutdown _ 2 (by decide))
  have h₅ := h₄.tail (.stop _ [] [] 0 rfl)
  have h₆ := h₅.tail (.turn _ (List.mem_singleton.2 rfl) (by decide) (.finish ⟨0, 1⟩ (.error "unreadable")) ())
  have h₇ := h₆.tail (.turn _ (List.mem_singleton.2 rfl) (by decide) (.halt rfl) ())
  have h₈ := h₇.tail (.request _ sheet ⟨3, 3⟩ (by decide))
  exact ⟨_, h₈, rfl, rfl, rfl⟩

/-- Of three requests, one was answered and two wait for a worker that has ended; and a line with a shutdown between
two requests. -/
theorem asked_exactly_once_late :
    (∃ f : Floor Unit Nat String, Reachable () f ∧ f.asked.length = 3 ∧ f.ended = [(sheet.key, 0)] ∧
      f.dispatcher.workers.map (·.stack) = [[.process ⟨3, 3⟩, .process ⟨1, 2⟩]] ∧
      (∀ a ∈ f.asked, f.waiting a.1 a.2 + f.holding a.1 a.2 + f.dispatcher.answered a.2.number = 1) ∧
      ∃ w ∈ f.dispatcher.workers, w.number = 0 ∧ w.phase = .ended ∧
        ∀ v ∈ f.dispatcher.workers, v ∈ (f.dispatcher.cleanup sheet.key).workers ↔ v ≠ w) ∧
    ∃ f : Floor Unit Nat String, Reachable () f ∧
      f.dispatcher = Dispatcher.run (fun s _ => (.ok 7, s)) (.start ())
        [.request sheet ⟨0, 1⟩, .shutdown 1, .request sheet ⟨2, 2⟩] ∧
      f.dispatcher.answered 0 = 1 ∧ f.dispatcher.answered 2 = 1 := by
  constructor
  · obtain ⟨f, reached, asked, ended, left⟩ := exists_late
    obtain ⟨once, only⟩ := (asked_exactly_once ()).1 f reached
    exact ⟨f, reached, by rw [asked]; rfl, ended, left, once, only (sheet.key, 0) (by simp [ended])⟩
  · obtain ⟨f, reached, ran, answered⟩ := (asked_exactly_once ()).2 (fun s _ => (.ok 7, s))
      [.request sheet ⟨0, 1⟩, .shutdown 1, .request sheet ⟨2, 2⟩] (by decide) (by decide)
    exact ⟨f, reached, ran, (answered sheet ⟨0, 1⟩ (by simp)).2, (answered sheet ⟨2, 2⟩ (by simp)).2⟩

end ManifestLens.Dispatch.Floor
