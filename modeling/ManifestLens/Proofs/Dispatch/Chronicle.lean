import ManifestLens.Proofs.Dispatch.Life
import ManifestLens.Proofs.Dispatch.Requests

/-!
# Answers are not older than requests

The chronicle of a floor (`Floor.Chronicle`) has the life of every worker that was ever made.  The lives lead to what
the workers are now, the requests that were asked are those that occur in them, and the answers to these requests were
given in them or by a removal.  Each step of a floor continues the chronicle (`Floor.Chronicle.step`): something happens
to one worker (`Floor.Chronicle.happen`), a worker is set up, or answers are given by others.

So what is true of lives is true of the workers of a floor, whatever order its steps are taken in, and running a line
of tasks is such an order (`Floor.answers_not_older`).
-/

namespace ManifestLens.Dispatch

variable {σ ρ ε : Type}

private theorem Dispatcher.exists_mem_answers {d : Dispatcher σ ρ ε} {number : Nat} (once : d.answered number = 1) :
    ∃ answer, (number, answer) ∈ d.answers := by
  have mem : number ∈ d.answers.map Prod.fst := List.count_pos_iff.1 (by rw [← answered]; omega)
  obtain ⟨p, hp, rfl⟩ := List.mem_map.1 mem
  exact ⟨p.2, hp⟩

/-- A life goes on. -/
structure Life.Continues (l' l : Life ρ ε) : Prop where
  number : l'.number = l.number
  target : l'.target = l.target
  first : l'.first = l.first
  events : l.events <+: l'.events

namespace Life.Continues

private theorem refl (l : Life ρ ε) : l.Continues l :=
  ⟨rfl, rfl, rfl, List.prefix_refl _⟩

private theorem extend (l : Life ρ ε) (e : Event ρ ε) (allowed : l.now.Allows e) : (l.extend e allowed).Continues l :=
  ⟨rfl, rfl, rfl, List.prefix_append ..⟩

end Life.Continues

namespace Floor

/-- The lives of all workers that were ever made. -/
structure Chronicle (f : Floor σ ρ ε) (lives : List (Life ρ ε)) : Prop where
  numbers : lives.map (·.number) = List.range f.dispatcher.made
  /-- The lives of workers that are registered lead to what they are now. -/
  workers : ∀ w ∈ f.dispatcher.workers, ∃ l ∈ lives, l.now.worker = w ∧ l.now.hand = f.hand w.number
  /-- The requests that were asked are those that workers under their keys were given. -/
  asked : ∀ a, a ∈ f.asked ↔ ∃ l ∈ lives, l.target.key = a.1 ∧ a.2 ∈ l.requests
  answers : ∀ l ∈ lives, l.now.answers ⊆ f.dispatcher.answers
  /-- A request was answered by a worker under its key, or when that worker was removed. -/
  settled : ∀ a ∈ f.asked, ∀ p ∈ f.dispatcher.answers, p.1 = a.2.number →
    (∃ l ∈ lives, l.target.key = a.1 ∧ p ∈ l.now.answers) ∨ p.2 = .dropped a.1

/-- Each of some lives goes on in others. -/
def Onward (lives lives' : List (Life ρ ε)) : Prop :=
  ∀ l ∈ lives, ∃ l' ∈ lives', l'.Continues l

private theorem Onward.refl (lives : List (Life ρ ε)) : Onward lives lives :=
  fun l hl => ⟨l, hl, .refl l⟩

namespace Chronicle

variable {f f' : Floor σ ρ ε} {lives : List (Life ρ ε)} {l : Life ρ ε}

private theorem start (s : σ) : (Floor.start s : Floor σ ρ ε).Chronicle [] where
  numbers := rfl
  workers := by simp [Floor.start, Dispatcher.start]
  asked := by simp [Floor.start]
  answers := by simp
  settled := by simp [Floor.start]

private theorem eq_of_number (h : f.Chronicle lives) {x : Life ρ ε} (hx : x ∈ lives) (hl : l ∈ lives)
    (same : x.number = l.number) : x = l := by
  have nodup : (lives.map (·.number)).Nodup := h.numbers ▸ List.nodup_range
  exact List.inj_on_of_nodup_map nodup hx hl same

end Chronicle

/-! ### Something that happens to a worker -/

/-- Puts a life in the place of the one with its number. -/
def put (lives : List (Life ρ ε)) (l : Life ρ ε) : List (Life ρ ε) :=
  lives.map fun x => if x.number = l.number then l else x

section Put

variable {lives : List (Life ρ ε)} {l l' x : Life ρ ε}

private theorem map_number_put (lives : List (Life ρ ε)) (l : Life ρ ε) :
    (put lives l).map (·.number) = lives.map (·.number) := by
  simp only [put, List.map_map, List.map_inj_left, Function.comp]
  intro x _
  split
  · rename_i same
    exact same.symm
  · rfl

private theorem mem_put_self (hl : l ∈ lives) (same : l'.number = l.number) : l' ∈ put lives l' :=
  List.mem_map.2 ⟨l, hl, if_pos same.symm⟩

private theorem mem_put_of_ne (hx : x ∈ lives) (apart : x.number ≠ l'.number) : x ∈ put lives l' :=
  List.mem_map.2 ⟨x, hx, if_neg apart⟩

private theorem mem_of_mem_put (hx : x ∈ put lives l') : x = l' ∨ x ∈ lives := by
  obtain ⟨y, hy, rfl⟩ := List.mem_map.1 hx
  split
  · exact .inl rfl
  · exact .inr hy

end Put

/-- What an event in the life of one worker leaves of a floor: the other workers are as they were, and the answers
that the worker gives are added. -/
structure Follows (f' f : Floor σ ρ ε) (l : Life ρ ε) (e : Event ρ ε) : Prop where
  made : f'.dispatcher.made = f.dispatcher.made
  workers : ∀ w ∈ f'.dispatcher.workers,
    w = (l.now.after e).worker ∨ w ∈ f.dispatcher.workers ∧ w.number ≠ l.number
  own : f'.hand l.number = (l.now.after e).hand
  others : ∀ n, n ≠ l.number → f'.hand n = f.hand n
  asked : ∀ a, a ∈ f'.asked ↔ a ∈ f.asked ∨ l.target.key = a.1 ∧ e.request? = some a.2
  fresh : ∀ r, e.request? = some r → r.number ∉ f.used
  answers : ∃ given, f'.dispatcher.answers = f.dispatcher.answers ++ given ∧
    (l.now.after e).answers = l.now.answers ++ given

namespace Chronicle

variable {f f' : Floor σ ρ ε} {lives : List (Life ρ ε)} {l : Life ρ ε} {e : Event ρ ε}

private theorem onward_put (h : f.Chronicle lives) (hl : l ∈ lives) (allowed : l.now.Allows e) :
    Onward lives (put lives (l.extend e allowed)) := by
  intro x hx
  by_cases same : x.number = l.number
  · obtain rfl := h.eq_of_number hx hl same
    exact ⟨_, mem_put_self hl rfl, .extend x e allowed⟩
  · exact ⟨x, mem_put_of_ne hx same, .refl x⟩

/-- Answers that are in a life are still there when it goes on. -/
private theorem answers_onward (h : f.Chronicle lives) (hl : l ∈ lives) (allowed : l.now.Allows e)
    {given : List (Nat × Answer ρ ε)} (told : (l.now.after e).answers = l.now.answers ++ given) {x : Life ρ ε}
    (hx : x ∈ lives) {p : Nat × Answer ρ ε} (hp : p ∈ x.now.answers) :
    ∃ x' ∈ put lives (l.extend e allowed), x'.target.key = x.target.key ∧ p ∈ x'.now.answers := by
  by_cases same : x.number = l.number
  · obtain rfl := h.eq_of_number hx hl same
    have added : (x.extend e allowed).now.answers = x.now.answers ++ given := told
    exact ⟨_, mem_put_self hl rfl, rfl, added ▸ List.mem_append_left _ hp⟩
  · exact ⟨x, mem_put_of_ne hx same, rfl, hp⟩

private theorem requests_onward (h : f.Chronicle lives) (hl : l ∈ lives) (allowed : l.now.Allows e)
    (a : String × Request) :
    (∃ x ∈ put lives (l.extend e allowed), x.target.key = a.1 ∧ a.2 ∈ x.requests) ↔
      a ∈ f.asked ∨ l.target.key = a.1 ∧ e.request? = some a.2 := by
  have requests := l.requests_extend e allowed
  rw [h.asked]
  constructor
  · rintro ⟨x, hx, key, hr⟩
    rcases mem_of_mem_put hx with rfl | hx
    · rw [requests, List.mem_append, Option.mem_toList] at hr
      rcases hr with hr | hr
      · exact .inl ⟨l, hl, key, hr⟩
      · exact .inr ⟨key, hr⟩
    · exact .inl ⟨x, hx, key, hr⟩
  · rintro (⟨x, hx, key, hr⟩ | ⟨key, hr⟩)
    · by_cases same : x.number = l.number
      · obtain rfl := h.eq_of_number hx hl same
        exact ⟨_, mem_put_self hl rfl, key, requests ▸ List.mem_append_left _ hr⟩
      · exact ⟨x, mem_put_of_ne hx same, key, hr⟩
    · exact ⟨_, mem_put_self hl rfl, key, requests ▸ List.mem_append_right _ (Option.mem_toList.2 hr)⟩

/-- The chronicle goes on with an event in one life. -/
theorem happen (h : f.Chronicle lives) (inv : f.Inv) (inv' : f'.Inv) (hl : l ∈ lives) (allowed : l.now.Allows e)
    (follows : f'.Follows f l e) : f'.Chronicle (put lives (l.extend e allowed)) := by
  obtain ⟨given, added, told⟩ := follows.answers
  have asked : ∀ a, a ∈ f'.asked ↔ ∃ x ∈ put lives (l.extend e allowed), x.target.key = a.1 ∧ a.2 ∈ x.requests :=
    fun a => (follows.asked a).trans (h.requests_onward hl allowed a).symm
  have number : (l.now.after e).worker.number = l.number := (l.now.number_after e).trans l.now_worker.1
  exact {
    numbers := by rw [map_number_put, h.numbers, follows.made]
    workers := by
      intro w hw
      rcases follows.workers w hw with rfl | ⟨hw, apart⟩
      · refine ⟨_, mem_put_self hl rfl, rfl, ?_⟩
        rw [number, follows.own]
        rfl
      · obtain ⟨x, hx, rfl, hand⟩ := h.workers w hw
        rw [x.now_worker.1] at apart hand ⊢
        exact ⟨x, mem_put_of_ne hx apart, rfl, hand.trans (follows.others _ apart).symm⟩
    asked := asked
    answers := by
      intro x hx p hp
      rw [added, List.mem_append]
      rcases mem_of_mem_put hx with rfl | hx
      · have answers : (l.extend e allowed).now.answers = l.now.answers ++ given := told
        rw [answers, List.mem_append] at hp
        exact hp.imp (h.answers l hl ·) id
      · exact .inl (h.answers x hx hp)
    settled := by
      intro a ha p hp same
      rw [added, List.mem_append] at hp
      rcases hp with hp | hp
      · rcases (follows.asked a).1 ha with earlier | ⟨_, new⟩
        · rcases h.settled a earlier p hp same with ⟨x, hx, key, hp⟩ | dropped
          · obtain ⟨x', hx', key', hp⟩ := h.answers_onward hl allowed told hx hp
            exact .inl ⟨x', hx', key'.trans key, hp⟩
          · exact .inr dropped
        · -- nothing was answered under the number of a new request
          exact absurd (same ▸ inv.answers p hp) (follows.fresh _ new)
      · have answers : p ∈ (l.extend e allowed).now.answers := told ▸ List.mem_append_right _ hp
        obtain ⟨r, hr, number⟩ := (l.extend e allowed).holds.answers p answers
        have owned : (l.target.key, r) ∈ f'.asked := (asked _).2 ⟨_, mem_put_self hl rfl, rfl, hr⟩
        have key : (l.target.key, r) = a := inv'.eq_of_number owned ha (number.symm.trans same)
        exact .inl ⟨_, mem_put_self hl rfl, congrArg Prod.fst key, answers⟩ }

/-! ### The steps -/

private theorem give (h : f.Chronicle lives) (inv : f.Inv) (inv' : f'.Inv) {w : Worker ρ}
    (hw : w ∈ f.dispatcher.workers) (job : Job) (dispatcher : f'.dispatcher = (f.dispatcher.give w job).1)
    (hand : f'.hand = f.hand) (asked : ∀ a, a ∈ f'.asked ↔ a ∈ f.asked ∨ w.target.key = a.1 ∧ job = .process a.2)
    (fresh : ∀ r, job = .process r → r.number ∉ f.used) : ∃ lives', f'.Chronicle lives' ∧ Onward lives lives' := by
  obtain ⟨l, hl, rfl, held⟩ := h.workers w hw
  have request (r : Request) : (Event.given job : Event ρ ε).request? = some r ↔ job = .process r := by
    cases job <;> simp [Event.request?]
  have follows : f'.Follows f l (.given job) := {
    made := by
      rw [dispatcher]
      rfl
    workers := by
      intro v hv
      rw [dispatcher] at hv
      rcases (inv.registered.mem_replace hw (by rfl)).1 hv with rfl | ⟨hv, other⟩
      · exact .inl rfl
      · refine .inr ⟨hv, fun same => other (inv.registered.eq_of_number hv hw ?_)⟩
        rw [same, l.now_worker.1]
    own := by
      rw [hand, ← l.now_worker.1]
      exact held.symm
    others := fun n _ => by rw [hand]
    asked := fun a => by rw [asked, l.now_worker.2, request]
    fresh := fun r new => fresh r ((request r).1 new)
    answers := ⟨[], by rw [dispatcher, List.append_nil]; rfl, (List.append_nil _).symm⟩ }
  have allowed : l.now.Allows (.given job) := trivial
  exact ⟨_, h.happen inv inv' hl allowed follows, h.onward_put hl allowed⟩

private theorem turn (h : f.Chronicle lives) (inv : f.Inv) {w w' : Worker ρ} {hand : Option Request}
    {given : List (Nat × Answer ρ ε)} (hw : w ∈ f.dispatcher.workers) (running : w.phase ≠ .ended)
    (turn : w.Turn (f.hand w.number) w' hand given) (s : σ) :
    ∃ lives', (f.move w' hand given s).Chronicle lives' ∧ Onward lives lives' := by
  obtain ⟨l, hl, rfl, held⟩ := h.workers w hw
  have inv' := inv.turn hw running turn s
  rw [← held] at turn
  obtain ⟨e, isTurn, next⟩ := (Desk.turn_iff running l.now.answers).1 turn
  obtain ⟨allowed, after⟩ := Desk.next?_eq_some_iff.1 next
  have after : l.now.after e = ⟨w', hand, l.now.answers ++ given⟩ := after
  have number : w'.number = l.number := turn.number.trans l.now_worker.1
  have request : e.request? = none := by
    cases e with
    | given job => exact absurd rfl (isTurn job)
    | _ => rfl
  have follows : (f.move w' hand given s).Follows f l e := {
    made := rfl
    workers := by
      intro v hv
      rw [after]
      rcases (inv.registered.mem_replace hw turn.number).1 hv with rfl | ⟨hv, other⟩
      · exact .inl rfl
      · refine .inr ⟨hv, fun same => other (inv.registered.eq_of_number hv hw ?_)⟩
        rw [same, l.now_worker.1]
    own := by
      rw [after, ← number]
      exact Function.update_self ..
    others := fun n apart => Function.update_of_ne (number ▸ apart) ..
    asked := by simp [move, request]
    fresh := by simp [request]
    answers := ⟨given, rfl, by rw [after]⟩ }
  exact ⟨_, h.happen inv inv' hl allowed follows, h.onward_put hl allowed⟩

/-- A worker is set up for the first request under its key. -/
private theorem setUp (h : f.Chronicle lives) (inv : f.Inv) (target : Target) {r : Request} (fresh : r.number ∉ f.used)
    (none : f.dispatcher.find? target.key = none) (used : List Nat) :
    Chronicle { f with
      dispatcher := (f.dispatcher.request target r).1
      asked := (target.key, r) :: f.asked
      used := used } (lives ++ [.start f.dispatcher.made target r]) := by
  rw [Dispatcher.request, none]
  exact {
    numbers := by
      rw [List.map_append, h.numbers]
      exact List.range_succ.symm
    workers := by
      intro w hw
      rcases List.mem_append.1 hw with hw | hw
      · obtain ⟨l, hl, now⟩ := h.workers w hw
        exact ⟨l, List.mem_append_left _ hl, now⟩
      · obtain rfl := List.mem_singleton.1 hw
        exact ⟨_, List.mem_append_right _ (List.mem_singleton.2 rfl), rfl, inv.hand_made.symm⟩
    asked := by
      intro a
      simp only [List.mem_cons, h.asked, List.mem_append, List.not_mem_nil, or_false, or_and_right, exists_or,
        exists_eq_left]
      have started : (Life.start f.dispatcher.made target r : Life ρ ε).target.key = a.1 ∧
          a.2 ∈ (Life.start f.dispatcher.made target r : Life ρ ε).requests ↔ a = (target.key, r) := by
        simp [Life.start, Life.requests, Prod.ext_iff, eq_comm]
      rw [started, or_comm]
    answers := by
      intro l hl
      rcases List.mem_append.1 hl with hl | hl
      · exact h.answers l hl
      · obtain rfl := List.mem_singleton.1 hl
        exact List.nil_subset _
    settled := by
      intro a ha p hp same
      rcases List.mem_cons.1 ha with rfl | ha
      · exact absurd (same ▸ inv.answers p hp) fresh
      · rcases h.settled a ha p hp same with ⟨l, hl, given⟩ | dropped
        · exact .inl ⟨l, List.mem_append_left _ hl, given⟩
        · exact .inr dropped }

/-- Answers that are given by others are to no request that was asked, or say that the worker was removed. -/
private theorem answersOf (h : f.Chronicle lives) (given : List (Nat × Answer ρ ε))
    (made : f'.dispatcher.made = f.dispatcher.made) (workers : f'.dispatcher.workers ⊆ f.dispatcher.workers)
    (hand : f'.hand = f.hand) (asked : f'.asked = f.asked)
    (answers : f'.dispatcher.answers = f.dispatcher.answers ++ given)
    (others : ∀ a ∈ f.asked, ∀ p ∈ given, p.1 = a.2.number → p.2 = .dropped a.1) : f'.Chronicle lives where
  numbers := made ▸ h.numbers
  workers w hw := hand ▸ h.workers w (workers hw)
  asked := asked ▸ h.asked
  answers l hl := answers ▸ List.subset_append_of_subset_left _ (h.answers l hl)
  settled a ha p hp same := by
    rw [asked] at ha
    rw [answers] at hp
    rcases List.mem_append.1 hp with hp | hp
    · exact h.settled a ha p hp same
    · exact .inr (others a ha p hp same)

private theorem reply (h : f.Chronicle lives) (inv : f.Inv) {number : Nat} (fresh : number ∉ f.used)
    (answer : Answer ρ ε) (stops used : List Nat) :
    Chronicle { f with
      dispatcher := f.dispatcher.reply number answer
      stops := stops
      used := used } lives := by
  refine h.answersOf [(number, answer)] rfl (List.Subset.refl _) rfl rfl rfl fun a ha p hp same => ?_
  obtain rfl := List.mem_singleton.1 hp
  have same : number = a.2.number := same
  exact absurd (same ▸ inv.asked a ha) fresh

private theorem mem_dropped {w : Worker ρ} {p : Nat × Answer ρ ε} (hp : p ∈ w.dropped) :
    ∃ r, .process r ∈ w.stack ∧ p = (r.number, .dropped w.target.key) := by
  obtain ⟨job, hjob, told⟩ := List.mem_filterMap.1 hp
  cases job with
  | stop => cases told
  | process r => exact ⟨r, hjob, (Option.some.inj told).symm⟩

private theorem cleanup (h : f.Chronicle lives) (inv : f.Inv) (key : String) (ended : List (String × Nat)) :
    Chronicle { f with dispatcher := f.dispatcher.cleanup key, ended := ended } lives := by
  cases found : f.dispatcher.find? key with
  | none =>
    refine h.answersOf [] ?_ ?_ rfl rfl ?_ (by simp) <;> simp [Dispatcher.cleanup, found]
  | some w =>
    obtain ⟨hw, _⟩ := inv.registered.find?_eq_some_iff.1 found
    have removed : f.dispatcher.cleanup key = { f.dispatcher with
        workers := f.dispatcher.workers.filter fun v => v.target.key != key
        answers := f.dispatcher.answers ++ w.dropped } := by rw [Dispatcher.cleanup, found]
    rw [removed]
    refine h.answersOf w.dropped rfl (List.filter_subset_self _) rfl rfl rfl fun a ha p hp same => ?_
    -- what is dropped was given to the worker, so it was asked under its key
    obtain ⟨r, hr, rfl⟩ := mem_dropped hp
    obtain ⟨l, hl, rfl, _⟩ := h.workers w hw
    have asked : (l.target.key, r) ∈ f.asked := (h.asked _).2 ⟨l, hl, rfl, l.holds.stack r hr⟩
    have key : (l.target.key, r) = a := inv.eq_of_number asked ha same
    rw [l.now_worker.2, ← key]

/-- The chronicle goes on with each step. -/
theorem step (h : f.Chronicle lives) (inv : f.Inv) (step : Step f f') :
    ∃ lives', f'.Chronicle lives' ∧ Onward lives lives' := by
  have inv' := inv.step step
  cases step with
  | request target r fresh =>
    cases found : f.dispatcher.find? target.key with
    | none => exact ⟨_, h.setUp inv target fresh found _, fun l hl => ⟨l, List.mem_append_left _ hl, .refl l⟩⟩
    | some w =>
      obtain ⟨hw, key⟩ := inv.registered.find?_eq_some_iff.1 found
      refine h.give inv inv' hw (.process r) ?_ rfl ?_ ?_
      · simp only [Dispatcher.request, found]
      · simp [key, Prod.ext_iff, or_comm, eq_comm]
      · rintro _ ⟨⟩
        exact fresh
  | shutdown number fresh => exact ⟨lives, h.reply inv fresh _ _ _, .refl lives⟩
  | stray number target fresh => exact ⟨lives, h.reply inv fresh _ _ _, .refl lives⟩
  | stop before after n due =>
    cases found : f.dispatcher.worker? n with
    | none =>
      have same : (f.dispatcher.stop n).1 = f.dispatcher := by rw [Dispatcher.stop, found]
      refine ⟨lives, h.answersOf [] ?_ ?_ rfl rfl ?_ (by simp), .refl lives⟩ <;> simp [same]
    | some w =>
      refine h.give inv inv' (inv.registered.worker?_eq_some_iff.1 found).1 .stop ?_ rfl ?_ ?_
      · simp only [Dispatcher.stop, found]
      · simp
      · simp
  | turn registered running turn s => exact h.turn inv registered running turn s
  | cleanup before after key n due => exact ⟨lives, h.cleanup inv key _, .refl lives⟩

private theorem of_reachable {s : σ} (reached : Reachable s f) : ∃ lives, f.Chronicle lives := by
  induction reached with
  | refl => exact ⟨[], .start s⟩
  | tail reached step ih =>
    obtain ⟨lives, h⟩ := ih
    obtain ⟨lives', h', _⟩ := h.step (Inv.of_reachable reached) step
    exact ⟨lives', h'⟩

end Chronicle

/-! ### Answers from memory -/

/-- In every life, answers from memory are those of the latest success and not older than the request, and the
processor is called for none but later requests.  The steps of a floor are steps in the lives of its workers, from its
start on and in any order.  Running a line of requests and shutdowns is such an order, and each request in line is
answered in the life of a worker under its key, or by the removal of that worker. -/
theorem answers_not_older (s : σ) :
    (∀ l : Life ρ ε, l.Coalesces) ∧
    ((start s : Floor σ ρ ε).Chronicle [] ∧
      ∀ (f f' : Floor σ ρ ε) (lives : List (Life ρ ε)), Reachable s f → f.Chronicle lives → Step f f' →
        ∃ lives', f'.Chronicle lives' ∧ Onward lives lives') ∧
    ∀ (process : Processor σ ρ ε) (line : List Task), (∀ t ∈ line, t.number?.isSome) →
      (line.filterMap Task.number?).Nodup →
      ∃ (f : Floor σ ρ ε) (lives : List (Life ρ ε)), Reachable s f ∧ f.Chronicle lives ∧
        f.dispatcher = Dispatcher.run process (.start s) line ∧
        ∀ target r, .request target r ∈ line → ∃ answer, (r.number, answer) ∈ f.dispatcher.answers ∧
          ((∃ l ∈ lives, l.target.key = target.key ∧ (r.number, answer) ∈ l.now.answers) ∨
            answer = .dropped target.key) := by
  refine ⟨Life.coalesces, ⟨.start s, fun f f' lives reached h step => ?_⟩, fun process line incoming numbers => ?_⟩
  · exact h.step (Inv.of_reachable reached) step
  · obtain ⟨f, reached, ran, finished, asked⟩ := (scheduled_start s incoming numbers).run process line (Inv.start s)
    have inv := Inv.of_reachable reached
    obtain ⟨lives, h⟩ := Chronicle.of_reachable reached
    refine ⟨f, lives, reached, h, ran, fun target r mem => ?_⟩
    have once := inv.asked_once (asked target r mem)
    rw [finished.load_eq_zero inv, Nat.zero_add] at once
    obtain ⟨answer, given⟩ := Dispatcher.exists_mem_answers once
    exact ⟨answer, given, h.settled _ (asked target r mem) _ given rfl⟩

private def draft : Target := ⟨"check", "b.yaml"⟩

/-- A failure for the newest request, a success for one before it, and an answer with its result. -/
private def overtaken : List (Event Nat String) :=
  [.given (.process ⟨1, 5⟩), .given (.process ⟨2, 9⟩), .called ⟨2, 9⟩, .finished ⟨2, 9⟩ (.error "unreadable"),
    .called ⟨1, 5⟩, .given (.process ⟨3, 4⟩), .finished ⟨1, 5⟩ (.ok 7), .remembered ⟨3, 4⟩]

private theorem exists_overtaken : ∃ l : Life Nat String, l.events = overtaken ++ [.remembered ⟨0, 1⟩] := by
  have possible : ((Desk.start 0 draft ⟨0, 1⟩).run? (overtaken ++ [.remembered ⟨0, 1⟩])).isSome := by decide +kernel
  obtain ⟨now, lived⟩ := Option.isSome_iff_exists.1 possible
  exact ⟨⟨0, draft, ⟨0, 1⟩, _, now, lived⟩, rfl⟩

/-- The first request is answered with the result of a later one that overtook it; the first step of a floor; and a
line in which requests overtake each other. -/
theorem answers_not_older_overtaken :
    (∃ (l : Life Nat String) (m : l.Moment), l.events = overtaken ++ [.remembered ⟨0, 1⟩] ∧
      m.event = .remembered ⟨0, 1⟩ ∧ (0 : Time) < 1 ∧
      m.next.answers = m.desk.answers ++ [(0, .result (some 7))]) ∧
    (∃ (f : Floor Unit Nat String) (lives : List (Life Nat String)), f.Chronicle lives ∧
      f.asked = [(draft.key, ⟨0, 1⟩)]) ∧
    ∃ (f : Floor Unit Nat String) (lives : List (Life Nat String)), Reachable () f ∧ f.Chronicle lives ∧
      f.dispatcher = Dispatcher.run (fun s _ => (.ok 7, s)) (.start ())
        [.request draft ⟨0, 1⟩, .request draft ⟨1, 5⟩, .request draft ⟨2, 3⟩] ∧
      ∃ answer, (0, answer) ∈ f.dispatcher.answers ∧
        ((∃ l ∈ lives, l.target.key = draft.key ∧ (0, answer) ∈ l.now.answers) ∨ answer = .dropped draft.key) := by
  obtain ⟨coalesces, ⟨begins, goesOn⟩, runs⟩ := answers_not_older (ρ := Nat) (ε := String) ()
  have positive : (0 : Time) < 1 := by decide
  refine ⟨?_, ?_, ?_⟩
  · obtain ⟨l, events⟩ := exists_overtaken
    obtain ⟨m, before, happens⟩ := l.exists_moment events
    obtain ⟨run, latest, _, answers⟩ := (coalesces l).remembered m ⟨0, 1⟩ happens positive
    obtain rfl : (⟨1, 5⟩, 7) = run := by
      rw [before] at latest
      exact Option.some.inj latest
    exact ⟨l, m, events, happens, positive, answers⟩
  · obtain ⟨lives, h, _⟩ := goesOn _ _ [] .refl begins (.request _ draft ⟨0, 1⟩ (by simp [start]))
    exact ⟨_, lives, h, rfl⟩
  · obtain ⟨f, lives, reached, h, ran, answered⟩ := runs (fun s _ => (.ok 7, s))
      [.request draft ⟨0, 1⟩, .request draft ⟨1, 5⟩, .request draft ⟨2, 3⟩] (by decide) (by decide)
    exact ⟨f, lives, reached, h, ran, answered draft ⟨0, 1⟩ (by simp)⟩

end Floor

end ManifestLens.Dispatch
