import ManifestLens.Proofs.Dispatch.Steps

/-!
# Accounting for requests

A request that was asked is accounted for (`Floor.Inv`): what waits for the worker under its key, what that worker has
in hand and the answers together hold it once, and the workers that are to be removed are those that have ended.  Each
step keeps that (`Floor.Inv.step`), and so does every run of steps (`Floor.Inv.of_reachable`).
-/

namespace ManifestLens.Dispatch.Floor

variable {σ ρ ε : Type}

/-- Workers are registered once, the workers that are to be removed are those that have ended, and a request that was
asked is held once, by the worker under its key or by the answers. -/
structure Inv (f : Floor σ ρ ε) : Prop where
  registered : f.dispatcher.Registered
  due : ∀ e, e ∈ f.ended ↔ f.dispatcher.Ended e
  once : f.ended.Nodup
  inHand : ∀ n r, f.hand n = some r → f.dispatcher.Running n
  numbers : (f.asked.map (·.2.number)).Nodup
  asked : ∀ a ∈ f.asked, a.2.number ∈ f.used
  answers : ∀ p ∈ f.dispatcher.answers, p.1 ∈ f.used
  balance : ∀ a : String × Request, f.dispatcher.load f.hand a.1 a.2 +
    (if a ∈ f.asked then f.dispatcher.answered a.2.number else 0) = f.asked.count a

namespace Inv

variable {f : Floor σ ρ ε}

theorem start (s : σ) : (Floor.start s : Floor σ ρ ε).Inv where
  registered := ⟨List.nodup_nil, List.nodup_nil, by simp [Floor.start, Dispatcher.start]⟩
  due := by simp [Floor.start, Dispatcher.start, Dispatcher.Ended]
  once := List.nodup_nil
  inHand := by simp [Floor.start]
  numbers := List.nodup_nil
  asked := by simp [Floor.start]
  answers := by simp [Floor.start, Dispatcher.start]
  balance := by simp [Floor.start, Dispatcher.start, Dispatcher.load, Dispatcher.find?]

/-- No answer was given under a number that was not used. -/
private theorem answered_fresh (inv : f.Inv) {n : Nat} (fresh : n ∉ f.used) : f.dispatcher.answered n = 0 := by
  rw [Dispatcher.answered, List.count_eq_zero]
  intro mem
  obtain ⟨p, hp, rfl⟩ := List.mem_map.1 mem
  exact fresh (inv.answers p hp)

/-- No worker that is yet to be made has anything in hand. -/
theorem hand_made (inv : f.Inv) : f.hand f.dispatcher.made = none := by
  cases held : f.hand f.dispatcher.made with
  | none => rfl
  | some r =>
    obtain ⟨w, hw, -, e⟩ := inv.inHand _ r held
    exact absurd (inv.registered.made w hw) (by rw [e]; exact Nat.lt_irrefl _)

/-- A worker that has ended has nothing in hand. -/
theorem hand_ended (inv : f.Inv) {w : Worker ρ} (hw : w ∈ f.dispatcher.workers) (ended : w.phase = .ended) :
    f.hand w.number = none := by
  cases held : f.hand w.number with
  | none => rfl
  | some r =>
    obtain ⟨v, hv, running, e⟩ := inv.inHand _ r held
    rw [inv.registered.eq_of_number hv hw e] at running
    exact absurd ended running

theorem eq_of_number (inv : f.Inv) {a b : String × Request} (ha : a ∈ f.asked) (hb : b ∈ f.asked)
    (same : a.2.number = b.2.number) : a = b :=
  List.inj_on_of_nodup_map inv.numbers ha hb same

/-- A request that waits or is in hand was asked. -/
private theorem asked_of_load (inv : f.Inv) {a : String × Request} (h : 0 < f.dispatcher.load f.hand a.1 a.2) :
    a ∈ f.asked := by
  have balance := inv.balance a
  exact List.count_pos_iff.1 (by omega)

end Inv

/-! ### Requests that are settled -/

/-- A load is what is left when requests are taken from the worker under a key. -/
def Settles (f : Floor σ ρ ε) (key : String) (settled : List Request) (load : String × Request → Nat) : Prop :=
  ∀ a, load a + (if a.1 = key then settled.count a.2 else 0) = f.dispatcher.load f.hand a.1 a.2

namespace Settles

variable {f : Floor σ ρ ε} {key : String} {settled : List Request} {load : String × Request → Nat}

private theorem asked (h : f.Settles key settled load) (inv : f.Inv) {r : Request} (hr : r ∈ settled) :
    (key, r) ∈ f.asked := by
  have left := h (key, r)
  have pos := List.count_pos_iff.2 hr
  simp only [if_true] at left
  exact inv.asked_of_load (by simp only; omega)

private theorem used (h : f.Settles key settled load) (inv : f.Inv) {given : List (Nat × Answer ρ ε)}
    (told : given.map Prod.fst = settled.map Request.number) {p : Nat × Answer ρ ε} (hp : p ∈ given) :
    p.1 ∈ f.used := by
  have mem := List.mem_map_of_mem (f := Prod.fst) hp
  rw [told] at mem
  obtain ⟨r, hr, e⟩ := List.mem_map.1 mem
  rw [← e]
  exact inv.asked _ (h.asked inv hr)

/-- An answer to a settled request is told from the answers to all other requests by its number. -/
private theorem count_number (h : f.Settles key settled load) (inv : f.Inv) {a : String × Request} (ha : a ∈ f.asked) :
    (settled.map Request.number).count a.2.number = if a.1 = key then settled.count a.2 else 0 := by
  have told {r : Request} (hr : r ∈ settled) (e : r.number = a.2.number) : (key, r) = a :=
    inv.eq_of_number (h.asked inv hr) ha e
  split
  · rw [List.count, List.countP_map]
    refine List.countP_congr fun r hr => ?_
    simp only [Function.comp_apply, beq_iff_eq]
    exact ⟨fun e => congrArg Prod.snd (told hr e), congrArg Request.number⟩
  · rename_i other
    rw [List.count_eq_zero]
    intro mem
    obtain ⟨r, hr, e⟩ := List.mem_map.1 mem
    exact other (congrArg Prod.fst (told hr e)).symm

/-- Requests that are taken from the worker under a key and answered stay accounted for. -/
private theorem balance (h : f.Settles key settled load) (inv : f.Inv) (a : String × Request) :
    load a + (if a ∈ f.asked then
      f.dispatcher.answered a.2.number + (settled.map Request.number).count a.2.number else 0) = f.asked.count a := by
  have before := inv.balance a
  have left := h a
  by_cases ha : a ∈ f.asked
  · rw [if_pos ha] at before ⊢
    rw [h.count_number inv ha]
    omega
  · -- nothing that was not asked is held, so nothing of it can be taken
    have none := List.count_eq_zero.2 ha
    rw [if_neg ha] at before ⊢
    omega

end Settles

namespace Inv

variable {f : Floor σ ρ ε}

/-! ### The steps -/

private theorem ask (inv : f.Inv) (target : Target) {r : Request} (fresh : r.number ∉ f.used) :
    Inv { f with
      dispatcher := (f.dispatcher.request target r).1
      asked := (target.key, r) :: f.asked
      used := r.number :: f.used } := by
  have keeps := inv.registered.keeps_request target r
  exact {
    registered := keeps.registered
    due := fun e => (inv.due e).trans (keeps.ended e).symm
    once := inv.once
    inHand := fun n x held => keeps.running n (inv.inHand n x held)
    numbers := by
      refine List.nodup_cons.2 ⟨fun mem => ?_, inv.numbers⟩
      obtain ⟨a, ha, e⟩ := List.mem_map.1 mem
      have used := inv.asked a ha
      rw [e] at used
      exact fresh used
    asked := by
      intro a ha
      rcases List.mem_cons.1 ha with rfl | ha
      · exact List.mem_cons_self
      · exact List.mem_cons_of_mem _ (inv.asked a ha)
    answers := by
      intro p hp
      rw [keeps.answers] at hp
      exact List.mem_cons_of_mem _ (inv.answers p hp)
    balance := by
      rintro ⟨key, x⟩
      have balance := inv.balance (key, x)
      have none := inv.answered_fresh fresh
      simp only [Dispatcher.answered, keeps.answers] at none balance ⊢
      rw [inv.registered.load_request target r inv.hand_made, List.count_cons]
      -- the request itself waits once more than before, and has no answer under its new number
      by_cases e : (key, x) = (target.key, r)
      · obtain ⟨rfl, rfl⟩ := Prod.mk.inj e
        have notAsked : (target.key, x) ∉ f.asked := fun mem => fresh (inv.asked _ mem)
        rw [if_neg notAsked] at balance
        simp only [List.mem_cons_self, if_true, beq_self_eq_true, none]
        omega
      · simp only [List.mem_cons, e, false_or, if_false, beq_iff_eq, Ne.symm e]
        exact balance }

private theorem reply (inv : f.Inv) {number : Nat} (fresh : number ∉ f.used) (answer : Answer ρ ε) (stops : List Nat) :
    Inv { f with
      dispatcher := f.dispatcher.reply number answer
      stops := stops
      used := number :: f.used } where
  registered := ⟨inv.registered.keys, inv.registered.numbers, inv.registered.made⟩
  due := inv.due
  once := inv.once
  inHand := inv.inHand
  numbers := inv.numbers
  asked a ha := List.mem_cons_of_mem _ (inv.asked a ha)
  answers p hp := by
    rcases List.mem_append.1 hp with hp | hp
    · exact List.mem_cons_of_mem _ (inv.answers p hp)
    · rw [List.mem_singleton.1 hp]
      exact List.mem_cons_self
  balance a := by
    have balance := inv.balance a
    by_cases ha : a ∈ f.asked
    · have other : number ≠ a.2.number := fun e => fresh (e ▸ inv.asked a ha)
      simpa [ha, f.dispatcher.answered_reply, other] using balance
    · simpa [ha] using balance

private theorem stop (inv : f.Inv) (n : Nat) (stops : List Nat) :
    Inv { f with dispatcher := (f.dispatcher.stop n).1, stops := stops } := by
  have keeps := inv.registered.keeps_stop n
  exact {
    registered := keeps.registered
    due := fun e => (inv.due e).trans (keeps.ended e).symm
    once := inv.once
    inHand := fun m r held => keeps.running m (inv.inHand m r held)
    numbers := inv.numbers
    asked := inv.asked
    answers := by
      intro p hp
      rw [keeps.answers] at hp
      exact inv.answers p hp
    balance := by
      intro a
      have balance := inv.balance a
      simp only [Dispatcher.answered, keeps.answers] at balance ⊢
      rw [inv.registered.load_stop]
      exact balance }

section Turn

variable {w w' : Worker ρ} {hand : Option Request} {given : List (Nat × Answer ρ ε)}

private theorem settles_turn (inv : f.Inv) (hw : w ∈ f.dispatcher.workers)
    (t : w.Turn (f.hand w.number) w' hand given) (s : σ) {settled : List Request}
    (conserved : ∀ r, w'.load hand r + settled.count r = w.load (f.hand w.number) r) :
    f.Settles w.target.key settled fun a =>
      (f.move w' hand given s).dispatcher.load (f.move w' hand given s).hand a.1 a.2 := by
  intro a
  have replaced := inv.registered.load_replace hw t.number t.target f.hand hand a.1 a.2
  rw [← t.number] at replaced
  change (f.dispatcher.replace w').load (Function.update f.hand w'.number hand) a.1 a.2 + _ = _
  rw [replaced]
  split
  · rename_i same
    rw [conserved, same, inv.registered.load_of_mem hw]
  · rfl

private theorem once_turn (inv : f.Inv) (hw : w ∈ f.dispatcher.workers) (running : w.phase ≠ .ended)
    (t : w.Turn (f.hand w.number) w' hand given) (s : σ) : (f.move w' hand given s).ended.Nodup := by
  by_cases halted : w'.phase = .ended
  · rw [show (f.move w' hand given s).ended = f.ended ++ [(w'.target.key, w'.number)] from if_pos halted,
      ← List.concat_eq_append]
    refine List.Nodup.concat (fun he => ?_) inv.once
    -- only workers that have ended are to be removed, and this one was running
    obtain ⟨v, hv, ended, same⟩ := (inv.due _).1 he
    rw [t.number] at same
    rw [inv.registered.eq_of_number hv hw (congrArg Prod.snd same)] at ended
    exact running ended
  · rw [show (f.move w' hand given s).ended = f.ended from if_neg halted]
    exact inv.once

theorem turn (inv : f.Inv) (hw : w ∈ f.dispatcher.workers) (running : w.phase ≠ .ended)
    (t : w.Turn (f.hand w.number) w' hand given) (s : σ) : (f.move w' hand given s).Inv := by
  have mem (v : Worker ρ) : v ∈ (f.move w' hand given s).dispatcher.workers ↔ _ :=
    inv.registered.mem_replace hw t.number
  have registered := inv.registered.replace hw t.number t.target
  obtain ⟨settled, told, conserved⟩ := t.conserves
  have settles := inv.settles_turn hw t s conserved
  exact {
    registered := ⟨registered.keys, registered.numbers, registered.made⟩
    due := by
      intro e
      rw [mem_ended_move, inv.due e]
      constructor
      · rintro (⟨v, hv, ended, rfl⟩ | ⟨halted, rfl⟩)
        · exact ⟨v, (mem v).2 (.inr ⟨hv, fun same => running (same ▸ ended)⟩), ended, rfl⟩
        · exact ⟨w', (mem w').2 (.inl rfl), halted, rfl⟩
      · rintro ⟨v, hv, ended, rfl⟩
        rcases (mem v).1 hv with rfl | ⟨hv, -⟩
        · exact .inr ⟨ended, rfl⟩
        · exact .inl ⟨v, hv, ended, rfl⟩
    once := inv.once_turn hw running t s
    inHand := by
      intro n r held
      simp only [move] at held
      by_cases e : n = w'.number
      · subst e
        rw [Function.update_self] at held
        exact ⟨w', (mem w').2 (.inl rfl), t.running running held, rfl⟩
      · rw [Function.update_of_ne e] at held
        obtain ⟨v, hv, runs, rfl⟩ := inv.inHand n r held
        exact ⟨v, (mem v).2 (.inr ⟨hv, fun same => e (by rw [same, t.number])⟩), runs, rfl⟩
    numbers := inv.numbers
    asked := inv.asked
    answers := by
      intro p hp
      rcases List.mem_append.1 hp with hp | hp
      · exact inv.answers p hp
      · exact settles.used inv told hp
    balance := by
      intro a
      rw [Dispatcher.answered_append (d := f.dispatcher) rfl, told]
      exact settles.balance inv a }

end Turn

private theorem settles_cleanup (inv : f.Inv) {w : Worker ρ} (hw : w ∈ f.dispatcher.workers)
    (ended : w.phase = .ended) {settled : List Request}
    (conserved : ∀ r, settled.count r = w.stack.count (.process r)) :
    f.Settles w.target.key settled fun a => (f.dispatcher.cleanup w.target.key).load f.hand a.1 a.2 := by
  intro a
  dsimp only
  rw [inv.registered.load_cleanup]
  split
  · rename_i same
    rw [same, inv.registered.load_of_mem hw, Worker.load, inv.hand_ended hw ended, conserved]
    simp
  · rfl

/-- What is removed under the key of a worker that has ended is this worker: as long as it was registered, no other one
could be under its key. -/
private theorem cleanup (inv : f.Inv) {before after : List (String × Nat)} {key : String} {n : Nat}
    (due : f.ended = before ++ (key, n) :: after) :
    Inv { f with dispatcher := f.dispatcher.cleanup key, ended := before ++ after } := by
  obtain ⟨w, hw, ended, same⟩ := (inv.due (key, n)).1 (by simp [due])
  obtain ⟨rfl, rfl⟩ := Prod.mk.inj same
  have found := inv.registered.find?_eq_some_iff.2 ⟨hw, rfl⟩
  have answers : (f.dispatcher.cleanup w.target.key).answers = f.dispatcher.answers ++ w.dropped := by
    rw [Dispatcher.cleanup, found]
  have mem (v : Worker ρ) : v ∈ (f.dispatcher.cleanup w.target.key).workers ↔ _ :=
    Dispatcher.Registered.mem_cleanup
  have only {v : Worker ρ} (hv : v ∈ f.dispatcher.workers) (other : v ≠ w) : v.target.key ≠ w.target.key :=
    fun e => other (inv.registered.eq_of_key hv hw e)
  obtain ⟨settled, told, conserved⟩ := Worker.dropped_conserves ε w
  have settles := inv.settles_cleanup hw ended conserved
  have once := inv.once
  rw [due, List.nodup_middle] at once
  obtain ⟨notAgain, once⟩ := List.nodup_cons.1 once
  exact {
    registered := inv.registered.cleanup _
    due := by
      intro e
      have split : e ∈ f.ended ↔ e = (w.target.key, w.number) ∨ e ∈ before ++ after := by
        rw [due, List.perm_middle.mem_iff, List.mem_cons]
      constructor
      · intro he
        obtain ⟨v, hv, ended, rfl⟩ := (inv.due e).1 (split.2 (.inr he))
        refine ⟨v, (mem v).2 ⟨hv, only hv ?_⟩, ended, rfl⟩
        rintro rfl
        exact notAgain he
      · rintro ⟨v, hv, ended, rfl⟩
        obtain ⟨hv, other⟩ := (mem v).1 hv
        rcases split.1 ((inv.due _).2 ⟨v, hv, ended, rfl⟩) with e | he
        · exact absurd (congrArg Prod.fst e) other
        · exact he
    once := once
    inHand := by
      intro m r held
      obtain ⟨v, hv, runs, rfl⟩ := inv.inHand m r held
      refine ⟨v, (mem v).2 ⟨hv, only hv ?_⟩, runs, rfl⟩
      rintro rfl
      exact runs ended
    numbers := inv.numbers
    asked := inv.asked
    answers := by
      intro p hp
      simp only [answers] at hp
      rcases List.mem_append.1 hp with hp | hp
      · exact inv.answers p hp
      · exact settles.used inv told hp
    balance := by
      intro a
      rw [Dispatcher.answered_append answers, told]
      exact settles.balance inv a }

theorem step {f' : Floor σ ρ ε} (inv : f.Inv) (step : Step f f') : f'.Inv := by
  cases step with
  | request target r fresh => exact inv.ask target fresh
  | shutdown number fresh => exact inv.reply fresh _ _
  | stray number target fresh => exact inv.reply fresh _ _
  | stop before after n due => exact inv.stop n _
  | turn registered running turn s => exact inv.turn registered running turn s
  | cleanup before after key n due => exact inv.cleanup due

theorem steps {f' : Floor σ ρ ε} (inv : f.Inv) (steps : Relation.ReflTransGen Step f f') : f'.Inv := by
  induction steps with
  | refl => exact inv
  | tail _ step ih => exact ih.step step

theorem of_reachable {s : σ} (h : Reachable s f) : f.Inv :=
  (start s).steps h

end Inv

end ManifestLens.Dispatch.Floor
