import ManifestLens.Dispatch.Line
import Mathlib.Data.List.Nodup

/-!
# Registered workers

A dispatcher is well kept (`Dispatcher.Registered`) if no two of its workers share a key or a number and every number
is below the next one to be given out.  Then a worker is found by its key and by its number, and putting a worker in
the place of another, registering a new one and removing one each change what is found under one key only.
-/

namespace ManifestLens.Dispatch

variable {σ ρ ε : Type}

private theorem find?_eq_some_of_nodup {α β : Type} [BEq β] [LawfulBEq β] (f : α → β) {l : List α} {b : β} {x : α}
    (nodup : (l.map f).Nodup) : l.find? (f · == b) = some x ↔ x ∈ l ∧ f x = b := by
  induction l with
  | nil => simp
  | cons y l ih =>
    obtain ⟨apart, nodup⟩ := List.nodup_cons.1 nodup
    by_cases first : f y = b
    · subst first
      simp only [List.find?_cons, beq_self_eq_true, Option.some.injEq, List.mem_cons]
      constructor
      · rintro rfl
        exact ⟨.inl rfl, rfl⟩
      · rintro ⟨rfl | mem, same⟩
        · rfl
        · exact absurd (List.mem_map.2 ⟨x, mem, same⟩) apart
    · simp only [List.find?_cons, beq_eq_false_iff_ne.2 first, ih nodup, List.mem_cons]
      constructor
      · rintro ⟨mem, same⟩
        exact ⟨.inr mem, same⟩
      · rintro ⟨rfl | mem, same⟩
        · exact absurd same first
        · exact ⟨mem, same⟩

private theorem nodup_map_concat {α β : Type} (f : α → β) {l : List α} {x : α} (nodup : (l.map f).Nodup)
    (apart : ∀ y ∈ l, f y ≠ f x) : ((l ++ [x]).map f).Nodup := by
  rw [List.map_append, List.nodup_append]
  refine ⟨nodup, List.nodup_singleton _, ?_⟩
  simpa using apart

namespace Dispatcher

/-- No two workers share a key or a number. -/
structure Registered (d : Dispatcher σ ρ ε) : Prop where
  keys : d.keys.Nodup
  numbers : (d.workers.map (·.number)).Nodup
  made : ∀ w ∈ d.workers, w.number < d.made

namespace Registered

variable {d : Dispatcher σ ρ ε} {v w w' : Worker ρ} {key : String}

theorem find?_eq_some_iff (h : d.Registered) : d.find? key = some w ↔ w ∈ d.workers ∧ w.target.key = key :=
  find?_eq_some_of_nodup (fun w : Worker ρ => w.target.key) h.keys

theorem worker?_eq_some_iff (h : d.Registered) {n : Nat} : d.worker? n = some w ↔ w ∈ d.workers ∧ w.number = n :=
  find?_eq_some_of_nodup (fun w : Worker ρ => w.number) h.numbers

private theorem find?_eq_none_iff : d.find? key = none ↔ ∀ w ∈ d.workers, w.target.key ≠ key := by
  simp [find?]

theorem eq_of_key (h : d.Registered) (hv : v ∈ d.workers) (hw : w ∈ d.workers) (same : v.target.key = w.target.key) :
    v = w :=
  List.inj_on_of_nodup_map h.keys hv hw same

theorem eq_of_number (h : d.Registered) (hv : v ∈ d.workers) (hw : w ∈ d.workers) (same : v.number = w.number) :
    v = w :=
  List.inj_on_of_nodup_map h.numbers hv hw same

/-! ### A worker in the place of another -/

theorem mem_replace (h : d.Registered) (hw : w ∈ d.workers) (number : w'.number = w.number) :
    v ∈ (d.replace w').workers ↔ v = w' ∨ v ∈ d.workers ∧ v ≠ w := by
  simp only [replace, List.mem_map, number]
  constructor
  · rintro ⟨u, hu, rfl⟩
    split
    · exact .inl rfl
    · rename_i other
      exact .inr ⟨hu, fun e => other (by rw [e])⟩
  · rintro (rfl | ⟨hv, other⟩)
    · exact ⟨w, hw, if_pos rfl⟩
    · exact ⟨v, hv, if_neg fun e => other (h.eq_of_number hv hw e)⟩

private theorem map_replace {β : Type} (f : Worker ρ → β) (h : d.Registered) (hw : w ∈ d.workers)
    (number : w'.number = w.number) (same : f w' = f w) : (d.replace w').workers.map f = d.workers.map f := by
  simp only [replace, List.map_map, List.map_inj_left, Function.comp, number]
  intro v hv
  split
  · rename_i e
    rw [same, h.eq_of_number hv hw e]
  · rfl

theorem replace (h : d.Registered) (hw : w ∈ d.workers) (number : w'.number = w.number)
    (target : w'.target = w.target) : (d.replace w').Registered where
  keys := by
    rw [Dispatcher.keys, map_replace (·.target.key) h hw number (by rw [target])]
    exact h.keys
  numbers := by
    rw [map_replace (·.number) h hw number number]
    exact h.numbers
  made v hv := by
    rcases (h.mem_replace hw number).1 hv with rfl | ⟨hv, -⟩
    · exact number ▸ h.made w hw
    · exact h.made v hv

theorem find?_replace (h : d.Registered) (hw : w ∈ d.workers) (number : w'.number = w.number)
    (target : w'.target = w.target) (key : String) :
    (d.replace w').find? key = if key = w.target.key then some w' else d.find? key := by
  ext v
  rw [(h.replace hw number target).find?_eq_some_iff, h.mem_replace hw number]
  split
  · rename_i e
    subst e
    constructor
    · rintro ⟨rfl | ⟨hv, other⟩, same⟩
      · rfl
      · exact absurd (h.eq_of_key hv hw same) other
    · rintro ⟨⟩
      exact ⟨.inl rfl, by rw [target]⟩
  · rename_i apart
    rw [h.find?_eq_some_iff]
    constructor
    · rintro ⟨rfl | ⟨hv, -⟩, same⟩
      · exact absurd (target ▸ same) (Ne.symm apart)
      · exact ⟨hv, same⟩
    · rintro ⟨hv, same⟩
      exact ⟨.inr ⟨hv, fun e => apart (by rw [← same, e])⟩, same⟩

/-! ### A worker that is set up -/

theorem setUp (h : d.Registered) {target : Target} {r : Request} (none : d.find? target.key = none) :
    (d.request target r).1.Registered := by
  have news := find?_eq_none_iff.1 none
  rw [request, none]
  exact {
    keys := nodup_map_concat (fun w : Worker ρ => w.target.key) h.keys news
    numbers := nodup_map_concat (fun w : Worker ρ => w.number) h.numbers fun w hw => Nat.ne_of_lt (h.made w hw)
    made := by
      intro w hw
      rcases List.mem_append.1 hw with hw | hw
      · exact Nat.lt_succ_of_lt (h.made w hw)
      · obtain rfl := List.mem_singleton.1 hw
        exact Nat.lt_succ_self _ }

theorem find?_setUp {target : Target} (none : d.find? target.key = none) (r : Request) (key : String) :
    (d.request target r).1.find? key = if key = target.key then some (.start d.made target r) else d.find? key := by
  rw [request, none, find?, List.find?_append]
  split
  · rename_i same
    subst same
    rw [find?] at none
    simp [none, Worker.start]
  · rename_i apart
    simp [find?, Worker.start, Ne.symm apart]

/-! ### A worker that is removed -/

theorem mem_cleanup {key : String} : v ∈ (d.cleanup key).workers ↔ v ∈ d.workers ∧ v.target.key ≠ key := by
  unfold cleanup
  split
  · simp
  · -- there is no worker under the key
    rename_i none
    exact ⟨fun hv => ⟨hv, find?_eq_none_iff.1 none v hv⟩, And.left⟩

theorem cleanup (h : d.Registered) (key : String) : (d.cleanup key).Registered := by
  unfold Dispatcher.cleanup
  split
  · exact {
      keys := h.keys.sublist (List.filter_sublist.map _)
      numbers := h.numbers.sublist (List.filter_sublist.map _)
      made := fun w hw => h.made w (List.mem_of_mem_filter hw) }
  · exact h

theorem find?_cleanup (h : d.Registered) (removed key : String) :
    (d.cleanup removed).find? key = if key = removed then none else d.find? key := by
  ext v
  rw [(h.cleanup removed).find?_eq_some_iff, mem_cleanup]
  split
  · rename_i same
    subst same
    simp only [reduceCtorEq, iff_false]
    rintro ⟨⟨-, other⟩, same⟩
    exact other same
  · rename_i apart
    rw [h.find?_eq_some_iff]
    constructor
    · rintro ⟨⟨hv, -⟩, same⟩
      exact ⟨hv, same⟩
    · rintro ⟨hv, rfl⟩
      exact ⟨⟨hv, apart⟩, rfl⟩

end Registered

end Dispatcher

end ManifestLens.Dispatch
