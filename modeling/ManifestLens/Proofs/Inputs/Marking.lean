import ManifestLens.Inputs.Compare
import ManifestLens.Proofs.Value.Names

/-!
# Which side an argument is on

In the list of the arguments of a call each name comes once, and an argument is marked as provided and as expected
exactly if its name is on that side (`Inputs.Marked`, kept by each name that is added).  So no argument is on one side
only exactly if both sides have the same names (`Inputs.any_differs_eq_false_iff`).
-/

namespace ManifestLens

namespace Inputs

/-- An argument with the name of the new one is changed where it first comes; without one, the new one comes last. -/
private theorem update_cases (known : Argument → Argument) (new : Argument) (arguments : List Argument) :
    (∃ before a after, arguments = before ++ a :: after ∧ a.name.equals new.name = true ∧
      update known new arguments = before ++ known a :: after ∧ ∀ b ∈ before, ¬b.name.equals new.name = true) ∨
    update known new arguments = arguments ++ [new] ∧ ∀ b ∈ arguments, ¬b.name.equals new.name = true := by
  induction arguments with
  | nil => exact .inr ⟨rfl, by simp⟩
  | cons a rest ih =>
    by_cases same : a.name.equals new.name = true
    · exact .inl ⟨[], a, rest, rfl, same, by rw [update, if_pos same, List.nil_append], by simp⟩
    · rw [update, if_neg same]
      rcases ih with ⟨before, b, after, rfl, equal, updated, none⟩ | ⟨updated, none⟩
      · exact .inl ⟨a :: before, b, after, rfl, equal, by rw [updated, List.cons_append], by simpa [same] using none⟩
      · exact .inr ⟨by rw [updated, List.cons_append], by simpa [same] using none⟩

/-- The name of the argument is on some side, and the argument is marked by the sides that it is on. -/
structure Argument.IsMarked (a : Argument) (given wanted : List Value) : Prop where
  source : a.name ∈ given ∨ a.name ∈ wanted
  provided : a.provided = true ↔ a.name ∈ given
  expected : a.expected = true ↔ a.name ∈ wanted

/-- The arguments have the names of both sides, each once, and are marked by the sides that they are on. -/
structure Marked (arguments : List Argument) (given wanted : List Value) : Prop where
  apart : (arguments.map (·.name)).Pairwise fun v w => ¬v.equals w = true
  marks : ∀ a ∈ arguments, a.IsMarked given wanted
  listed : ∀ v, v ∈ given ∨ v ∈ wanted → ∃ a ∈ arguments, a.name = v ∨ a.name.equals v = true

namespace Marked

variable {arguments : List Argument} {given wanted : List Value}

/-- A name that no argument has is added at the end. -/
private theorem apart_concat (h : Marked arguments given wanted) {new : Argument}
    (none : ∀ b ∈ arguments, ¬b.name.equals new.name = true) :
    ((arguments ++ [new]).map (·.name)).Pairwise fun v w => ¬v.equals w = true := by
  rw [List.map_append, List.pairwise_append]
  refine ⟨h.apart, List.pairwise_singleton _ _, ?_⟩
  intro v mem w last
  obtain ⟨b, own, rfl⟩ := List.mem_map.1 mem
  obtain rfl : w = new.name := by simpa using last
  exact none b own

/-- An argument that is changed keeps its name. -/
private theorem listed_change {before after : List Argument} {a : Argument}
    (h : Marked (before ++ a :: after) given wanted) (changed : Argument) (name : changed.name = a.name) {v : Value}
    (mem : v ∈ given ∨ v ∈ wanted) : ∃ b ∈ before ++ changed :: after, b.name = v ∨ b.name.equals v = true := by
  obtain ⟨b, mem, same⟩ := h.listed v mem
  rcases List.mem_append.1 mem with mem | mem
  · exact ⟨b, List.mem_append_left _ mem, same⟩
  · rcases List.mem_cons.1 mem with rfl | mem
    · exact ⟨changed, by simp, name ▸ same⟩
    · exact ⟨b, by simp [mem], same⟩

private theorem listed_concat (h : Marked arguments given wanted) (new : Argument) {v : Value}
    (mem : v ∈ given ∨ v ∈ wanted) : ∃ b ∈ arguments ++ [new], b.name = v ∨ b.name.equals v = true := by
  obtain ⟨b, mem, same⟩ := h.listed v mem
  exact ⟨b, List.mem_append_left _ mem, same⟩

private theorem addProvided (h : Marked arguments given []) (name : Value) :
    Marked (addProvided arguments name) (given ++ [name]) [] := by
  -- so far all arguments are provided, and none is expected
  have known (b : Argument) (mem : b ∈ arguments) : b.name ∈ given := by
    simpa using (h.marks b mem).source
  have marked (b : Argument) (mem : b ∈ arguments) : b.IsMarked (given ++ [name]) [] := by
    have own := known b mem
    have provided := (h.marks b mem).provided.2 own
    exact ⟨by simp [own], by simp [own, provided], (h.marks b mem).expected⟩
  rcases update_cases (fun a => ⟨a.name, true, false⟩) ⟨name, true, false⟩ arguments with
    ⟨before, a, after, rfl, equal, updated, _⟩ | ⟨updated, none⟩
  · have own := known a (by simp)
    rw [Inputs.addProvided, updated]
    refine ⟨by simpa using h.apart, ?_, fun v mem => ?_⟩
    · refine List.forall_mem_append.2 ⟨fun b mem => marked b (by simp [mem]), List.forall_mem_cons.2 ⟨?_, ?_⟩⟩
      · exact ⟨by simp [own], by simp [own], by simp⟩
      · exact fun b mem => marked b (by simp [mem])
    · by_cases new : v = name
      · exact ⟨⟨a.name, true, false⟩, by simp, .inr (new ▸ equal)⟩
      · exact h.listed_change ⟨a.name, true, false⟩ rfl (.inl (by simpa [new] using mem))
  · rw [Inputs.addProvided, updated]
    refine ⟨h.apart_concat none, ?_, fun v mem => ?_⟩
    · refine List.forall_mem_append.2 ⟨marked, List.forall_mem_singleton.2 ?_⟩
      exact ⟨by simp, by simp, by simp⟩
    · by_cases new : v = name
      · exact ⟨⟨name, true, false⟩, by simp, .inl new.symm⟩
      · exact h.listed_concat _ (.inl (by simpa [new] using mem))

private theorem addExpected (h : Marked arguments given wanted) (s : String) :
    Marked (addExpected arguments (.str s)) given (wanted ++ [.str s]) := by
  -- an argument with another name stays as it is
  have other (b : Argument) (mem : b ∈ arguments) (apart : b.name ≠ .str s) :
      b.IsMarked given (wanted ++ [.str s]) := by
    obtain ⟨source, provided, expected⟩ := h.marks b mem
    exact ⟨source.imp_right (List.mem_append_left _), provided, by simp [expected, apart]⟩
  have before (v : Value) (new : v ≠ .str s) (mem : v ∈ given ∨ v ∈ wanted ++ [.str s]) : v ∈ given ∨ v ∈ wanted := by
    simpa [new] using mem
  rcases update_cases (fun a => ⟨a.name, a.provided, true⟩) ⟨.str s, false, true⟩ arguments with
    ⟨front, a, back, rfl, equal, updated, none⟩ | ⟨updated, none⟩
  · have own : a.name = .str s := Value.equals_str_iff.1 equal
    have names := h.apart
    rw [List.map_append, List.map_cons, List.pairwise_append, List.pairwise_cons] at names
    rw [Inputs.addExpected, updated]
    refine ⟨by simpa using h.apart, ?_, fun v mem => ?_⟩
    · refine List.forall_mem_append.2 ⟨fun b mem => ?_, List.forall_mem_cons.2 ⟨?_, fun b mem => ?_⟩⟩
      · exact other b (by simp [mem]) fun same => none b mem (Value.equals_str_iff.2 same)
      · exact ⟨.inr (by simp [own]), (h.marks a (by simp)).provided, by simp [own]⟩
      · refine other b (by simp [mem]) fun same => ?_
        have later := names.2.1.1 b.name (List.mem_map_of_mem mem)
        rw [own, Value.str_equals_iff] at later
        exact later same.symm
    · by_cases new : v = .str s
      · exact ⟨⟨a.name, a.provided, true⟩, by simp, .inl (own.trans new.symm)⟩
      · exact h.listed_change ⟨a.name, a.provided, true⟩ rfl (before v new mem)
  · have absent : .str s ∉ given := by
      intro mem
      obtain ⟨b, mem, same⟩ := h.listed _ (.inl mem)
      rw [Value.equals_str_iff, or_self] at same
      exact none b mem (Value.equals_str_iff.2 same)
    rw [Inputs.addExpected, updated]
    refine ⟨h.apart_concat none, ?_, fun v mem => ?_⟩
    · refine List.forall_mem_append.2 ⟨fun b mem => ?_, List.forall_mem_singleton.2 ?_⟩
      · exact other b mem fun same => none b mem (Value.equals_str_iff.2 same)
      · exact ⟨by simp, by simp [absent], by simp⟩
    · by_cases new : v = .str s
      · exact ⟨⟨.str s, false, true⟩, by simp, .inl new.symm⟩
      · exact h.listed_concat _ (before v new mem)

private theorem foldl_addProvided (h : Marked arguments given []) (names : List Value) :
    Marked (names.foldl Inputs.addProvided arguments) (given ++ names) [] := by
  induction names generalizing arguments given with
  | nil => simpa using h
  | cons name names ih => simpa using ih (h.addProvided name)

private theorem foldl_addExpected (h : Marked arguments given wanted) (names : List String) :
    Marked ((names.map .str).foldl Inputs.addExpected arguments) given (wanted ++ names.map .str) := by
  induction names generalizing arguments wanted with
  | nil => simpa using h
  | cons name names ih => simpa using ih (h.addExpected name)

end Marked

private theorem marked_compare (given : List Value) (wanted : List String) :
    Marked (compare given (wanted.map .str)) given (wanted.map .str) := by
  have none : Marked [] [] [] := ⟨.nil, by simp, by simp⟩
  exact (none.foldl_addProvided given).foldl_addExpected wanted

/-- No argument is on one side only exactly if both sides have the same names. -/
theorem any_differs_eq_false_iff (given : List Value) (wanted : List String) :
    ((compare given (wanted.map .str)).any fun a => a.provided != a.expected) = false ↔
      ∀ v, v ∈ given ↔ v ∈ wanted.map Value.str := by
  have marked := marked_compare given wanted
  have sides (a : Argument) (mem : a ∈ compare given (wanted.map .str)) :
      a.provided = a.expected ↔ (a.name ∈ given ↔ a.name ∈ wanted.map Value.str) := by
    rw [Bool.eq_iff_iff, (marked.marks a mem).provided, (marked.marks a mem).expected]
  rw [List.any_eq_false]
  constructor
  · intro agree v
    -- an argument for the name is on some side, hence on both
    have both (mem : v ∈ given ∨ v ∈ wanted.map Value.str) :
        ∃ s, Value.str s ∈ given ∧ Value.str s ∈ wanted.map Value.str ∧ v = .str s := by
      obtain ⟨a, listed, same⟩ := marked.listed v mem
      have fits := (sides a listed).1 (by simpa using agree a listed)
      have isWanted : a.name ∈ wanted.map Value.str := (marked.marks a listed).source.elim fits.1 id
      obtain ⟨s, _, name⟩ := List.mem_map.1 isWanted
      rw [← name] at same isWanted fits
      exact ⟨s, fits.2 isWanted, isWanted, same.elim Eq.symm fun equal => (Value.str_equals_iff.1 equal).symm⟩
    constructor
    · intro mem
      obtain ⟨s, _, isWanted, rfl⟩ := both (.inl mem)
      exact isWanted
    · intro mem
      obtain ⟨s, isGiven, _, rfl⟩ := both (.inr mem)
      exact isGiven
  · intro same a mem
    simpa using (sides a mem).2 (same a.name)

end Inputs

end ManifestLens
