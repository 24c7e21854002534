import ManifestLens.Proofs.Yaml.Merging

/-!
# Nodes on the first lines

A node is within the first lines of a text if it and all nodes in it are (`Yaml.Node.isWithin`).  Replacing merge keys
by the pairs that they stand for brings in no other lines (`Yaml.isWithin_expand`).
-/

namespace ManifestLens.Yaml

mutual

/-- The node is on the first `n` lines, with all nodes in it. -/
def Node.isWithin (n : Nat) : Node → Bool
  | .scalar _ _ start stop => decide (start.line < n ∧ stop.line ≤ n)
  | .sequence _ items start stop => decide (start.line < n ∧ stop.line ≤ n) && itemsWithin n items
  | .mapping _ pairs start stop => decide (start.line < n ∧ stop.line ≤ n) && pairsWithin n pairs

def itemsWithin (n : Nat) : List Node → Bool
  | [] => true
  | node :: rest => node.isWithin n && itemsWithin n rest

def pairsWithin (n : Nat) : List (Node × Node) → Bool
  | [] => true
  | (key, value) :: rest => key.isWithin n && value.isWithin n && pairsWithin n rest

end

section

variable {n : Nat}

theorem itemsWithin_iff {items : List Node} : itemsWithin n items = true ↔ ∀ item ∈ items, item.isWithin n = true := by
  induction items with
  | nil => simp [itemsWithin]
  | cons item items ih => simp [itemsWithin, ih]

theorem Node.lines_of_isWithin {node : Node} (h : node.isWithin n = true) :
    node.start.line < n ∧ node.stop.line ≤ n := by
  cases node with
  | scalar => exact of_decide_eq_true h
  | sequence =>
    simp only [isWithin, Bool.and_eq_true, decide_eq_true_eq] at h
    exact h.1
  | mapping =>
    simp only [isWithin, Bool.and_eq_true, decide_eq_true_eq] at h
    exact h.1

/-! ### How far nodes go -/

mutual

/-- Every node is on some first lines, and on all that are more. -/
theorem Node.exists_isWithin : (node : Node) → ∃ n, ∀ m, n ≤ m → node.isWithin m = true
  | .scalar _ _ start stop => by
    refine ⟨start.line + stop.line + 1, fun m le => ?_⟩
    simp only [Node.isWithin, decide_eq_true_eq]
    omega
  | .sequence _ items start stop => by
    obtain ⟨n, inside⟩ := exists_itemsWithin items
    refine ⟨n + start.line + stop.line + 1, fun m le => ?_⟩
    simp only [Node.isWithin, Bool.and_eq_true, decide_eq_true_eq]
    exact ⟨by omega, inside m (by omega)⟩
  | .mapping _ pairs start stop => by
    obtain ⟨n, inside⟩ := exists_pairsWithin pairs
    refine ⟨n + start.line + stop.line + 1, fun m le => ?_⟩
    simp only [Node.isWithin, Bool.and_eq_true, decide_eq_true_eq]
    exact ⟨by omega, inside m (by omega)⟩

theorem exists_itemsWithin : (items : List Node) → ∃ n, ∀ m, n ≤ m → itemsWithin m items = true
  | [] => ⟨0, fun _ _ => rfl⟩
  | node :: rest => by
    obtain ⟨n, first⟩ := node.exists_isWithin
    obtain ⟨k, others⟩ := exists_itemsWithin rest
    refine ⟨n + k, fun m le => ?_⟩
    rw [itemsWithin, first m (by omega), others m (by omega), Bool.and_self]

private theorem exists_pairsWithin : (pairs : List (Node × Node)) → ∃ n, ∀ m, n ≤ m → pairsWithin m pairs = true
  | [] => ⟨0, fun _ _ => rfl⟩
  | (key, value) :: rest => by
    obtain ⟨n, keys⟩ := key.exists_isWithin
    obtain ⟨k, values⟩ := value.exists_isWithin
    obtain ⟨l, others⟩ := exists_pairsWithin rest
    refine ⟨n + k + l, fun m le => ?_⟩
    rw [pairsWithin, keys m (by omega), values m (by omega), others m (by omega), Bool.and_self, Bool.and_self]

end

/-! ### Merge keys -/

mutual

/-- A node is on the first lines if all scalars and collections in it are. -/
private theorem Node.isWithin_iff_every : (node : Node) → (node.isWithin n = true ↔
    node.Every (fun _ start stop => start.line < n ∧ stop.line ≤ n) (fun start stop => start.line < n ∧ stop.line ≤ n))
  | .scalar _ _ start stop => by
    rw [Node.isWithin, decide_eq_true_eq]
    constructor
    · intro own
      exact .scalar own
    · intro every
      cases every with
      | scalar own => exact own
  | .sequence _ items start stop => by
    rw [Node.isWithin, Bool.and_eq_true, decide_eq_true_eq, itemsWithin_iff_every items]
    constructor
    · rintro ⟨own, members⟩
      exact .sequence own members
    · intro every
      cases every with
      | sequence own members => exact ⟨own, members⟩
  | .mapping _ pairs start stop => by
    rw [Node.isWithin, Bool.and_eq_true, decide_eq_true_eq, pairsWithin_iff_every pairs]
    constructor
    · rintro ⟨own, members⟩
      exact .of_pairs own members
    · intro every
      refine ⟨?_, every.pairs⟩
      cases every with
      | mapping own => exact own

private theorem itemsWithin_iff_every : (items : List Node) → (itemsWithin n items = true ↔ ∀ item ∈ items,
    item.Every (fun _ start stop => start.line < n ∧ stop.line ≤ n) (fun start stop => start.line < n ∧ stop.line ≤ n))
  | [] => by simp [itemsWithin]
  | node :: rest => by
    rw [itemsWithin, Bool.and_eq_true, node.isWithin_iff_every, itemsWithin_iff_every rest, List.forall_mem_cons]

private theorem pairsWithin_iff_every : (pairs : List (Node × Node)) → (pairsWithin n pairs = true ↔
    EveryPair (fun _ start stop => start.line < n ∧ stop.line ≤ n) (fun start stop => start.line < n ∧ stop.line ≤ n)
      pairs)
  | [] => by simp [pairsWithin, EveryPair]
  | (key, value) :: rest => by
    rw [pairsWithin, Bool.and_eq_true, Bool.and_eq_true, key.isWithin_iff_every, value.isWithin_iff_every,
      pairsWithin_iff_every rest, EveryPair, EveryPair, List.forall_mem_cons]

end

/-- Merge keys are replaced by pairs on the same lines. -/
theorem isWithin_expand (fuel : Nat) {node : Node} (h : node.isWithin n = true) :
    (expand fuel node).isWithin n = true :=
  (expand fuel node).isWithin_iff_every.2 (.expand fuel (node.isWithin_iff_every.1 h))

end

end ManifestLens.Yaml
