import ManifestLens.Outline.Flatten

/-!
# Runs of distances

Decoding a run of distances goes on where the part before it has arrived, so a run can be decoded piece by piece.
-/

namespace ManifestLens

/-- The place at which a run of distances arrives. -/
def Position.arrival (start : Position) (deltas : List Position) : Position :=
  deltas.foldl Position.advance start

@[simp] theorem Position.advance_character (line character distance : Int) :
    (⟨line, character⟩ : Position).advance ⟨0, distance⟩ = ⟨line, character + distance⟩ :=
  rfl

theorem decodeDeltas_append (start : Position) (a b : List Position) :
    decodeDeltas start (a ++ b) = decodeDeltas start a ++ decodeDeltas (start.arrival a) b := by
  induction a generalizing start with
  | nil => rfl
  | cons delta a ih => exact congrArg (List.cons _) (ih (start.advance delta))

theorem length_decodeDeltas (start : Position) (deltas : List Position) :
    (decodeDeltas start deltas).length = deltas.length := by
  induction deltas generalizing start with
  | nil => rfl
  | cons delta deltas ih => exact congrArg (· + 1) (ih (start.advance delta))

/-- A run arrives at the last of the places that it leads to. -/
theorem Position.arrival_eq_getLastD (start : Position) (deltas : List Position) :
    start.arrival deltas = (decodeDeltas start deltas).getLastD start := by
  induction deltas generalizing start with
  | nil => rfl
  | cons delta deltas ih =>
    show (start.advance delta).arrival deltas = _
    rw [ih, decodeDeltas, List.getLastD_cons]

theorem Position.arrival_of_decodeDeltas {α : Type} {start : Position} {deltas : List Position} {l : List α}
    {f : α → Position} {a : α} (h : decodeDeltas start deltas = l.map f) (ha : l.getLast? = some a) :
    start.arrival deltas = f a := by
  rw [Position.arrival_eq_getLastD, h, List.getLastD_eq_getLast?, List.getLast?_map, ha]
  rfl

end ManifestLens
