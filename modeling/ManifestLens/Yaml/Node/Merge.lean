import ManifestLens.Yaml.Error
import ManifestLens.Yaml.Node

/-!
# Merge keys

A mapping may take over the pairs of other mappings by the key `<<`.  The pairs that are taken over come first, so
that the mapping's own pairs win.
-/

namespace ManifestLens.Yaml

/-- The key `=` of a mapping is a plain text. -/
def Node.asKey : Node → Node
  | .scalar tag text start stop => .scalar (if tag == Tag.value then Tag.str else tag) text start stop
  | node => node

/-- A fault in a merge into the mapping that starts at `since`. -/
def mergeFault {α : Type} (since : Mark) (problem : String → Problem) (found : Node) : Except Error α :=
  .error (.fault .values (some .mapping) (some since) (problem found.shape) found.start)

mutual

/-- The pairs that a mapping takes over, and its own. -/
def splitMerges (since : Mark) :
    List (Node × Node) → Except Error (List (Node × Node) × List (Node × Node))
  | [] => .ok ([], [])
  | (key, value) :: rest =>
    if key.tag == Tag.merge then do
      let taken ← mergedFrom since value
      let (others, own) ← splitMerges since rest
      return (taken ++ others, own)
    else do
      let (others, own) ← splitMerges since rest
      return (others, (key.asKey, value) :: own)

/-- The pairs that a mapping takes over from a mapping or a sequence of mappings; of those, the last one's come
first. -/
def mergedFrom (since : Mark) : Node → Except Error (List (Node × Node))
  | .mapping _ pairs start _ => do
    let (taken, own) ← splitMerges start pairs
    return taken ++ own
  | .sequence _ items _ _ => do
    let sources ← mergedFromItems since items
    return sources.reverse.flatten
  | .scalar tag text start stop => mergeFault since .unmergeable (.scalar tag text start stop)

def mergedFromItems (since : Mark) : List Node → Except Error (List (List (Node × Node)))
  | [] => .ok []
  | .mapping _ pairs start _ :: rest => do
    let (taken, own) ← splitMerges start pairs
    let others ← mergedFromItems since rest
    return (taken ++ own) :: others
  | .scalar tag text start stop :: _ => mergeFault since .unmergeableItem (.scalar tag text start stop)
  | .sequence tag items start stop :: _ => mergeFault since .unmergeableItem (.sequence tag items start stop)

end

/-- The pairs of a mapping with those that it takes over. -/
def mergedPairs (since : Mark) (pairs : List (Node × Node)) : Except Error (List (Node × Node)) :=
  (splitMerges since pairs).map fun (taken, own) => taken ++ own

end ManifestLens.Yaml
