import ManifestLens.Yaml.Node.Merge
import ManifestLens.Yaml.Node.Scalar

/-!
# Values of nodes

A node has a value by its tag.  Faults come up level by level: first those of the root, then those of the collections
in it from left to right, then those of the collections in them.
-/

namespace ManifestLens.Yaml

/-- A fault at a node. -/
def nodeFault {α : Type} (source : List Char) (task : Option (Task × Mark)) (problem : Problem) (mark : Mark) :
    Except Fault α :=
  .error (.yaml (.fault .values (task.map (·.1)) (task.map (·.2)) problem mark) source)

/-! ### Faults by level -/

/-- Meets a node: a collection is left for later, the value of a scalar is computed at once. -/
def meet (source : List Char) (node : Node) : Except Fault (List Node) :=
  match Form.ofTag? node.tag with
  | none => nodeFault source none (.unknownTag node.tag) node.start
  | some form => if form.isCollection then .ok [node] else (scalarValue source form node).map fun _ => []

/-- Meets nodes one after the other. -/
def meetAll (source : List Char) : List Node → Except Fault (List Node)
  | [] => .ok []
  | node :: rest => do
    let first ← meet source node
    let others ← meetAll source rest
    return first ++ others

/-- Meets the keys and values of a mapping; a key may not be a collection. -/
def meetPairs (source : List Char) (since : Mark) : List (Node × Node) → Except Fault (List Node)
  | [] => .ok []
  | (key, value) :: rest => do
    let first ← meet source key
    if first.isEmpty then
      let second ← meet source value
      let others ← meetPairs source since rest
      return second ++ others
    else nodeFault source (some (.mapping, since)) .unhashableKey key.start

/-- Meets the items of a list of pairs: each is a mapping with one pair. -/
def meetSingles (source : List Char) (task : Task) (since : Mark) : List Node → Except Fault (List Node)
  | [] => .ok []
  | .mapping _ [(key, value)] _ _ :: rest => do
    let first ← meetAll source [key, value]
    let others ← meetSingles source task since rest
    return first ++ others
  | .mapping _ pairs start _ :: _ =>
    nodeFault source (some (task, since)) (.expectedOneItem pairs.length) start
  | node :: _ => nodeFault source (some (task, since)) (.expectedSingle node.shape) node.start

/-- Opens a list of pairs. -/
def openSingles (source : List Char) (task : Task) : Node → Except Fault (List Node)
  | .sequence _ items start _ => meetSingles source task start items
  | node => nodeFault source (some (task, node.start)) (.expectedSequence node.shape) node.start

/-- Opens a collection and gives the collections in it. -/
def openCollection (source : List Char) (node : Node) : Except Fault (List Node) :=
  match Form.ofTag? node.tag with
  | some .seq =>
    match node with
    | .sequence _ items _ _ => meetAll source items
    | _ => nodeFault source none (.expectedNode "sequence" node.shape) node.start
  | some .omap => openSingles source .orderedMap node
  | some .pairs => openSingles source .pairs node
  | _ =>
    match node with
    | .mapping _ pairs start _ =>
      match mergedPairs start pairs with
      | .error e => .error (.yaml e source)
      | .ok merged => meetPairs source start merged
    | _ => nodeFault source none (.expectedNode "mapping" node.shape) node.start

/-- Opens a level of collections and gives the next one. -/
def openLevel (source : List Char) : List Node → Except Fault (List Node)
  | [] => .ok []
  | node :: rest => do
    let first ← openCollection source node
    let others ← openLevel source rest
    return first ++ others

/-- Opens level after level, as long as there are collections. -/
def openLevels (source : List Char) : (fuel : Nat) → List Node → Except Fault Unit
  | 0, _ => .ok ()
  | _, [] => .ok ()
  | fuel + 1, level => do
    let next ← openLevel source level
    openLevels source fuel next

mutual

/-- How many levels a node has. -/
def Node.depth : Node → Nat
  | .scalar _ _ _ _ => 1
  | .sequence _ items _ _ => depthOfItems items + 1
  | .mapping _ pairs _ _ => depthOfPairs pairs + 1

def depthOfItems : List Node → Nat
  | [] => 0
  | node :: rest => max node.depth (depthOfItems rest)

def depthOfPairs : List (Node × Node) → Nat
  | [] => 0
  | (key, value) :: rest => max (max key.depth value.depth) (depthOfPairs rest)

end

/-- Looks for the first fault in a document. -/
def check (source : List Char) (root : Node) : Except Fault Unit := do
  let level ← meet source root
  openLevels source (root.depth + 1) level

/-! ### Merges in place -/

/-- A mapping with one pair in a list of pairs, with its nodes changed. -/
def Node.mapSingle (f : Node → Node) : Node → Node
  | .mapping tag pairs start stop => .mapping tag (pairs.map fun (key, value) => (f key, f value)) start stop
  | node => node

/-- Pairs with merge keys replaced, and their values changed. -/
def mapMerged (f : Node → Node) (start : Mark) (pairs : List (Node × Node)) : List (Node × Node) :=
  match mergedPairs start pairs with
  | .ok merged => merged.map fun (key, value) => (key, f value)
  | .error _ => pairs

/-- A node in which merge keys are replaced by the pairs that they stand for. -/
def expand : (fuel : Nat) → Node → Node
  | 0, node => node
  | fuel + 1, node =>
    match node, Form.ofTag? node.tag with
    | .sequence tag items start stop, some .seq => .sequence tag (items.map (expand fuel)) start stop
    | .sequence tag items start stop, some .omap => .sequence tag (items.map (Node.mapSingle (expand fuel))) start stop
    | .sequence tag items start stop, some .pairs => .sequence tag (items.map (Node.mapSingle (expand fuel))) start stop
    | .mapping tag pairs start stop, some .map => .mapping tag (mapMerged (expand fuel) start pairs) start stop
    | .mapping tag pairs start stop, some .set => .mapping tag (mapMerged (expand fuel) start pairs) start stop
    | _, _ => node

/-! ### Values -/

/-- The value of a node that is read as a scalar of the given form. -/
def Form.valueOf (form : Form) (node : Node) : Value :=
  match scalarValue [] form node with
  | .ok v => v
  | .error _ => .null

mutual

/-- The value of a node without merge keys and faults. -/
def Node.value : Node → Value
  | .scalar tag text start stop => (Form.ofTag? tag).elim .null (·.valueOf (.scalar tag text start stop))
  | .sequence tag items _ _ =>
    match Form.ofTag? tag with
    | some .seq => .list (itemValues items)
    | some _ => .list (singleValues items)
    | none => .null
  | .mapping tag pairs start stop =>
    match Form.ofTag? tag with
    | some .map => .map (Entries.ofList (pairValues pairs))
    | some .set => .set ((Entries.ofList (pairValues pairs)).map (·.1))
    | some form => form.valueOf (.mapping tag pairs start stop)
    | none => .null

def itemValues : List Node → List Value
  | [] => []
  | node :: rest => node.value :: itemValues rest

def singleValues : List Node → List Value
  | [] => []
  | .mapping _ pairs _ _ :: rest => (pairValues pairs).map (fun (key, value) => .pair key value) ++ singleValues rest
  | _ :: rest => singleValues rest

def pairValues : List (Node × Node) → List (Value × Value)
  | [] => []
  | (key, value) :: rest => (key.value, value.value) :: pairValues rest

end

/-- The value of a document, and its root with merge keys replaced. -/
def valueOf (source : List Char) (root : Node) : Except Fault (Node × Value) := do
  check source root
  let expanded := expand (root.depth + 1) root
  return (expanded, expanded.value)

end ManifestLens.Yaml
