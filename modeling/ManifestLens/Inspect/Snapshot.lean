import ManifestLens.Inspect.Walk

/-!
# Snapshots of clusters

A snapshot is a mapping that has under `kind/name/namespace` what the cluster answers.
-/

namespace ManifestLens.Inspect

/-- An item of an answer as a snapshot holds it: mappings are resources. -/
def Item.ofValue : Value → Item
  | .map raw => .object raw
  | v => .plain v

/-- An answer as a snapshot holds it. -/
def Reply.ofValue : Value → Reply
  | .list items => .many (items.map Item.ofValue)
  | v => .one (.ofValue v)

/-- The name of an answer in a snapshot. -/
def replyName (kind name scope : Value) : String :=
  s!"{kind.text}/{name.text}/{scope.text}"

/-- The cluster of a snapshot; what it does not hold is not there. -/
def Cluster.ofSnapshot (snapshot : Value) : Cluster := fun kind name scope =>
  match snapshot.entries.get? (replyName kind name scope) with
  | some v => .ofValue v
  | none => .many []

end ManifestLens.Inspect
