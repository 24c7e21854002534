import ManifestLens.Inspect.Arguments
import ManifestLens.Inspect.Snapshot

/-!
# The inspector

Shows a resource and all that it manages.  The snapshot of the cluster is read as JSON from standard input.
-/

open ManifestLens Inspect

/-- The message for a fault that ends the program. -/
def faultText (f : Fault) : String :=
  f.message?.getD "the answer of the cluster could not be read"

/-- All lines of an input. -/
partial def readLines (input : IO.FS.Stream) (done : String) : IO String := do
  let line ← input.getLine
  if line.isEmpty then return done else readLines input (done ++ line)

/-- Shows the resource that the arguments name. -/
def main (arguments : List String) : IO UInt32 := do
  let text ← readLines (← IO.getStdin) ""
  let cluster := Cluster.ofSnapshot ((Json.read? text).getD .null)
  let (output, stop) := ((CommandLine.ofArguments arguments).run cluster 0).output
  IO.print output
  match stop with
  | none => return 0
  | some (.exit code) => return code.toUInt32
  | some (.fault f) =>
    IO.eprintln (faultText f)
    return 1
