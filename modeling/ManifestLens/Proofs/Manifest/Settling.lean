import ManifestLens.Proofs.Manifest.Growth

/-!
# Kinds are given once

Nodes are read one after the other with one schema, each by a guide of its own.  Whatever comes of these readings, an
entry with a kind keeps it, an entry without one may get one of three kinds, which it keeps from then on, and nothing
else of an entry changes (`Schema.entry_after_append`).
-/

namespace ManifestLens

open Yaml (Mark Node)

open Reading

/-! ### One reading -/

private theorem Page.growing_rootBy (page : Page) (guide : Guide) (last : Position) (n : Node) :
    Growing (page.rootBy guide last n) := by
  cases guide with
  | nothing => exact .bind (growing_allocate _) fun slot => page.growing_root slot last n
  | names members => exact .bind (growing_allocate _) fun slot => page.growing_root slot last n
  | entry slot => exact page.growing_root slot last n

private theorem Page.growing_nodeBy (page : Page) (guide : Guide) (last : Position) (n : Node) :
    Growing (page.nodeBy guide last n) := by
  unfold Page.nodeBy
  split
  · exact page.growing_node _ last n
  · exact page.growing_rootBy _ last _
  · exact page.growing_rootBy _ last _

/-- A node that is read by a guide: as a root, or with the block around it that its entry asks for. -/
structure Guided where
  page : Page
  guide : Guide
  last : Position
  node : Node
  isRoot : Bool

def Guided.reading (g : Guided) : Reading Outlined :=
  if g.isRoot then g.page.rootBy g.guide g.last g.node else g.page.nodeBy g.guide g.last g.node

private theorem Guided.growing (g : Guided) : Growing g.reading := by
  rw [reading]
  split
  · exact g.page.growing_rootBy g.guide g.last g.node
  · exact g.page.growing_nodeBy g.guide g.last g.node

/-! ### Readings one after the other -/

namespace Schema

/-- The schema after nodes were read, each with success or up to a fault. -/
def after (S : Schema) (nodes : List Guided) : Schema :=
  nodes.foldl (fun S g => (g.reading.runFrom S).2) S

private theorem after_append (S : Schema) (earlier later : List Guided) :
    S.after (earlier ++ later) = (S.after earlier).after later :=
  List.foldl_append

private theorem grows_after (S : Schema) (nodes : List Guided) : S.Grows (S.after nodes) := by
  induction nodes generalizing S with
  | nil => exact .refl S
  | cons g nodes ih => exact (g.growing S).trans (ih (g.reading.runFrom S).2)

/-- An entry that is there after some readings is there after all further ones, and but for its kind it is the same.
Its kind is the same too, or there was none and it is now that of a keyword, a number or a string. -/
theorem entry_after_append (S : Schema) (earlier later : List Guided) {s : Slot} (there : s < (S.after earlier).size) :
    s < (S.after (earlier ++ later)).size ∧
    ∃ kind : TokenKind,
      (S.after (earlier ++ later)).entry s = { (S.after earlier).entry s with kind := kind } ∧
      (kind = ((S.after earlier).entry s).kind ∨
        ((S.after earlier).entry s).kind = .unset ∧ (kind = .keyword ∨ kind = .number ∨ kind = .string)) := by
  have grown := grows_after (S.after earlier) later
  rw [after_append]
  refine ⟨Nat.lt_of_lt_of_le there grown.size, ?_⟩
  rcases grown.entry s there with same | ⟨unset, kind, settled, given⟩
  · exact ⟨_, same, .inl rfl⟩
  · exact ⟨kind, given, .inr ⟨unset, settled⟩⟩

end Schema

/-! ### A reading that ends with a fault -/

private def wordAt (tag text : String) : Node :=
  .scalar (Yaml.Tag.standard tag) text ⟨0, 0, 0⟩ ⟨text.length, 0, text.length⟩

/-- A mapping whose second key is a list, which no key can be. -/
private def listAsKey : Node :=
  .mapping (Yaml.Tag.standard "map")
    [(wordAt "str" "size", wordAt "int" "5"),
      (.sequence (Yaml.Tag.standard "seq") [] ⟨0, 0, 0⟩ ⟨0, 0, 0⟩, wordAt "str" "x")]
    ⟨0, 0, 0⟩ ⟨0, 0, 0⟩

private def readAt (slot : Slot) (node : Node) : Guided :=
  ⟨⟨[], .origin⟩, .entry slot, .origin, node, false⟩

private def sizeSchema : Schema :=
  #[{ shape := .fields [("size", 1)], strict := true }, {}]

/-- The first key of the mapping has its kind although the reading fails, and is no number later. -/
theorem entry_after_append_listAsKey :
    ((readAt 0 listAsKey).reading.runFrom sizeSchema).1.toOption.isNone = true ∧
      1 < (sizeSchema.after [readAt 0 listAsKey]).size ∧
      ((sizeSchema.after [readAt 0 listAsKey]).entry 1).kind = .keyword ∧
      ((sizeSchema.after ([readAt 0 listAsKey] ++ [readAt 1 (wordAt "int" "5")])).entry 1).kind = .keyword := by
  have there : 1 < (sizeSchema.after [readAt 0 listAsKey]).size := by decide +kernel
  have given : ((sizeSchema.after [readAt 0 listAsKey]).entry 1).kind = .keyword := by decide +kernel
  refine ⟨by decide +kernel, there, given, ?_⟩
  obtain ⟨_, kind, same, kept | ⟨unset, _⟩⟩ :=
    sizeSchema.entry_after_append [readAt 0 listAsKey] [readAt 1 (wordAt "int" "5")] there
  · rw [same, kept, given]
  · rw [given] at unset
    cases unset

end ManifestLens
