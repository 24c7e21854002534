import ManifestLens.Outline.Ranges
import ManifestLens.Proofs.Manifest.Derivation

/-!
# Names in the index

A document has a name in the index for each part of its outline that has an index key (`map_fst_keyRangesAll`).  A
scalar that is no expression has the same name once if it is on one or two lines, and else once as a whole and once for
each line but the last (`ScalarReading.names_eq`).
-/

namespace ManifestLens

open Yaml (Mark Node)

/-! ### Outlines -/

namespace Outline

/-- The name of an outline in the index. -/
def name? (o : Outline) : Option String :=
  named o.indexKey

/-- The names of outlines and of all that is below them. -/
def names (os : List Outline) : List String :=
  (preorderAll os).filterMap name?

private theorem map_fst_keyed (key : Option String) (base : Position) (o : Outline) :
    (keyed key (some base) o).map Prod.fst = (named key).toList := by
  unfold keyed
  cases named key <;> rfl

private theorem filterMap_name?_cons (o : Outline) (rest : List Outline) :
    (o :: rest).filterMap name? = (named o.indexKey).toList ++ rest.filterMap name? := by
  rw [List.filterMap_cons, name?]
  cases named o.indexKey <;> rfl

mutual

private theorem map_fst_keyRanges (base : Position) :
    (o : Outline) → (keyRanges (some base) o).map Prod.fst = (preorder o).filterMap name?
  | .anchor _ _ _ none => by
    rw [keyRanges, List.map_append, map_fst_keyed, preorder, filterMap_name?_cons]
    rfl
  | .anchor _ absolute _ (some children) => by
    rw [keyRanges, List.map_append, map_fst_keyed, preorder, filterMap_name?_cons,
      map_fst_keyRangesAll absolute children]
    rfl
  | .block _ _ _ none => by
    rw [keyRanges, List.map_append, map_fst_keyed, preorder, filterMap_name?_cons]
    rfl
  | .block _ _ _ (some children) => by
    rw [keyRanges, List.map_append, map_fst_keyed, preorder, filterMap_name?_cons, map_fst_keyRangesAll base children]
    rfl
  | .token _ none => by
    rw [keyRanges, List.map_append, map_fst_keyed, preorder, filterMap_name?_cons]
    rfl
  | .token _ (some children) => by
    rw [keyRanges, List.map_append, map_fst_keyed, preorder, filterMap_name?_cons, map_fst_keyRangesAll base children]
    rfl

/-- The table of index keys has the names of the outlines. -/
theorem map_fst_keyRangesAll (base : Position) :
    (os : List Outline) → (keyRangesAll (some base) os).map Prod.fst = names os
  | [] => rfl
  | o :: rest => by
    rw [keyRangesAll, List.map_append, map_fst_keyRanges base o, map_fst_keyRangesAll base rest, names, names,
      preorderAll, List.filterMap_append]

end

/-- The names of a document are its own and those of its outlines. -/
theorem map_fst_keyRanges_outline {a : Anchor} {outlines : List Outline} (children : a.children = some outlines) :
    (a.outline.keyRanges none).map Prod.fst = (named a.key).toList ++ names outlines := by
  rw [Anchor.outline, children, keyRanges, List.map_append, map_fst_keyed, map_fst_keyRangesAll]

private theorem names_block (localKey key : Option String) (range : Range) (tokens : List Token) :
    names [.block localKey key range (some (tokens.map fun t => .token t none))] =
      (key :: tokens.map (·.indexKey)).filterMap named := by
  rw [names, preorderAll_block_tokens, List.filterMap_cons, List.filterMap_cons, List.filterMap_map,
    List.filterMap_map]
  rfl

/-- A part with other children has its name still. -/
theorem name?_withChildren (children : List Outline) (o : Outline) : (o.withChildren children).name? = o.name? := by
  cases o <;> rfl

theorem mem_preorder_self (o : Outline) : o ∈ preorder o := by
  obtain ⟨_, _, _, _ | _⟩ | ⟨_, _, _, _ | _⟩ | ⟨_, _ | _⟩ := o <;> exact List.mem_cons_self

end Outline

/-! ### Scalars -/

namespace Page

private theorem map_indexKey_furtherTokens {page : Page} {first : Token} {line count : Nat} {tokens : List Token}
    (h : page.furtherTokens first line count = .ok tokens) :
    tokens.map (·.indexKey) = List.replicate count first.indexKey := by
  obtain ⟨-, rfl⟩ := furtherTokens_eq_ok_iff.1 h
  rw [List.map_map]
  exact List.map_const'.trans (congrArg (List.replicate · _) List.length_range')

private theorem indexKey_of_mem_expression {page : Page} {text : String} {start stop : Mark} {last : Position}
    {modifiers : Option (List Modifier)} {remark : Option Remark} {tokens : List Token}
    (h : (if start.line = stop.line then page.lineExpression text start last
      else page.blockExpression start stop last modifiers remark) = .ok tokens) : ∀ t ∈ tokens, t.indexKey = none := by
  have classified (base : Int) (lexed : List Expression.Token) :
      ∀ t ∈ Expression.classify base .none lexed, t.indexKey = none := by
    intro t mem
    have keys := Expression.map_classify base (·.indexKey) (fun _ => none) (fun _ _ _ => rfl) .none lexed
    have key : t.indexKey ∈ lexed.map fun _ => none := keys ▸ List.mem_map_of_mem mem
    obtain ⟨_, _, same⟩ := List.mem_map.1 key
    exact same.symm
  split at h
  · obtain ⟨_, _, _, _, rfl⟩ := lineExpression_eq_ok h
    exact classified _ _
  · obtain ⟨_, _, _, _, rfl⟩ := blockExpression_eq_ok h
    exact List.forall_mem_cons.2 ⟨rfl, classified _ _⟩

end Page

/-- How often the name of a scalar is in the index: once for the token of a scalar on one or two lines, and else once
for the block and once for the token of each line but the last. -/
def nameCopies (start stop : Mark) : Nat :=
  if stop.line ≤ start.line + 1 then 1 else stop.line - start.line + 1

namespace ScalarReading

/-- A scalar that is no expression has its name, if it has one, as often as there are outlines of it. -/
theorem names_eq {r : ScalarReading} {found : Outlined} (made : r.outlined = .ok found) :
    r.isExpression = true ∧ Outline.names found.1 = [] ∨
      r.isExpression = false ∧ ∃ key, ruledKey r.entry.indexKey (.text r.text) = .ok key ∧
        Outline.names found.1 = (List.replicate (nameCopies r.start r.stop) key).filterMap Outline.named := by
  rw [outlined] at made
  cases expression : r.isExpression with
  | true =>
    left
    rw [expression] at made
    obtain ⟨tokens, _, htokens, _, rfl⟩ := Page.expression_eq_ok made
    have keys := Page.indexKey_of_mem_expression htokens
    rw [Outline.names_block, List.filterMap_eq_nil_iff, List.forall_mem_cons, List.forall_mem_map]
    refine ⟨rfl, rfl, ?_⟩
    intro t mem
    rw [keys t mem]
    rfl
  | false =>
    right
    rw [expression] at made
    obtain ⟨first, others, ⟨length, localKey, indexKey, _, _, ruled, rfl⟩, further, rfl⟩ := Page.scalar_eq_ok made
    refine ⟨rfl, indexKey, ruled, ?_⟩
    rw [nameCopies]
    by_cases short : r.stop.line - r.start.line - 1 = 0
    · rw [if_pos short, if_pos (by omega)]
      rfl
    · have several : r.stop.line - r.start.line + 1 = r.stop.line - r.start.line - 1 + 1 + 1 := by omega
      rw [if_neg short, if_neg (by omega), Outline.names_block, List.map_cons, Page.map_indexKey_furtherTokens further,
        several, List.replicate_succ, List.replicate_succ]
      rfl

end ScalarReading

end ManifestLens
