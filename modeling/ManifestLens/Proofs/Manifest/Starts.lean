import ManifestLens.Proofs.Manifest.Version
import ManifestLens.Proofs.Yaml.Lines
import ManifestLens.Proofs.Yaml.NodeOrder

/-!
# Where documents start

A mapping of a text that has something under a name that is not blank starts on a line of the text: the name is written
somewhere in it, and nothing in it stands before it (`start_lt_of_get?`).
-/

namespace ManifestLens

variable {node : Node} {v : Value} {entries : Entries} {source : List Char}

/-! ### Entries -/

private theorem Value.eq_of_equals_str {s : String} (h : v.equals (.str s) = true) : v = .str s := by
  cases v with
  | str t =>
    rw [equals, beq_iff_eq] at h
    rw [h]
  | _ => simp [equals, exactInt?] at h

namespace Entries

/-- Setting a key brings in no other one. -/
private theorem key_of_mem_insert {key value : Value} {e : Value × Value} (mem : e ∈ entries.insert key value) :
    e.1 = key ∨ e.1 ∈ entries.map (·.1) := by
  induction entries with
  | nil => exact .inl (congrArg Prod.fst (List.mem_singleton.1 mem))
  | cons first rest ih =>
    rw [insert] at mem
    split at mem
    · rcases List.mem_cons.1 mem with rfl | mem
      · exact .inr List.mem_cons_self
      · exact .inr (List.mem_cons_of_mem _ (List.mem_map_of_mem mem))
    · rcases List.mem_cons.1 mem with rfl | mem
      · exact .inr List.mem_cons_self
      · exact (ih mem).imp_right (List.mem_cons_of_mem _)

/-- The keys of a mapping are among those that it was made of. -/
private theorem key_of_mem_ofList {list : List (Value × Value)} {e : Value × Value} (mem : e ∈ ofList list) :
    e.1 ∈ list.map (·.1) := by
  have further : ∀ (list : List (Value × Value)) (acc : Entries),
      e ∈ list.foldl (fun acc e => acc.insert e.1 e.2) acc → e.1 ∈ list.map (·.1) ∨ e.1 ∈ acc.map (·.1) := by
    intro list
    induction list with
    | nil => exact fun acc mem => .inr (List.mem_map_of_mem mem)
    | cons first rest ih =>
      intro acc mem
      rcases ih _ mem with later | before
      · exact .inl (List.mem_cons_of_mem _ later)
      · obtain ⟨x, inAcc, same⟩ := List.mem_map.1 before
        rcases key_of_mem_insert inAcc with isKey | before
        · exact .inl (by rw [← same, isKey]; exact List.mem_cons_self)
        · exact .inr (same ▸ before)
  exact (further list [] mem).resolve_right List.not_mem_nil

/-- A name with a value is one of the keys that the mapping was made of. -/
private theorem mem_of_get?_ofList {list : List (Value × Value)} {name : String}
    (found : (ofList list).get? name = some v) :
    .str name ∈ list.map (·.1) := by
  obtain ⟨e, isFound, -⟩ := Option.map_eq_some_iff.1 found
  have same := Value.eq_of_equals_str (List.find?_some (p := fun e : Value × Value => e.1.equals (.str name)) isFound)
  exact same ▸ key_of_mem_ofList (List.mem_of_find?_eq_some isFound)

end Entries

namespace Yaml

variable {leaf : String → Mark → Mark → Prop} {inner : Mark → Mark → Prop}

/-! ### Texts of nodes -/

private theorem map_fst_pairValues (pairs : List (Node × Node)) :
    (pairValues pairs).map (·.1) = pairs.map (·.1.value) := by
  induction pairs with
  | nil => rfl
  | cons p pairs ih =>
    rw [pairValues, List.map_cons, List.map_cons, ih]

mutual

/-- The text of a node is that of a scalar in it. -/
private theorem Node.Every.exists_leaf {source : List Char} {text : String} : {node : Node} → node.Every leaf inner →
    scalarText source node = .ok text → ∃ start stop, leaf text start stop
  | .scalar _ _ start stop, every, isText => by
    cases every with
    | scalar own =>
      cases isText
      exact ⟨start, stop, own⟩
  | .sequence _ _ _ _, _, isText => by cases isText
  | .mapping _ pairs start _, every, isText => EveryPair.exists_leaf every.pairs isText

private theorem EveryPair.exists_leaf {source : List Char} {start : Mark} {text : String} :
    {pairs : List (Node × Node)} →
    EveryPair leaf inner pairs → scalarTextAmong source start pairs = .ok text → ∃ start stop, leaf text start stop
  | [], _, isText => by cases isText
  | (key, value) :: rest, every, isText => by
    obtain ⟨first, others⟩ := List.forall_mem_cons.1 every
    rw [scalarTextAmong] at isText
    split at isText
    · exact Node.Every.exists_leaf first.2 isText
    · exact EveryPair.exists_leaf others isText

end

/-- What is read as a scalar is no mapping, and it is a text only if it is the text of the node. -/
private theorem scalarValue_eq_ok {form : Form} (h : scalarValue source form node = .ok v) :
    (∀ entries, v ≠ .map entries) ∧ ∀ text, v = .str text → scalarText source node = .ok text := by
  obtain ⟨written, isText, h⟩ := except_bind_eq_ok_iff.1 h
  cases form with
  | null =>
    cases h
    exact ⟨nofun, nofun⟩
  | bool =>
    simp only [boolValue] at h
    split at h
    · cases h
      exact ⟨nofun, nofun⟩
    · split at h
      · cases h
        exact ⟨nofun, nofun⟩
      · cases h
  | int =>
    obtain ⟨_, _, h⟩ := except_bind_eq_ok_iff.1 h
    obtain ⟨_, _, h⟩ := except_bind_eq_ok_iff.1 h
    cases h
    exact ⟨nofun, nofun⟩
  | float =>
    obtain ⟨_, _, h⟩ := except_bind_eq_ok_iff.1 h
    dsimp only at h
    split at h
    · cases h
      exact ⟨nofun, nofun⟩
    · split at h
      · cases h
        exact ⟨nofun, nofun⟩
      · split at h <;>
        · obtain ⟨_, _, h⟩ := except_bind_eq_ok_iff.1 h
          cases h
          exact ⟨nofun, nofun⟩
  | binary =>
    simp only [binaryValue] at h
    split at h
    · cases h
    · split at h
      · cases h
        exact ⟨nofun, nofun⟩
      · split at h <;> cases h
  | timestamp =>
    simp only [timestampValue] at h
    split at h
    · cases h
    · split at h
      · split at h
        · cases h
          exact ⟨nofun, nofun⟩
        · cases h
      · split at h
        · cases h
          exact ⟨nofun, nofun⟩
        · cases h
  | _ =>
    cases h
    exact ⟨nofun, fun text same => by cases same; exact isText⟩

private theorem Form.valueOf_cases (form : Form) (node : Node) :
    (∀ entries, form.valueOf node ≠ .map entries) ∧
      ∀ text, form.valueOf node = .str text → scalarText [] node = .ok text := by
  rw [valueOf]
  split
  · next isValue => exact scalarValue_eq_ok isValue
  · exact ⟨nofun, nofun⟩

/-- A node that is read as a text has a scalar with that text. -/
private theorem Node.Every.exists_leaf_of_value {text : String} (every : node.Every leaf inner)
    (isText : node.value = .str text) : ∃ start stop, leaf text start stop := by
  cases node with
  | scalar tag written start stop =>
    rw [Node.value] at isText
    cases isForm : Form.ofTag? tag with
    | none =>
      rw [isForm] at isText
      cases isText
    | some form =>
      rw [isForm] at isText
      exact every.exists_leaf ((form.valueOf_cases _).2 text isText)
  | sequence tag items start stop =>
    rw [Node.value] at isText
    split at isText <;> cases isText
  | mapping tag pairs start stop =>
    rw [Node.value] at isText
    split at isText
    · cases isText
    · cases isText
    · next form _ _ _ => exact every.exists_leaf ((form.valueOf_cases _).2 text isText)
    · cases isText

/-- A node that is read as a mapping is made of its pairs. -/
private theorem Node.exists_pairs_of_value (isMap : node.value = .map entries) :
    ∃ tag pairs start stop, node = .mapping tag pairs start stop ∧ entries = Entries.ofList (pairValues pairs) := by
  cases node with
  | scalar tag written start stop =>
    rw [Node.value] at isMap
    cases isForm : Form.ofTag? tag with
    | none =>
      rw [isForm] at isMap
      cases isMap
    | some form =>
      rw [isForm] at isMap
      exact absurd isMap ((form.valueOf_cases _).1 entries)
  | sequence tag items start stop =>
    rw [Node.value] at isMap
    split at isMap <;> cases isMap
  | mapping tag pairs start stop =>
    rw [Node.value] at isMap
    split at isMap
    · cases isMap
      exact ⟨tag, pairs, start, stop, rfl, rfl⟩
    · cases isMap
    · next form _ _ _ => exact absurd isMap ((form.valueOf_cases _).1 entries)
    · cases isMap

/-! ### Starts -/

private theorem extents_subset_of_item {items : List Node} {n : Node} (mem : n ∈ items) :
    n.extents ⊆ itemExtents items := by
  induction items with
  | nil => cases mem
  | cons first items ih =>
    rw [itemExtents]
    rcases List.mem_cons.1 mem with rfl | mem
    · exact List.subset_append_left _ _
    · exact List.subset_append_of_subset_right _ (ih mem)

private theorem extents_subset_of_pair {pairs : List (Node × Node)} {p : Node × Node} (mem : p ∈ pairs) :
    p.1.extents ++ p.2.extents ⊆ pairExtents pairs := by
  induction pairs with
  | nil => cases mem
  | cons first pairs ih =>
    rw [pairExtents]
    rcases List.mem_cons.1 mem with rfl | mem
    · exact List.subset_append_left _ _
    · exact List.subset_append_of_subset_right _ (ih mem)

/-- What holds of the parts of a node by where they stand, holds along with what holds of each. -/
theorem Node.Every.and_extents {P : Mark → Mark → Prop} (every : node.Every leaf inner)
    (all : ∀ x ∈ node.extents, P x.start x.stop) :
    node.Every (fun text start stop => leaf text start stop ∧ P start stop) inner := by
  induction every with
  | scalar own => exact .scalar ⟨own, all _ (List.mem_singleton.2 rfl)⟩
  | sequence own members ih =>
    refine .sequence own fun item mem => ih item mem fun x isExtent => ?_
    exact all x (List.mem_append_left _ (extents_subset_of_item mem isExtent))
  | mapping own keys values ihKeys ihValues =>
    refine .mapping own (fun p mem => ihKeys p mem fun x isExtent => ?_)
      fun p mem => ihValues p mem fun x isExtent => ?_
    · exact all x (List.mem_append_left _ (extents_subset_of_pair mem (List.mem_append_left _ isExtent)))
    · exact all x (List.mem_append_left _ (extents_subset_of_pair mem (List.mem_append_right _ isExtent)))

/-- Something stands where a text that is not empty is spelled. -/
private theorem Spelled.rest_ne_nil {c stop : Cursor} {text : List Char} {style : ScalarStyle}
    (h : Spelled c text stop style) (written : text ≠ []) : c.rest ≠ [] := by
  intro atEnd
  cases h with
  | plain isStyle passes verbatim =>
    have empty := passes.rest_eq
    rw [atEnd, eq_comm, List.append_eq_nil_iff] at empty
    obtain ⟨rfl, -⟩ := empty
    cases passes
    exact written (verbatim rfl)
  | quoted double isStyle passes =>
    have empty := passes.rest_eq
    rw [atEnd] at empty
    cases empty
  | block isStyle written heads =>
    have empty := heads.rest_eq
    rw [atEnd] at empty
    cases empty

/-- A scalar with a text starts on a line. -/
private theorem Origin.start_line_lt {text : String} {start stop : Mark} {heading : List Token} {t : Token}
    (h : Origin (TokenStream.ofText source).tokens text start stop heading t) (allowed : IsAllowed source)
    (written : text ≠ "") : start.line < (Text.keptLines source).length := by
  obtain ⟨c, d, e, style, ⟨passed, passes⟩, rfl, ⟨head, heads⟩, _, _, _, spelled⟩ := h.exists_spelled allowed
  obtain ⟨done, before, atStart, -⟩ := (OnLine.start source).exists_of_passes allowed passes
  have more : c.rest ≠ [] := by
    rw [heads.rest_eq]
    exact List.append_ne_nil_of_right_ne_nil _
      (spelled.rest_ne_nil fun empty => written (String.toList_eq_nil_iff.1 empty))
  obtain ⟨rest, line⟩ := atStart.exists_line (.inr more)
  exact (List.getElem?_eq_some_iff.1 line).1

/-- A mapping of a text with something under a name starts on a line of the text. -/
theorem start_lt_of_get? {document : Document} {root : Node} {name : String}
    (isDocument : document ∈ (DocumentStream.ofText source).documents)
    (isRoot : valueOf source document.root = .ok (root, .map entries)) (found : entries.get? name = some v)
    (written : name ≠ "") : root.start.line < (Text.keptLines source).length := by
  obtain ⟨allowed, every⟩ := DocumentStream.written_of_mem_ofText isDocument
  obtain ⟨_, adds⟩ := (DocumentStream.stands_of_mem_ofText isDocument).adds
  have after : ∀ x ∈ document.root.extents, document.root.start ≤ x.start := fun x mem =>
    ((adds.within x mem).resolve_left List.not_mem_nil).1
  obtain ⟨_, _, made⟩ := except_bind_eq_ok_iff.1 isRoot
  obtain ⟨isExpanded, isValue⟩ := Prod.mk.inj (Except.ok.inj made)
  have expanded := (every.and_extents (P := fun start _ => document.root.start ≤ start) after).expand
    (document.root.depth + 1)
  have isStart := start_expand (document.root.depth + 1) document.root
  rw [isExpanded] at expanded isValue isStart
  obtain ⟨tag, pairs, _, _, rfl, rfl⟩ := Node.exists_pairs_of_value isValue
  -- the name is written in one of the keys, at or after the start of the mapping
  have isKey := Entries.mem_of_get?_ofList found
  rw [map_fst_pairValues] at isKey
  obtain ⟨p, mem, isName⟩ := List.mem_map.1 isKey
  obtain ⟨start, stop, hasOrigin, behind⟩ := (expanded.pairs p mem).1.exists_leaf_of_value isName
  obtain ⟨heading, t, isOrigin⟩ := hasOrigin.resolve_left fun empty => written empty.1
  have onLine := isOrigin.start_line_lt allowed written
  rw [isStart]
  rw [Mark.le_def] at behind
  omega

end Yaml

end ManifestLens
