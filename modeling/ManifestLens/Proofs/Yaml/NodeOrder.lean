import ManifestLens.Proofs.Yaml.EventOrder
import ManifestLens.Yaml.Document

/-!
# Nodes in the order of their text

The parts of a document stand in its text in the order in which they are read, but for the copies that aliases bring
(`Node.Stands`).  A document is joined from events that go on with it, so what is complete of it, and what is complete
of the collections around, stands in this order (`Joining`); each event goes on from there (`Joiner.Orderly.take`).
-/

namespace ManifestLens.Yaml

/-! ### Where nodes stand -/

/-- Where a part of a document stands, and whether it is a scalar. -/
structure Extent where
  isScalar : Bool
  start : Mark
  stop : Mark

mutual

/-- Where the parts of a node stand, in the order in which they end. -/
def Node.extents : Node → List Extent
  | .scalar _ _ start stop => [⟨true, start, stop⟩]
  | .sequence _ items start stop => itemExtents items ++ [⟨false, start, stop⟩]
  | .mapping _ pairs start stop => pairExtents pairs ++ [⟨false, start, stop⟩]

def itemExtents : List Node → List Extent
  | [] => []
  | n :: rest => n.extents ++ itemExtents rest

def pairExtents : List (Node × Node) → List Extent
  | [] => []
  | (key, value) :: rest => key.extents ++ value.extents ++ pairExtents rest

end

/-- Nothing is written for the node. -/
def Node.IsMissing : Node → Prop
  | .scalar _ _ start stop => start = stop
  | _ => False

mutual

/-- After a mark and after what was seen, a node stands in the text.  Its parts follow each other, but for copies of
what was seen, and the value of a key starts after a colon, unless it is missing. -/
def Node.Stands : Node → List Extent → Mark → Prop
  | .scalar _ _ start stop, _, m => m ≤ start ∧ start ≤ stop
  | .sequence _ items start stop, seen, m => m ≤ start ∧ ∃ c, ItemsStand items seen start c ∧ c ≤ stop
  | .mapping _ pairs start stop, seen, m => m ≤ start ∧ ∃ c, PairsStand pairs seen start c ∧ c ≤ stop

def ItemsStand : List Node → List Extent → Mark → Mark → Prop
  | [], _, m, m' => m = m'
  | n :: rest, seen, m, m' => ∃ c, (n.extents ⊆ seen ∧ m ≤ c ∨ n.Stands seen m ∧ c = n.stop) ∧
      ItemsStand rest (seen ++ n.extents) c m'

def PairsStand : List (Node × Node) → List Extent → Mark → Mark → Prop
  | [], _, m, m' => m = m'
  | (key, value) :: rest, seen, m, m' => ∃ c d, (key.extents ⊆ seen ∧ m ≤ c ∨ key.Stands seen m ∧ c = key.stop) ∧
      (value.extents ⊆ seen ++ key.extents ∧ c ≤ d ∨ value.Stands (seen ++ key.extents) c ∧ d = value.stop) ∧
      (value.extents ⊆ seen ++ key.extents ∨ c < value.start ∨ value.IsMissing) ∧
      PairsStand rest (seen ++ key.extents ++ value.extents) d m'

end

/-- A node is a copy of what was seen, or it stands in the text up to a mark. -/
def Node.Follows (n : Node) (seen : List Extent) (m m' : Mark) : Prop :=
  n.extents ⊆ seen ∧ m ≤ m' ∨ n.Stands seen m ∧ m' = n.stop

/-- A node is a copy, or it starts after a colon, or it is missing. -/
def Node.AfterColon (n : Node) (seen : List Extent) (m : Mark) : Prop :=
  n.extents ⊆ seen ∨ m < n.start ∨ n.IsMissing

variable {n key value : Node} {items : List Node} {pairs : List (Node × Node)} {seen : List Extent} {m m' : Mark}

theorem itemsStand_cons : ItemsStand (n :: items) seen m m' ↔
    ∃ c, n.Follows seen m c ∧ ItemsStand items (seen ++ n.extents) c m' :=
  Iff.rfl

theorem pairsStand_cons : PairsStand ((key, value) :: pairs) seen m m' ↔
    ∃ c d, key.Follows seen m c ∧ value.Follows (seen ++ key.extents) c d ∧ value.AfterColon (seen ++ key.extents) c ∧
      PairsStand pairs (seen ++ key.extents ++ value.extents) d m' :=
  Iff.rfl

private theorem itemExtents_concat (items : List Node) (n : Node) :
    itemExtents (items ++ [n]) = itemExtents items ++ n.extents := by
  induction items with
  | nil => rw [List.nil_append, itemExtents, itemExtents, itemExtents, List.append_nil, List.nil_append]
  | cons first items ih => rw [List.cons_append, itemExtents, itemExtents, ih, List.append_assoc]

private theorem pairExtents_concat (pairs : List (Node × Node)) (key value : Node) :
    pairExtents (pairs ++ [(key, value)]) = pairExtents pairs ++ key.extents ++ value.extents := by
  induction pairs with
  | nil => rw [List.nil_append, pairExtents, pairExtents, pairExtents, List.append_nil, List.nil_append]
  | cons first pairs ih =>
    obtain ⟨k, v⟩ := first
    rw [List.cons_append, pairExtents, pairExtents, ih]
    simp only [List.append_assoc]

private theorem itemsStand_concat : ItemsStand (items ++ [n]) seen m m' ↔
    ∃ c, ItemsStand items seen m c ∧ n.Follows (seen ++ itemExtents items) c m' := by
  induction items generalizing seen m with
  | nil =>
    rw [List.nil_append, itemsStand_cons, itemExtents, List.append_nil]
    constructor
    · rintro ⟨c, follows, rfl⟩
      exact ⟨m, rfl, follows⟩
    · rintro ⟨c, rfl, follows⟩
      exact ⟨m', follows, rfl⟩
  | cons first items ih =>
    rw [List.cons_append, itemsStand_cons, itemExtents, ← List.append_assoc]
    constructor
    · rintro ⟨c, follows, rest⟩
      obtain ⟨d, stand, last⟩ := ih.1 rest
      exact ⟨d, itemsStand_cons.2 ⟨c, follows, stand⟩, last⟩
    · rintro ⟨d, stand, last⟩
      obtain ⟨c, follows, stand⟩ := itemsStand_cons.1 stand
      exact ⟨c, follows, ih.2 ⟨d, stand, last⟩⟩

private theorem pairsStand_concat : PairsStand (pairs ++ [(key, value)]) seen m m' ↔
    ∃ c d, PairsStand pairs seen m c ∧ key.Follows (seen ++ pairExtents pairs) c d ∧
      value.Follows (seen ++ pairExtents pairs ++ key.extents) d m' ∧
      value.AfterColon (seen ++ pairExtents pairs ++ key.extents) d := by
  induction pairs generalizing seen m with
  | nil =>
    rw [List.nil_append, pairsStand_cons, pairExtents, List.append_nil]
    constructor
    · rintro ⟨c, d, isKey, isValue, colon, rfl⟩
      exact ⟨m, c, rfl, isKey, isValue, colon⟩
    · rintro ⟨c, d, rfl, isKey, isValue, colon⟩
      exact ⟨d, m', isKey, isValue, colon, rfl⟩
  | cons first pairs ih =>
    obtain ⟨k, v⟩ := first
    have extents : seen ++ pairExtents ((k, v) :: pairs) = seen ++ k.extents ++ v.extents ++ pairExtents pairs := by
      simp only [pairExtents, List.append_assoc]
    rw [List.cons_append, pairsStand_cons, extents]
    constructor
    · rintro ⟨c, d, isKey, isValue, colon, rest⟩
      obtain ⟨c', d', stand, last⟩ := ih.1 rest
      exact ⟨c', d', pairsStand_cons.2 ⟨c, d, isKey, isValue, colon, stand⟩, last⟩
    · rintro ⟨c', d', stand, last⟩
      obtain ⟨c, d, isKey, isValue, colon, stand⟩ := pairsStand_cons.1 stand
      exact ⟨c, d, isKey, isValue, colon, ih.2 ⟨c', d', stand, last⟩⟩

/-! ### What the order tells -/

/-- The extent lies between two marks. -/
def Extent.Within (m m' : Mark) (x : Extent) : Prop :=
  m ≤ x.start ∧ x.start ≤ x.stop ∧ x.stop ≤ m'

/-- What is added to what was seen lies between two marks, but for copies. -/
structure Adds (seen new : List Extent) (m m' : Mark) : Prop where
  le : m ≤ m'
  within : ∀ x ∈ new, x ∈ seen ∨ x.Within m m'

namespace Adds

variable {new more : List Extent} {c c' : Mark}

private theorem copy (le : m ≤ m') (part : new ⊆ seen) : Adds seen new m m' :=
  ⟨le, fun _ mem => .inl (part mem)⟩

private theorem widen (h : Adds seen new c c') (first : m ≤ c) (last : c' ≤ m') : Adds seen new m m' := by
  refine ⟨le_trans (le_trans first h.le) last, fun x mem => ?_⟩
  exact (h.within x mem).imp_right fun ⟨after, ordered, upto⟩ => ⟨le_trans first after, ordered, le_trans upto last⟩

private theorem append (h : Adds seen new m c) (next : Adds (seen ++ new) more c m') :
    Adds seen (new ++ more) m m' := by
  refine ⟨le_trans h.le next.le, List.forall_mem_append.2 ⟨?_, ?_⟩⟩
  · exact (h.widen (le_refl m) next.le).within
  · intro x mem
    rcases next.within x mem with old | within
    · rcases List.mem_append.1 old with old | fresh
      · exact .inl old
      · exact (h.widen (le_refl m) next.le).within x fresh
    · exact .inr ⟨le_trans h.le within.1, within.2⟩

/-- The extent of a collection is added after those of its members. -/
private theorem enclose (h : Adds seen new m c) (last : c ≤ m') : Adds seen (new ++ [⟨false, m, m'⟩]) m m' := by
  have wide := h.widen (le_refl m) last
  refine ⟨wide.le, List.forall_mem_append.2 ⟨wide.within, ?_⟩⟩
  rw [List.forall_mem_singleton]
  exact .inr ⟨le_refl m, wide.le, le_refl m'⟩

/-- All that was seen ends before the mark. -/
theorem upto (h : Adds seen new m m') (before : ∀ x ∈ seen, x.start ≤ x.stop ∧ x.stop ≤ m) :
    ∀ x ∈ seen ++ new, x.start ≤ x.stop ∧ x.stop ≤ m' := by
  have old : ∀ x ∈ seen, x.start ≤ x.stop ∧ x.stop ≤ m' := fun x mem =>
    (before x mem).imp_right fun upto => le_trans upto h.le
  refine List.forall_mem_append.2 ⟨old, fun x mem => ?_⟩
  rcases h.within x mem with seen | within
  · exact old x seen
  · exact within.2

end Adds

private theorem Node.extents_ne_nil (n : Node) : n.extents ≠ [] := by
  cases n <;> simp [Node.extents]

private theorem Node.Stands.of_le {n : Node} (h : n.Stands seen m') (le : m ≤ m') : n.Stands seen m := by
  cases n <;> exact ⟨le_trans le h.1, h.2⟩

/-- What follows adds its extents, if it does where it stands. -/
private theorem Node.Follows.adds_of (h : n.Follows seen m m')
    (stands : n.Stands seen m → m ≤ n.start ∧ Adds seen n.extents n.start n.stop) : Adds seen n.extents m m' := by
  rcases h with ⟨part, le⟩ | ⟨isThere, rfl⟩
  · exact .copy le part
  · obtain ⟨after, adds⟩ := stands isThere
    exact adds.widen after (le_refl _)

mutual

/-- A node that stands after a mark adds extents between its own marks. -/
theorem Node.Stands.adds {seen : List Extent} {m : Mark} : {n : Node} → n.Stands seen m →
    m ≤ n.start ∧ Adds seen n.extents n.start n.stop
  | .scalar _ _ start stop, ⟨after, ordered⟩ => by
    refine ⟨after, ordered, ?_⟩
    rw [Node.extents, List.forall_mem_singleton]
    exact .inr ⟨le_refl start, ordered, le_refl stop⟩
  | .sequence _ _ _ _, ⟨after, _, items, ends⟩ => ⟨after, (itemsStand_adds items).enclose ends⟩
  | .mapping _ _ _ _, ⟨after, _, pairs, ends⟩ => ⟨after, (pairsStand_adds pairs).enclose ends⟩

theorem itemsStand_adds {seen : List Extent} {m m' : Mark} : {items : List Node} → ItemsStand items seen m m' →
    Adds seen (itemExtents items) m m'
  | [], h => .copy (le_of_eq h) (List.nil_subset seen)
  | n :: rest, h => by
    obtain ⟨c, follows, stand⟩ := itemsStand_cons.1 h
    exact (follows.adds_of Node.Stands.adds).append (itemsStand_adds stand)

theorem pairsStand_adds {seen : List Extent} {m m' : Mark} : {pairs : List (Node × Node)} →
    PairsStand pairs seen m m' → Adds seen (pairExtents pairs) m m'
  | [], h => .copy (le_of_eq h) (List.nil_subset seen)
  | (key, value) :: rest, h => by
    obtain ⟨c, d, isKey, isValue, _, stand⟩ := pairsStand_cons.1 h
    have both := (isKey.adds_of Node.Stands.adds).append (isValue.adds_of Node.Stands.adds)
    rw [List.append_assoc] at stand
    exact both.append (pairsStand_adds stand)

end

theorem Node.Follows.adds (h : n.Follows seen m m') : Adds seen n.extents m m' :=
  h.adds_of Node.Stands.adds

/-! ### Documents that are being joined -/

/-- With what is open, and up to a mark, the collections that are not complete hold what was seen. -/
inductive Joining : List Frame → List Opening → List Extent → Mark → Prop where
  | root {m : Mark} : Joining [] [.root] [] m
  | item {frames : List Frame} {l : List Opening} {before : List Extent} {c start m : Mark} {p : Properties}
      {items : List Node} (outer : Joining frames l before c) (after : c ≤ start)
      (colon : l.head? = some .value → c < start) (stand : ItemsStand items.reverse before start m) :
      Joining (.sequence p start items :: frames) (.item :: l) (before ++ itemExtents items.reverse) m
  | key {frames : List Frame} {l : List Opening} {before : List Extent} {c start m : Mark} {p : Properties}
      {pairs : List (Node × Node)} (outer : Joining frames l before c) (after : c ≤ start)
      (colon : l.head? = some .value → c < start) (stand : PairsStand pairs.reverse before start m) :
      Joining (.mapping p start pairs none :: frames) (.key :: l) (before ++ pairExtents pairs.reverse) m
  | value {frames : List Frame} {l : List Opening} {before : List Extent} {c start d m : Mark} {p : Properties}
      {pairs : List (Node × Node)} {key : Node} (outer : Joining frames l before c) (after : c ≤ start)
      (colon : l.head? = some .value → c < start) (stand : PairsStand pairs.reverse before start d)
      (follows : key.Follows (before ++ pairExtents pairs.reverse) d m) :
      Joining (.mapping p start pairs (some key) :: frames) (.value :: l)
        (before ++ pairExtents pairs.reverse ++ key.extents) m

namespace Joiner

variable {j j' : Joiner} {l l' : List Opening}

/-- A document is being joined from nodes that stand in the text up to a mark, or its root is complete. -/
inductive Orderly (m : Mark) : List Opening → Joiner → Prop where
  | inside {j : Joiner} {l : List Opening} {seen : List Extent} (frames : Joining j.frames l seen m)
      (anchored : ∀ a ∈ j.anchored, ∀ node ∈ a.node, node.extents ⊆ seen) (root : j.root = none) : Orderly m l j
  | complete {j : Joiner} {node : Node} (root : j.root = some node) (stands : node.Stands [] default) : Orderly m [] j

private theorem orderly_empty : Joiner.empty.Orderly default [.root] :=
  .inside .root (List.forall_mem_nil _) rfl

/-- A complete node is put where it is expected. -/
private theorem Orderly.place (frames : Joining j.frames l seen m)
    (anchored : ∀ a ∈ j.anchored, ∀ node ∈ a.node, node.extents ⊆ seen ++ n.extents) (root : j.root = none)
    (follows : n.Follows seen m m') (colon : l.head? = some .value → n.AfterColon seen m) :
    (j.place n).Orderly m' (filled l) := by
  obtain ⟨stack, noted, top, circular⟩ := j
  cases frames with
  | root =>
    refine .complete rfl ?_
    rcases follows with ⟨none, _⟩ | ⟨stands, _⟩
    · exact absurd (List.subset_nil.1 none) n.extents_ne_nil
    · exact stands.of_le (Mark.default_le m)
  | item outer after isAfter stand =>
    have stand := itemsStand_concat.2 ⟨m, stand, follows⟩
    rw [← List.reverse_cons] at stand
    refine .inside (.item outer after isAfter stand) ?_ root
    rw [List.reverse_cons, itemExtents_concat, ← List.append_assoc]
    exact anchored
  | key outer after isAfter stand =>
    exact .inside (.value outer after isAfter stand follows) anchored root
  | value outer after isAfter stand isKey =>
    have stand := pairsStand_concat.2 ⟨_, _, stand, isKey, follows, colon rfl⟩
    rw [← List.reverse_cons] at stand
    refine .inside (.key outer after isAfter stand) ?_ root
    rw [List.reverse_cons, pairExtents_concat, ← List.append_assoc, ← List.append_assoc]
    exact anchored

/-- An anchor is noted. -/
private theorem note_eq_ok {p : Properties} {start : Mark} {noted : Option Node}
    (made : j.note p start noted = .ok j') :
    j'.frames = j.frames ∧ j'.root = j.root ∧
      ∀ a ∈ j'.anchored, a ∈ j.anchored ∨ a.node = noted := by
  rw [Joiner.note] at made
  split at made
  · cases made
    exact ⟨rfl, rfl, fun a mem => .inl mem⟩
  · split at made
    · cases made
    · cases made
      exact ⟨rfl, rfl, fun a mem => (List.mem_cons.1 mem).symm.imp_right fun same => by rw [same]⟩

/-- The node of an anchor is there. -/
private theorem anchored_complete {p : Properties} {node : Node} : ∀ a ∈ (j.complete p node).anchored,
    a ∈ j.anchored ∨ a.node = some node := by
  rw [Joiner.complete]
  split
  · exact fun a mem => .inl mem
  · rw [List.forall_mem_map]
    intro a mem
    split
    · exact .inr rfl
    · exact .inl mem

private theorem complete_eq (j : Joiner) (p : Properties) (node : Node) :
    (j.complete p node).frames = j.frames ∧ (j.complete p node).root = j.root := by
  rw [Joiner.complete]
  split <;> exact ⟨rfl, rfl⟩

/-- A collection ends, and is put where it is expected. -/
private theorem Orderly.close {p : Properties} (frames : Joining j.frames l seen m)
    (anchored : ∀ a ∈ j.anchored, ∀ node ∈ a.node, node.extents ⊆ seen ++ n.extents) (root : j.root = none)
    (follows : n.Follows seen m m') (colon : l.head? = some .value → n.AfterColon seen m) :
    ((j.complete p n).place n).Orderly m' (filled l) := by
  obtain ⟨sameFrames, sameRoot⟩ := complete_eq j p n
  refine .place (sameFrames ▸ frames) ?_ (sameRoot.trans root) follows colon
  intro a mem node isNode
  rcases anchored_complete a mem with mem | same
  · exact anchored a mem node isNode
  · rw [same] at isNode
    cases isNode
    exact List.subset_append_right _ _

private theorem Orderly.marked (h : j.Orderly m l) : Orderly m l { j with circular := true } := by
  cases h with
  | inside frames anchored root => exact .inside frames anchored root
  | complete root stands => exact .complete root stands

/-- An alias stands for a copy of what was seen. -/
private theorem Orderly.resolve {name : String} {start : Mark} (frames : Joining j.frames l seen m)
    (anchored : ∀ a ∈ j.anchored, ∀ node ∈ a.node, node.extents ⊆ seen) (root : j.root = none) (after : m ≤ start)
    (made : j.resolve name start = .ok j') : j'.Orderly start (filled l) := by
  have more (n : Node) : ∀ a ∈ j.anchored, ∀ node ∈ a.node, node.extents ⊆ seen ++ n.extents :=
    fun a mem node isNode => List.subset_append_of_subset_left _ (anchored a mem node isNode)
  rw [Joiner.resolve] at made
  split at made
  · cases made
  · next node found =>
    cases made
    have part := anchored _ (List.mem_of_find?_eq_some found) node rfl
    exact .place frames (more node) root (.inl ⟨part, after⟩) fun _ => .inl part
  · cases made
    have stands : (Node.scalar (Tag.standard "null") "" start start).Stands seen m := ⟨after, le_refl start⟩
    exact (Orderly.place frames (more _) root (.inr ⟨stands, rfl⟩) fun _ => .inr (.inr rfl)).marked

/-- A collection that starts is noted, but its node is not there yet. -/
private theorem Orderly.start {p : Properties} {start : Mark} {frame : Frame}
    (opened : Joining (frame :: j.frames) l seen m) (anchored : ∀ a ∈ j.anchored, ∀ node ∈ a.node, node.extents ⊆ seen)
    (root : j.root = none) (noted : j.note p start none = .ok j') :
    Orderly m l { j' with frames := frame :: j'.frames } := by
  obtain ⟨sameFrames, sameRoot, origin⟩ := note_eq_ok noted
  rw [← sameFrames] at opened
  refine .inside opened ?_ (sameRoot.trans root)
  intro a mem node isNode
  rcases origin a mem with mem | none
  · exact anchored a mem node isNode
  · rw [none] at isNode
    cases isNode

/-- An event that goes on with the document is joined to it. -/
theorem Orderly.take {event : Event} (h : j.Orderly m l) (goesOn : event.GoesOn m l m' l')
    (made : j.take event = .ok j') : j'.Orderly m' l' := by
  cases h with
  | complete root stands =>
    cases goesOn <;> contradiction
  | @inside _ _ seen frames anchored root =>
    cases goesOn with
    | aliasOf isOpen after => exact .resolve frames anchored root after made
    | scalar isOpen after ordered colon =>
      obtain ⟨j₁, noted, made⟩ := except_bind_eq_ok_iff.1 made
      cases made
      obtain ⟨sameFrames, sameRoot, origin⟩ := note_eq_ok noted
      refine .place (sameFrames ▸ frames) ?_ (sameRoot.trans root) (.inr ⟨⟨after, ordered⟩, rfl⟩) fun isValue => ?_
      · intro a mem node isNode
        rcases origin a mem with mem | same
        · exact List.subset_append_of_subset_left _ (anchored a mem node isNode)
        · rw [same] at isNode
          cases isNode
          exact List.subset_append_right _ _
      · exact .inr (colon isValue)
    | sequenceStart isOpen after colon =>
      obtain ⟨j₁, noted, made⟩ := except_bind_eq_ok_iff.1 made
      cases made
      refine .start ?_ anchored root noted
      rw [← List.append_nil seen]
      exact .item frames after colon rfl
    | mappingStart isOpen after colon =>
      obtain ⟨j₁, noted, made⟩ := except_bind_eq_ok_iff.1 made
      cases made
      refine .start ?_ anchored root noted
      rw [← List.append_nil seen]
      exact .key frames after colon rfl
    | sequenceEnd after =>
      obtain ⟨stack, noted, top, circular⟩ := j
      cases made
      cases frames with
      | @item frames l before c start _ p items outer first isFirst stand =>
        have stands : (Node.sequence (tagOr p Tag.seq) items.reverse start m').Stands before c :=
          ⟨first, m, stand, after⟩
        refine .close (j := ⟨frames, noted, top, circular⟩) outer ?_ root (.inr ⟨stands, rfl⟩) fun isValue => ?_
        · intro a mem node isNode
          rw [Node.extents, ← List.append_assoc]
          exact List.subset_append_of_subset_left _ (anchored a mem node isNode)
        · exact .inr (.inl (isFirst isValue))
    | mappingEnd after =>
      obtain ⟨stack, noted, top, circular⟩ := j
      cases made
      cases frames with
      | @key frames l before c start _ p pairs outer first isFirst stand =>
        have stands : (Node.mapping (tagOr p Tag.map) pairs.reverse start m').Stands before c :=
          ⟨first, m, stand, after⟩
        refine .close (j := ⟨frames, noted, top, circular⟩) outer ?_ root (.inr ⟨stands, rfl⟩) fun isValue => ?_
        · intro a mem node isNode
          rw [Node.extents, ← List.append_assoc]
          exact List.subset_append_of_subset_left _ (anchored a mem node isNode)
        · exact .inr (.inl (isFirst isValue))

end Joiner

/-- The root of a document stands in the text; one that is not there is missing. -/
private theorem Joiner.Orderly.root {j : Joiner} {l : List Opening} (h : j.Orderly m l) :
    (j.root.getD default).Stands [] default := by
  cases h with
  | inside frames anchored root =>
    rw [root]
    exact ⟨le_refl _, le_refl _⟩
  | complete root stands =>
    rw [root]
    exact stands

/-! ### Documents -/

namespace DocumentStream

/-- Without its end no document is complete. -/
private theorem documents_join_of_not_mem {failure : Option Error} {events : List Event} (h : .documentEnd ∉ events)
    (j : Joiner) : (join failure (some j) events).documents = [] := by
  induction events generalizing j with
  | nil => cases failure <;> rfl
  | cons event events ih =>
    rw [List.mem_cons, not_or] at h
    rw [join.eq_def]
    dsimp only
    split
    · contradiction
    · contradiction
    · exact absurd rfl h.1
    · split
      · exact ih h.2 _
      · rfl

/-- Each document that is joined from events that go on with it stands in the text. -/
private theorem stands_of_mem_join {failure : Option Error} {events : List Event} :
    (Proper none events → ∀ document ∈ (join failure none events).documents, document.root.Stands [] default) ∧
    ∀ j m l, Joiner.Orderly m l j → Proper (some (m, l)) events →
      ∀ document ∈ (join failure (some j) events).documents, document.root.Stands [] default := by
  induction events with
  | nil => exact ⟨fun _ => by cases failure <;> exact List.forall_mem_nil _,
      fun _ _ _ _ _ => by cases failure <;> exact List.forall_mem_nil _⟩
  | cons event events ih =>
    constructor
    · intro proper
      by_cases starts : event = .documentStart
      · subst starts
        exact ih.2 .empty default [.root] Joiner.orderly_empty proper
      · rw [Grouper.proper_none_cons starts] at proper
        have outside : join failure none (event :: events) = join failure none events := by
          cases event <;> first | rfl | exact absurd rfl starts
        rw [outside]
        exact ih.1 proper
    · intro j m l orderly proper
      by_cases ends : event = .documentEnd
      · subst ends
        exact List.forall_mem_cons.2 ⟨orderly.root, ih.1 proper⟩
      · rw [Grouper.proper_some_cons ends] at proper
        rw [join.eq_def]
        dsimp only
        split
        · contradiction
        · contradiction
        · exact absurd rfl ends
        · next isJoiner _ =>
          cases isJoiner
          split
          · next next made =>
            rcases proper with ⟨m', l', goesOn, proper⟩ | none
            · exact ih.2 next m' l' (orderly.take goesOn made) proper
            · rw [documents_join_of_not_mem none]
              exact List.forall_mem_nil _
          · exact List.forall_mem_nil _

/-- The nodes of each document of a text stand in it in the order in which they are read. -/
theorem stands_of_mem_ofText {text : List Char} {document : Document} (h : document ∈ (ofText text).documents) :
    document.root.Stands [] default := by
  rw [ofText] at h
  split at h
  · cases h
  · next none =>
    have line := TokenStream.inLine_ofText (isAllowed_of_firstForbidden none)
    dsimp only at h
    generalize TokenStream.ofText text = stream at line h
    exact stands_of_mem_join.1 (EventStream.proper_ofTokens line) document h

end DocumentStream

end ManifestLens.Yaml
