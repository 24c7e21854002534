import ManifestLens.Proofs.Manifest.Decoding
import ManifestLens.Proofs.Manifest.Placement
import ManifestLens.Proofs.Yaml.NodeOrder

/-!
# Where the pieces of an outline stand

The nodes of a document stand in its text in the order in which they are read, but for copies, and so do the pieces of
its outline.  Around each key with one value below it this tells what was seen before the value, that the value stands
after the key, and that all pieces after the value stand behind it (`Situated`, `Reads.exists_situated`).
-/

namespace ManifestLens

open Yaml (Mark Node Extent Adds ItemsStand PairsStand itemExtents pairExtents)

variable {found : Outlined} {n : Node} {page : Page} {pieces : List Piece} {S T : Schema} {last : Position}
  {m m' : Mark} {part value : Outline} {more new seen : List Extent}

/-- Where the scalar stands. -/
def ScalarReading.extent (r : ScalarReading) : Extent :=
  ⟨true, r.start, r.stop⟩

namespace Input

def extents : Input → List Extent
  | .root _ n => n.extents
  | .node _ n => n.extents
  | .items _ members => itemExtents members
  | .pairs _ _ members => pairExtents members

/-- What is read stands in the text between two marks, after what was seen. -/
def Stands (seen : List Extent) (m m' : Mark) : Input → Prop
  | .root _ n => n.Follows seen m m'
  | .node _ n => n.Follows seen m m'
  | .items _ members => ItemsStand members seen m m'
  | .pairs _ _ members => PairsStand members seen m m'

end Input

/-! ### Copies of collections -/

namespace Yaml

private theorem itemsStand_of_subset {items : List Node} (copy : itemExtents items ⊆ seen) :
    ItemsStand items seen m m := by
  induction items generalizing seen with
  | nil => rfl
  | cons n items ih =>
    rw [itemExtents, List.append_subset] at copy
    exact itemsStand_cons.2 ⟨m, .inl ⟨copy.1, le_refl m⟩, ih (List.subset_append_of_subset_left _ copy.2)⟩

private theorem pairsStand_of_subset {pairs : List (Node × Node)} (copy : pairExtents pairs ⊆ seen) :
    PairsStand pairs seen m m := by
  induction pairs generalizing seen with
  | nil => rfl
  | cons pair pairs ih =>
    obtain ⟨key, value⟩ := pair
    rw [pairExtents, List.append_subset, List.append_subset] at copy
    obtain ⟨⟨isKey, isValue⟩, others⟩ := copy
    replace isValue := List.subset_append_of_subset_left key.extents isValue
    refine pairsStand_cons.2 ⟨m, m, .inl ⟨isKey, le_refl m⟩, .inl ⟨isValue, le_refl m⟩, .inl isValue, ih ?_⟩
    exact List.subset_append_of_subset_left _ (List.subset_append_of_subset_left _ others)

/-- The items of a sequence stand in the text wherever the sequence is read. -/
theorem Node.Follows.items {tag : String} {items : List Node} {start stop : Mark}
    (h : (Node.sequence tag items start stop).Follows seen m m') :
    ∃ c d, m ≤ c ∧ ItemsStand items seen c d ∧ d ≤ m' := by
  rcases h with ⟨copy, le⟩ | ⟨⟨after, d, stand, upto⟩, rfl⟩
  · rw [Node.extents, List.append_subset] at copy
    exact ⟨m, m, le_refl m, itemsStand_of_subset copy.1, le⟩
  · exact ⟨start, d, after, stand, upto⟩

theorem Node.Follows.pairs {tag : String} {pairs : List (Node × Node)} {start stop : Mark}
    (h : (Node.mapping tag pairs start stop).Follows seen m m') :
    ∃ c d, m ≤ c ∧ PairsStand pairs seen c d ∧ d ≤ m' := by
  rcases h with ⟨copy, le⟩ | ⟨⟨after, d, stand, upto⟩, rfl⟩
  · rw [Node.extents, List.append_subset] at copy
    exact ⟨m, m, le_refl m, pairsStand_of_subset copy.1, le⟩
  · exact ⟨start, d, after, stand, upto⟩

end Yaml

/-! ### Pieces and extents -/

private theorem scalarsOf_append (a b : List Piece) : scalarsOf (a ++ b) = scalarsOf a ++ scalarsOf b :=
  List.filterMap_append

private theorem scalarsOf_cons (r : ScalarReading) (parts : List Outline) (pieces : List Piece) :
    scalarsOf (.scalar r parts :: pieces) = r :: scalarsOf pieces :=
  rfl

theorem mem_scalarsOf {r : ScalarReading} : r ∈ scalarsOf pieces ↔ ∃ parts, .scalar r parts ∈ pieces := by
  rw [scalarsOf, List.mem_filterMap]
  constructor
  · rintro ⟨piece, mem, isScalar⟩
    cases piece with
    | scalar r' parts =>
      cases isScalar
      exact ⟨parts, mem⟩
    | block n part => cases isScalar
  · rintro ⟨parts, mem⟩
    exact ⟨_, mem, rfl⟩

namespace Reads

variable {input : Input}

/-- The scalars that are read stand where those of the nodes do. -/
private theorem map_extent_scalarsOf (h : Reads page input S last pieces found T) :
    (scalarsOf pieces).map ScalarReading.extent = input.extents.filter Extent.isScalar := by
  induction h with
  | scalar read made =>
    subst read
    rfl
  | sequence placed items ih =>
    rw [Input.extents, Node.extents, List.filter_append]
    exact ih.trans (List.append_nil _).symm
  | mapping listed pairs ih =>
    rw [Input.extents, Node.extents, List.filter_append]
    exact ih.trans (List.append_nil _).symm
  | bare bare root ih => exact ih
  | enclosed encloses localRule indexRule root ih => exact ih
  | noItems => rfl
  | item node items ihn ihi =>
    rw [scalarsOf_append, List.map_append, ihn, ihi, ← List.filter_append]
    rfl
  | noPairs => rfl
  | pair placed read made valuePlaced node pairs ihn ihp =>
    subst read
    rw [scalarsOf_append, List.map_append, ihp, Input.extents, Input.extents, pairExtents, List.filter_append,
      List.filter_append]
    exact congrArg (_ :: · ++ _) ihn

private theorem mem_extents_iff (h : Reads page input S last pieces found T) {x : Extent}
    (isScalar : x.isScalar = true) :
    x ∈ input.extents ↔ x ∈ (scalarsOf pieces).map ScalarReading.extent := by
  rw [h.map_extent_scalarsOf, List.mem_filter, and_iff_left isScalar]

/-- A block stands where its node does. -/
private theorem extent_of_block (h : Reads page input S last pieces found T) (mem : .block n part ∈ pieces) :
    ⟨false, n.start, n.stop⟩ ∈ input.extents := by
  induction h with
  | scalar read made => cases List.mem_singleton.1 mem
  | sequence placed items ih => exact List.mem_append_left _ (ih mem)
  | mapping listed pairs ih => exact List.mem_append_left _ (ih mem)
  | bare bare root ih => exact ih mem
  | enclosed encloses localRule indexRule root ih =>
    rcases List.mem_cons.1 mem with same | mem
    · cases same
      cases n with
      | scalar tag text start stop => cases encloses
      | sequence tag items start stop => exact List.mem_append_right _ (List.mem_singleton_self _)
      | mapping tag pairs start stop => exact List.mem_append_right _ (List.mem_singleton_self _)
    · exact ih mem
  | noItems => cases mem
  | item node items ihn ihi =>
    rcases List.mem_append.1 mem with mem | mem
    · exact List.mem_append_left _ (ihn mem)
    · exact List.mem_append_right _ (ihi mem)
  | noPairs => cases mem
  | pair placed read made valuePlaced node pairs ihn ihp =>
    rcases List.mem_append.1 mem with mem | mem
    · rcases List.mem_cons.1 mem with same | mem
      · cases same
      · exact List.mem_append_left _ (List.mem_append_right _ (ihn mem))
    · exact List.mem_append_right _ (ihp mem)

end Reads

/-! ### Keys with one value below them -/

/-- The pieces around a key with one value below it, and where they stand: those of the value, which is read from a
node, stand after the key up to a mark, and the scalars after them stand behind it.  Copies may stand anywhere. -/
structure Situated (page : Page) (value : Outline) (front : List Piece) (key : ScalarReading) (inner back : List Piece)
    (node : Node) (seen before : List Extent) (c d : Mark) : Prop where
  reads : ∃ slot U mid next V, Reads page (.node slot node) U mid inner ([value], next) V
  known : ∀ x : Extent, x.isScalar = true →
    (x ∈ before ↔ x ∈ seen ∨ x ∈ (scalarsOf front).map ScalarReading.extent ∨ x = key.extent)
  upto : ∀ x ∈ before, x.start ≤ x.stop ∧ x.stop ≤ c
  keyStop : c = key.stop ∨ key.extent ∈ seen ∨ key.extent ∈ (scalarsOf front).map ScalarReading.extent
  follows : node.Follows before c d
  colon : node.AfterColon before c
  behind : ∀ r ∈ scalarsOf back, r.extent ∈ before ++ node.extents ∨ d ≤ r.start

namespace Situated

variable {front inner back : List Piece} {key : ScalarReading} {node : Node} {before : List Extent} {c d : Mark}

private theorem mem_extents_iff (h : Situated page value front key inner back node seen before c d) {x : Extent}
    (isScalar : x.isScalar = true) : x ∈ node.extents ↔ x ∈ (scalarsOf inner).map ScalarReading.extent := by
  obtain ⟨slot, U, mid, next, V, reads⟩ := h.reads
  exact reads.mem_extents_iff isScalar

/-- More pieces were read before. -/
private theorem prepend (pieces : List Piece)
    (h : Situated page value front key inner back node (seen ++ new) before c d)
    (same : ∀ x : Extent, x.isScalar = true → (x ∈ new ↔ x ∈ (scalarsOf pieces).map ScalarReading.extent)) :
    Situated page value (pieces ++ front) key inner back node seen before c d where
  reads := h.reads
  known := by
    intro x isScalar
    rw [h.known x isScalar, List.mem_append, same x isScalar, scalarsOf_append, List.map_append, List.mem_append]
    tauto
  upto := h.upto
  keyStop := by
    refine h.keyStop.imp_right fun copy => ?_
    rw [List.mem_append, same _ rfl] at copy
    rw [scalarsOf_append, List.map_append, List.mem_append]
    tauto
  follows := h.follows
  colon := h.colon
  behind := h.behind

/-- More pieces are read after. -/
private theorem append {others : List Piece} {parts : List Outline} {e e' : Mark}
    (h : Situated page value front key inner back node seen before c d)
    (same : ∀ x : Extent, x.isScalar = true →
      (x ∈ new ↔ x ∈ (scalarsOf (front ++ .scalar key parts :: (inner ++ back))).map ScalarReading.extent))
    (adds : Adds (seen ++ new) more e e') (le : d ≤ e)
    (sameMore : ∀ x : Extent, x.isScalar = true → (x ∈ more ↔ x ∈ (scalarsOf others).map ScalarReading.extent)) :
    Situated page value front key inner (back ++ others) node seen before c d where
  reads := h.reads
  known := h.known
  upto := h.upto
  keyStop := h.keyStop
  follows := h.follows
  colon := h.colon
  behind := by
    rw [scalarsOf_append]
    refine List.forall_mem_append.2 ⟨h.behind, fun r mem => ?_⟩
    have isMore : r.extent ∈ more := (sameMore _ rfl).2 (List.mem_map_of_mem mem)
    rcases adds.within _ isMore with old | within
    · rw [List.mem_append, same _ rfl, scalarsOf_append, scalarsOf_cons, scalarsOf_append, List.map_append,
        List.mem_append, List.map_cons, List.mem_cons, List.map_append, List.mem_append] at old
      -- a copy of a scalar that was read before the value, in it or after it
      rcases old with old | old | old | old | old
      · exact .inl (List.mem_append_left _ ((h.known _ rfl).2 (.inl old)))
      · exact .inl (List.mem_append_left _ ((h.known _ rfl).2 (.inr (.inl old))))
      · exact .inl (List.mem_append_left _ ((h.known _ rfl).2 (.inr (.inr old))))
      · exact .inl (List.mem_append_right _ ((h.mem_extents_iff rfl).2 old))
      · obtain ⟨s, mem, same⟩ := List.mem_map.1 old
        have isStart : s.start = r.start := congrArg Extent.start same
        rw [← same, ← isStart]
        exact h.behind s mem
    · exact .inr (le_trans le within.1)

end Situated

private theorem below_eq_token {outlines children : List Outline} {t : Token} {below : Option (List Outline)}
    (h : Page.below outlines children = [.token t below]) : below = some children := by
  rw [Page.below] at h
  cases isLast : outlines.getLast? with
  | none =>
    rw [isLast] at h
    cases h
  | some o =>
    rw [isLast] at h
    cases o <;> cases h
    rfl

/-- A scalar that is no key has nothing below its tokens. -/
theorem Piece.token_not_mem_parts {r : ScalarReading} (made : r.outlined = .ok found) {t : Token}
    {children : List Outline} : .token t (some children) ∉ Outline.preorderAll found.1 := by
  rcases ScalarReading.outlined_cases made with ⟨_, tokens, form, _⟩ | ⟨_, _, _, _, first, others, _, _, form⟩
  · rw [form, Outline.preorderAll_block_tokens]
    simp
  · rw [form]
    split
    · simp [Outline.preorderAll, Outline.preorder]
    · rw [Outline.preorderAll_block_tokens]
      simp

/-- A piece among the pieces of two readings is among those of the first or of the second. -/
private theorem split_append {α : Type} {a b front tail : List α} {x : α} (h : a ++ b = front ++ x :: tail) :
    (∃ rest, a = front ++ x :: rest ∧ tail = rest ++ b) ∨ ∃ first, front = a ++ first ∧ b = first ++ x :: tail := by
  rcases List.append_eq_append_iff.1 h with ⟨first, isFront, isRest⟩ | ⟨rest, isFirst, isTail⟩
  · exact .inr ⟨first, isFront, isRest⟩
  · cases rest with
    | nil => exact .inr ⟨[], by rw [isFirst, List.append_nil, List.append_nil], isTail.symm⟩
    | cons y rest =>
      cases isTail
      exact .inl ⟨rest, isFirst, rfl⟩

/-- Each key with one value below it is situated in the text. -/
theorem Reads.exists_situated {input : Input} (h : Reads page input S last pieces found T)
    (stands : input.Stands seen m m') (upto : ∀ x ∈ seen, x.start ≤ x.stop ∧ x.stop ≤ m) {front tail : List Piece}
    {key : ScalarReading} {label : Token}
    (split : pieces = front ++ .scalar key [.token label (some [value])] :: tail) :
    ∃ inner back node before c d, tail = inner ++ back ∧
      Situated page value front key inner back node seen before c d ∧ d ≤ m' := by
  -- the key is in one of the readings below, or it is the key of a pair; what is read after it stands behind it
  induction h generalizing seen m m' front tail with
  | scalar read made =>
    obtain ⟨rfl, same⟩ | ⟨rfl, none⟩ := List.singleton_eq_append_iff.1 split
    · obtain ⟨-, isParts⟩ := Piece.scalar.inj (List.cons.inj same).1
      exact absurd (isParts ▸ List.mem_singleton_self _) (Piece.token_not_mem_parts made)
    · cases none
  | sequence placed items ih =>
    obtain ⟨c, d, after, stand, ends⟩ := Node.Follows.items stands
    obtain ⟨inner, back, node, before, c', d', isTail, situated, le⟩ :=
      ih stand (fun x mem => (upto x mem).imp_right (le_trans · after)) split
    exact ⟨inner, back, node, before, c', d', isTail, situated, le_trans le ends⟩
  | mapping listed pairs ih =>
    obtain ⟨c, d, after, stand, ends⟩ := Node.Follows.pairs stands
    obtain ⟨inner, back, node, before, c', d', isTail, situated, le⟩ :=
      ih stand (fun x mem => (upto x mem).imp_right (le_trans · after)) split
    exact ⟨inner, back, node, before, c', d', isTail, situated, le_trans le ends⟩
  | bare bare root ih => exact ih stands upto split
  | enclosed encloses localRule indexRule root ih =>
    cases front with
    | nil => cases split
    | cons piece front =>
      cases split
      obtain ⟨inner, back, node, before, c, d, isTail, situated, le⟩ := ih stands upto rfl
      refine ⟨inner, back, node, before, c, d, isTail, ?_, le⟩
      rw [← List.append_nil seen] at situated
      exact situated.prepend [_] fun x _ => Iff.rfl
  | noItems => simp at split
  | item first items ihn ihi =>
    obtain ⟨c, follows, stand⟩ := Yaml.itemsStand_cons.1 stands
    have adds := Yaml.itemsStand_adds stand
    rcases split_append split with ⟨tail, inFirst, rfl⟩ | ⟨front, rfl, inRest⟩
    · obtain ⟨inner, back, node, before, c', d', rfl, situated, le⟩ := ihn follows upto inFirst
      refine ⟨inner, back ++ _, node, before, c', d', List.append_assoc .., ?_, le_trans le adds.le⟩
      subst inFirst
      exact situated.append (fun x isScalar => first.mem_extents_iff isScalar) adds le
        fun x isScalar => items.mem_extents_iff isScalar
    · obtain ⟨inner, back, node, before, c', d', rfl, situated, le⟩ := ihi stand (follows.adds.upto upto) inRest
      exact ⟨inner, back, node, before, c', d', rfl,
        situated.prepend _ fun x isScalar => first.mem_extents_iff isScalar, le⟩
  | noPairs => simp at split
  | @pair _ _ _ _ _ _ _ tag text start stop node _ _ _ r _ _ _ _ outlines children _ own others placed read made
      valuePlaced value pairs ihn ihp =>
    obtain ⟨c, d, isKey, isValue, colon, stand⟩ := Yaml.pairsStand_cons.1 stands
    have extents : (Node.scalar tag text start stop).extents = [r.extent] := by
      subst read
      rfl
    have uptoKey := isKey.adds.upto upto
    rw [extents] at isValue colon stand uptoKey
    have uptoValue := isValue.adds.upto uptoKey
    have adds := Yaml.pairsStand_adds stand
    have same (parts : List Outline) (x : Extent) (isScalar : x.isScalar = true) : x ∈ [r.extent] ++ node.extents ↔
        x ∈ (scalarsOf (.scalar r parts :: own)).map ScalarReading.extent := by
      rw [scalarsOf_cons, List.map_cons, List.singleton_append, List.mem_cons, List.mem_cons]
      exact or_congr_right (value.mem_extents_iff isScalar)
    rcases split_append split with ⟨tail, inFirst, rfl⟩ | ⟨front, rfl, inRest⟩
    · cases front with
      | nil =>
        obtain ⟨isFirst, rfl⟩ := List.cons.inj inFirst
        obtain ⟨rfl, isParts⟩ := Piece.scalar.inj isFirst
        cases below_eq_token isParts
        refine ⟨own, others, node, seen ++ [r.extent], c, d, rfl, ?_, adds.le⟩
        refine ⟨⟨_, _, _, _, _, value⟩, fun x _ => ?_, uptoKey, ?_, isValue, colon, fun r mem => ?_⟩
        · simp [scalarsOf]
        · rcases isKey with ⟨copy, _⟩ | ⟨_, isStop⟩
          · rw [extents] at copy
            exact .inr (.inl (copy (List.mem_singleton_self _)))
          · subst read
            exact .inl isStop
        · exact (adds.within _ ((pairs.mem_extents_iff rfl).2 (List.mem_map_of_mem mem))).imp_right And.left
      | cons piece front =>
        obtain ⟨rfl, inOwn⟩ := List.cons.inj inFirst
        obtain ⟨inner, back, node', before, c', d', rfl, situated, le⟩ := ihn isValue uptoKey inOwn
        refine ⟨inner, back ++ others, node', before, c', d', List.append_assoc .., ?_, le_trans le adds.le⟩
        subst inOwn
        rw [List.append_assoc] at adds
        have here := situated.prepend [.scalar r (Page.below outlines children)] fun x _ => Iff.rfl
        exact here.append (same _) adds le fun x isScalar => pairs.mem_extents_iff isScalar
    · obtain ⟨inner, back, node', before, c', d', rfl, situated, le⟩ := ihp stand uptoValue inRest
      rw [List.append_assoc] at situated
      exact ⟨inner, back, node', before, c', d', rfl, situated.prepend _ (same _), le⟩

/-! ### The first block of a value -/

/-- A reading of which the first piece is a block starts with the pieces of its node, and the scalars among these stand
in it, but for copies. -/
private theorem Reads.exists_of_block {input : Input} (h : Reads page input S last pieces found T)
    (stands : input.Stands seen m m') {below : List Piece} (isFirst : pieces = .block n part :: below) :
    ∃ own others, below = own ++ others ∧ part.preorder = part :: own.flatMap Piece.parts ∧
      ∀ r ∈ scalarsOf own, r.extent ∈ seen ∨ r.stop ≤ n.stop := by
  induction h generalizing seen m m' below with
  | scalar read made => cases isFirst
  | sequence placed items ih =>
    obtain ⟨c, d, _, stand, _⟩ := Node.Follows.items stands
    exact ih stand isFirst
  | mapping listed pairs ih =>
    obtain ⟨c, d, _, stand, _⟩ := Node.Follows.pairs stands
    exact ih stand isFirst
  | bare bare root ih => exact ih stands isFirst
  | enclosed encloses localRule indexRule root ih =>
    cases isFirst
    refine ⟨_, [], (List.append_nil _).symm, congrArg (_ :: ·) root.preorderAll_eq, fun r mem => ?_⟩
    have isPart : r.extent ∈ n.extents := (root.mem_extents_iff rfl).2 (List.mem_map_of_mem mem)
    rcases stands with ⟨copy, _⟩ | ⟨isThere, _⟩
    · exact .inl (copy isPart)
    · exact (isThere.adds.2.within _ isPart).imp_right fun within => within.2.2
  | noItems => cases isFirst
  | item first items ihn ihi =>
    obtain ⟨c, follows, stand⟩ := Yaml.itemsStand_cons.1 stands
    rcases List.append_eq_cons_iff.1 isFirst with ⟨rfl, isBlock⟩ | ⟨rest, isBlock, rfl⟩
    · obtain ⟨own, others, isBelow, isPart, within⟩ := ihi stand isBlock
      refine ⟨own, others, isBelow, isPart, fun r mem => (within r mem).imp_left fun old => ?_⟩
      -- the items before the block gave no piece, so they hold no scalar
      rcases List.mem_append.1 old with old | new
      · exact old
      · exact absurd ((first.mem_extents_iff rfl).1 new) List.not_mem_nil
    · obtain ⟨own, others, rfl, here⟩ := ihn follows isBlock
      exact ⟨own, others ++ _, List.append_assoc .., here⟩
  | noPairs => cases isFirst
  | pair placed read made valuePlaced value pairs ihn ihp => cases isFirst

theorem Outline.exists_preorder_eq (o : Outline) : ∃ rest, o.preorder = o :: rest := by
  rcases o with ⟨_, _, _, _ | children⟩ | ⟨_, _, _, _ | children⟩ | ⟨_, _ | children⟩ <;> exact ⟨_, rfl⟩

/-- Below a key, what is no copy starts after the colon, or it is a scalar that is missing. -/
private theorem Yaml.Node.Follows.after_colon (h : n.Follows seen m m') (colon : n.AfterColon seen m) :
    ∀ x ∈ n.extents, x ∈ seen ∨ m < x.start ∧ x.start ≤ x.stop ∧ x.stop ≤ m' ∨
      x.isScalar = true ∧ x.start = x.stop := by
  intro x mem
  rcases h with ⟨copy, _⟩ | ⟨isThere, rfl⟩
  · exact .inl (copy mem)
  · rcases colon with copy | after | missing
    · exact .inl (copy mem)
    · refine (isThere.adds.2.within x mem).imp_right fun within => .inl ?_
      exact ⟨lt_of_lt_of_le after within.1, within.2⟩
    · cases n with
      | scalar tag text start stop =>
        cases List.mem_singleton.1 mem
        exact .inr (.inr ⟨rfl, missing⟩)
      | sequence tag items start stop => cases missing
      | mapping tag pairs start stop => cases missing

/-! ### Scalars in order -/

theorem Yaml.Mark.position_le_iff {a b : Mark} : a.position ≤ b.position ↔ a ≤ b := by
  rw [Position.le_def, Mark.le_def]
  simp only [Mark.position]
  omega

private theorem InOrder.le_start_mark {b : Mark} {scalars : List ScalarNode} (h : InOrder b.position scalars) :
    ∀ s ∈ scalars, b ≤ s.start := by
  induction scalars generalizing b with
  | nil => exact List.forall_mem_nil _
  | cons s rest ih =>
    obtain ⟨after, ordered, rest⟩ := h
    rw [Mark.position_le_iff] at after ordered
    refine List.forall_mem_cons.2 ⟨after, fun u mem => ?_⟩
    exact le_trans after (le_trans ordered (ih rest u mem))

/-- No scalar ends before it starts, and each ends before the later ones start. -/
theorem InOrder.marks {b : Position} {scalars : List ScalarNode} (h : InOrder b scalars) :
    (∀ s ∈ scalars, s.start ≤ s.stop) ∧ scalars.Pairwise fun s u => s.stop ≤ u.start := by
  induction scalars generalizing b with
  | nil => exact ⟨List.forall_mem_nil _, .nil⟩
  | cons s rest ih =>
    obtain ⟨_, ordered, order⟩ := h
    obtain ⟨all, sorted⟩ := ih order
    exact ⟨List.forall_mem_cons.2 ⟨Mark.position_le_iff.1 ordered, all⟩, .cons order.le_start_mark sorted⟩

namespace Situated

variable {front inner back : List Piece} {key : ScalarReading} {node : Node} {before : List Extent} {c d : Mark}
  {parts : List Outline}

private theorem keyStop_le (h : Situated page value front key inner back node [] before c d) : key.stop ≤ c :=
  (h.upto _ ((h.known key.extent rfl).2 (.inr (.inr rfl)))).2

/-- A copy of a scalar that is read again in order takes no place. -/
private theorem stop_le_of_mem (h : Situated page value front key inner back node [] before c d)
    (sorted : (scalarsOf (front ++ .scalar key parts :: (inner ++ back))).Pairwise fun r s => r.stop ≤ s.start)
    {r : ScalarReading} (mem : r ∈ scalarsOf (inner ++ back)) (copy : r.extent ∈ before) : r.stop ≤ r.start := by
  rw [scalarsOf_append, scalarsOf_cons, List.pairwise_append] at sorted
  rcases (h.known _ rfl).1 copy with none | old | same
  · cases none
  · obtain ⟨s, isOld, same⟩ := List.mem_map.1 old
    have isStop : s.stop = r.stop := congrArg Extent.stop same
    rw [← isStop]
    exact sorted.2.2 s isOld r (List.mem_cons_of_mem _ mem)
  · have isStop : r.stop = key.stop := congrArg Extent.stop same
    rw [isStop]
    exact (List.pairwise_cons.1 sorted.2.1).1 r mem

/-- A key that takes a place is no copy. -/
private theorem eq_keyStop (h : Situated page value front key inner back node [] before c d)
    (sorted : (scalarsOf (front ++ .scalar key parts :: (inner ++ back))).Pairwise fun r s => r.stop ≤ s.start)
    (filled : ¬ key.stop ≤ key.start) : c = key.stop := by
  rw [scalarsOf_append, scalarsOf_cons, List.pairwise_append] at sorted
  rcases h.keyStop with isStop | none | old
  · exact isStop
  · cases none
  · obtain ⟨s, isOld, same⟩ := List.mem_map.1 old
    have isStop : s.stop = key.stop := congrArg Extent.stop same
    exact absurd (isStop ▸ sorted.2.2 s isOld key List.mem_cons_self) filled

/-- Each scalar of the value starts after the end of the key, if it takes a place. -/
private theorem lt_start (h : Situated page value front key inner back node [] before c d)
    (sorted : (scalarsOf (front ++ .scalar key parts :: (inner ++ back))).Pairwise fun r s => r.stop ≤ s.start)
    {r : ScalarReading} (mem : r ∈ scalarsOf inner) : r.stop ≤ r.start ∨ key.stop < r.start := by
  have isPart : r.extent ∈ node.extents := (h.mem_extents_iff rfl).2 (List.mem_map_of_mem mem)
  rcases h.follows.after_colon h.colon _ isPart with copy | within | ⟨_, missing⟩
  · refine .inl (h.stop_le_of_mem sorted ?_ copy)
    rw [scalarsOf_append]
    exact List.mem_append_left _ mem
  · exact .inr (lt_of_le_of_lt h.keyStop_le within.1)
  · exact .inl (le_of_eq missing.symm)

/-- Each scalar after the value starts behind it, if it takes a place. -/
private theorem le_start (h : Situated page value front key inner back node [] before c d)
    (sorted : (scalarsOf (front ++ .scalar key parts :: (inner ++ back))).Pairwise fun r s => r.stop ≤ s.start)
    {r : ScalarReading} (mem : r ∈ scalarsOf back) : r.stop ≤ r.start ∨ d ≤ r.start := by
  rcases h.behind r mem with old | behind
  · rcases List.mem_append.1 old with copy | isPart
    · refine .inl (h.stop_le_of_mem sorted ?_ copy)
      rw [scalarsOf_append]
      exact List.mem_append_right _ mem
    · obtain ⟨s, isInner, same⟩ := List.mem_map.1 ((h.mem_extents_iff rfl).1 isPart)
      have isStop : s.stop = r.stop := congrArg Extent.stop same
      rw [scalarsOf_append, scalarsOf_cons, scalarsOf_append, List.pairwise_append, List.pairwise_cons,
        List.pairwise_append] at sorted
      exact .inl (isStop ▸ sorted.2.1.2.2.2 s isInner r mem)
  · exact .inr behind

/-- A block of the value does not reach behind the value, and it starts after the key unless it is a copy. -/
private theorem block (h : Situated page value front key inner back node [] before c d) {n : Node} {part : Outline}
    (mem : .block n part ∈ inner) : n.start ≤ n.stop ∧ n.stop ≤ d ∧ (n.stop ≤ c ∨ key.stop < n.start) := by
  obtain ⟨slot, U, mid, next, V, reads⟩ := h.reads
  rcases h.follows.after_colon h.colon _ (reads.extent_of_block mem) with copy | within | ⟨⟨⟩, _⟩
  · obtain ⟨ordered, upto⟩ := h.upto _ copy
    exact ⟨ordered, le_trans upto h.follows.adds.le, .inl upto⟩
  · exact ⟨within.2.1, within.2.2, .inr (lt_of_le_of_lt h.keyStop_le within.1)⟩

/-- The pieces of a value that is a block are those of its node, and their scalars end in it if they take a place. -/
private theorem stop_le_of_block (h : Situated page value front key inner back node [] before c d)
    (sorted : (scalarsOf (front ++ .scalar key parts :: (inner ++ back))).Pairwise fun r s => r.stop ≤ s.start)
    {below : List Piece} (isInner : inner = .block n part :: below) :
    ∀ r parts, .scalar r parts ∈ below → parts ≠ [] → r.stop ≤ r.start ∨ r.stop ≤ n.stop := by
  obtain ⟨slot, U, mid, next, V, reads⟩ := h.reads
  obtain ⟨own, others, rfl, isPart, within⟩ := reads.exists_of_block h.follows isInner
  -- nothing but the block is below the key, so the pieces after those of its node have no parts
  have none : others.flatMap Piece.parts = [] := by
    have all : value.preorder = part :: (own ++ others).flatMap Piece.parts := by
      have all := reads.preorderAll_eq
      rwa [Outline.preorderAll, Outline.preorderAll, List.append_nil, isInner, List.flatMap_cons] at all
    obtain ⟨rest, isFirst⟩ := Outline.exists_preorder_eq value
    have isValue : value = part := by
      rw [isFirst] at all
      exact (List.cons.inj all).1
    rw [isValue, isPart, List.flatMap_append, List.cons.injEq] at all
    exact List.append_right_eq_self.1 all.2.symm
  intro r parts mem filled
  rcases List.mem_append.1 mem with isOwn | isOther
  · rcases within r (mem_scalarsOf.2 ⟨parts, isOwn⟩) with copy | ends
    · refine .inl (h.stop_le_of_mem sorted (mem_scalarsOf.2 ⟨parts, ?_⟩) copy)
      rw [isInner]
      exact List.mem_append_left _ (List.mem_cons_of_mem _ mem)
    · exact .inr ends
  · exact absurd (List.flatMap_eq_nil_iff.1 none _ isOther) filled

end Situated

/-- What the pieces around a key with one value below it tell of the order in which they stand in the text, where `own`
is the first piece of the value.  Scalars that take no place may be copies. -/
structure Site (front : List Piece) (key : ScalarReading) (own : Piece) (below back : List Piece) : Prop where
  front : ∀ r ∈ scalarsOf front, r.stop ≤ key.start
  inside : ∀ r ∈ scalarsOf (own :: below), r.stop ≤ r.start ∨ key.stop < r.start
  behind : ∀ r ∈ scalarsOf back, r.stop ≤ r.start ∨ own.stop ≤ r.start
  scalar : ∀ r parts, own = .scalar r parts → ∀ s ∈ scalarsOf below, r.stop ≤ s.start
  block : ∀ n part, own = .block n part → n.start ≤ n.stop ∧
    (¬ key.stop ≤ key.start → n.stop ≤ key.stop ∨ key.stop < n.start) ∧
    ∀ r parts, .scalar r parts ∈ below → parts ≠ [] → r.stop ≤ r.start ∨ r.stop ≤ n.stop

private theorem Situated.site {front below back : List Piece} {own : Piece} {key : ScalarReading} {node : Node}
    {before : List Extent} {c d : Mark} {parts : List Outline}
    (h : Situated page value front key (own :: below) back node [] before c d)
    (sorted : (scalarsOf (front ++ .scalar key parts :: (own :: below ++ back))).Pairwise fun r s => r.stop ≤ s.start) :
    Site front key own below back where
  front := by
    rw [scalarsOf_append, scalarsOf_cons, List.pairwise_append] at sorted
    exact fun r mem => sorted.2.2 r mem key List.mem_cons_self
  inside r mem := h.lt_start sorted mem
  behind r mem := by
    cases own with
    | scalar s parts =>
      rw [scalarsOf_append, scalarsOf_cons, scalarsOf_append, scalarsOf_cons, List.pairwise_append, List.pairwise_cons,
        List.cons_append, List.pairwise_cons] at sorted
      exact .inr (sorted.2.1.2.1 r (List.mem_append_right _ mem))
    | block n part =>
      exact (h.le_start sorted mem).imp_right (le_trans (h.block List.mem_cons_self).2.1)
  scalar := by
    rintro r parts rfl
    rw [scalarsOf_append, scalarsOf_cons, scalarsOf_append, scalarsOf_cons, List.pairwise_append, List.pairwise_cons,
      List.cons_append, List.pairwise_cons] at sorted
    exact fun s mem => sorted.2.1.2.1 s (List.mem_append_left _ mem)
  block := by
    rintro n part rfl
    obtain ⟨ordered, _, place⟩ := h.block List.mem_cons_self
    refine ⟨ordered, fun filled => ?_, h.stop_le_of_block sorted rfl⟩
    rwa [h.eq_keyStop sorted filled] at place

/-- In a document that stands in the text, with its scalars in order, each key with one value below it has its site. -/
theorem Reads.exists_site {slot : Slot} {root : Node} {b : Position}
    (h : Reads page (.root slot root) S last pieces found T) (stands : root.Stands [] default)
    (order : InOrder b root.scalars) {front tail : List Piece} {key : ScalarReading} {label : Token}
    (split : pieces = front ++ .scalar key [.token label (some [value])] :: tail) :
    ∃ own below back, tail = own :: below ++ back ∧ value.preorder = (own :: below).flatMap Piece.parts ∧
      Site front key own below back := by
  have sorted : (scalarsOf pieces).Pairwise fun r s => r.stop ≤ s.start := by
    have sorted := order.marks.2
    rw [← show (scalarsOf pieces).map ScalarReading.source = root.scalars from h.map_source_scalarsOf,
      List.pairwise_map] at sorted
    exact sorted
  obtain ⟨inner, back, node, before, c, d, rfl, situated, _⟩ :=
    h.exists_situated (.inr ⟨stands, rfl⟩) (List.forall_mem_nil _) split
  obtain ⟨_, _, _, _, _, reads⟩ := situated.reads
  have parts := reads.preorderAll_eq
  rw [Outline.preorderAll, Outline.preorderAll, List.append_nil] at parts
  cases inner with
  | nil =>
    obtain ⟨rest, isFirst⟩ := Outline.exists_preorder_eq value
    rw [isFirst] at parts
    cases parts
  | cons own below =>
    rw [split] at sorted
    exact ⟨own, below, back, rfl, parts, situated.site sorted⟩

end ManifestLens
