import ManifestLens.Proofs.Manifest.Derivation
import ManifestLens.Proofs.Yaml.Grouping
import ManifestLens.Proofs.Yaml.Merging
import ManifestLens.Yaml.Document

/-!
# Where the scalars of documents come from

Each event that is joined to a document adds its own scalar only (`Joiner.Written.take`), and merge keys bring in no
other scalars, so a scalar of a document is empty or written as one of the tokens of the text (`IsScalarOf.hasOrigin`).
Hence it is spelled in the text between its marks (`Origin.exists_spelled`).
-/

namespace ManifestLens.Yaml

/-! ### Documents -/

/-- All scalars in the node have an origin among the tokens. -/
abbrev Node.Written (tokens : List Token) (node : Node) : Prop :=
  node.Every (HasOrigin tokens) fun _ _ => True

/-- All scalars of a collection that is not complete have an origin. -/
def Frame.Written (tokens : List Token) : Frame → Prop
  | .sequence _ _ items => ∀ item ∈ items, item.Written tokens
  | .mapping _ _ pairs key => EveryPair (HasOrigin tokens) (fun _ _ => True) pairs ∧ ∀ k ∈ key, k.Written tokens

namespace Joiner

/-- All scalars of a document that is being joined have an origin. -/
structure Written (tokens : List Token) (j : Joiner) : Prop where
  frames : ∀ frame ∈ j.frames, frame.Written tokens
  anchored : ∀ a ∈ j.anchored, ∀ node ∈ a.node, node.Written tokens
  root : ∀ node ∈ j.root, node.Written tokens

namespace Written

variable {tokens : List Token} {j j' : Joiner} {node : Node}

private theorem empty : Joiner.empty.Written tokens :=
  ⟨List.forall_mem_nil _, List.forall_mem_nil _, fun _ none => by cases none⟩

private theorem place (h : j.Written tokens) (written : node.Written tokens) : (j.place node).Written tokens := by
  have frames := h.frames
  rw [Joiner.place]
  split
  · exact ⟨h.frames, h.anchored, fun _ same => by cases same; exact written⟩
  · next p start items outer isFrames =>
    rw [isFrames] at frames
    obtain ⟨first, outer⟩ := List.forall_mem_cons.1 frames
    refine ⟨List.forall_mem_cons.2 ⟨List.forall_mem_cons.2 ⟨written, first⟩, outer⟩, h.anchored, h.root⟩
  · next p start pairs outer isFrames =>
    rw [isFrames] at frames
    obtain ⟨first, outer⟩ := List.forall_mem_cons.1 frames
    refine ⟨List.forall_mem_cons.2 ⟨⟨first.1, ?_⟩, outer⟩, h.anchored, h.root⟩
    rintro _ ⟨⟩
    exact written
  · next p start pairs key outer isFrames =>
    rw [isFrames] at frames
    obtain ⟨first, outer⟩ := List.forall_mem_cons.1 frames
    refine ⟨List.forall_mem_cons.2 ⟨⟨?_, ?_⟩, outer⟩, h.anchored, h.root⟩
    · exact List.forall_mem_cons.2 ⟨⟨first.2 key rfl, written⟩, first.1⟩
    · rintro _ ⟨⟩

private theorem note {properties : Properties} {start : Mark} {noted : Option Node} (h : j.Written tokens)
    (written : ∀ node ∈ noted, node.Written tokens) (made : j.note properties start noted = .ok j') :
    j'.Written tokens := by
  rw [Joiner.note] at made
  split at made
  · cases made
    exact h
  · split at made
    · cases made
    · cases made
      exact ⟨h.frames, List.forall_mem_cons.2 ⟨written, h.anchored⟩, h.root⟩

private theorem complete {properties : Properties} (h : j.Written tokens) (written : node.Written tokens) :
    (j.complete properties node).Written tokens := by
  rw [Joiner.complete]
  split
  · exact h
  · refine ⟨h.frames, ?_, h.root⟩
    rw [List.forall_mem_map]
    intro a mem
    split
    · rintro _ ⟨⟩
      exact written
    · exact h.anchored a mem

private theorem close {stop : Mark} (h : j.Written tokens) : (j.close stop).Written tokens := by
  have frames := h.frames
  rw [Joiner.close]
  split
  · exact h
  · next p start items outer isFrames =>
    rw [isFrames] at frames
    obtain ⟨first, others⟩ := List.forall_mem_cons.1 frames
    have around : Joiner.Written tokens { j with frames := outer } := ⟨others, h.anchored, h.root⟩
    have written {tag : String} : (Node.sequence tag items.reverse start stop).Written tokens :=
      .sequence trivial fun item mem => first item (List.mem_reverse.1 mem)
    exact (around.complete written).place written
  · next p start pairs key outer isFrames =>
    rw [isFrames] at frames
    obtain ⟨first, others⟩ := List.forall_mem_cons.1 frames
    have around : Joiner.Written tokens { j with frames := outer } := ⟨others, h.anchored, h.root⟩
    have written {tag : String} : (Node.mapping tag pairs.reverse start stop).Written tokens :=
      .of_pairs trivial fun p mem => first.1 p (List.mem_reverse.1 mem)
    exact (around.complete written).place written

private theorem resolve {name : String} {start : Mark} (h : j.Written tokens) (edge : IsEdge tokens start)
    (made : j.resolve name start = .ok j') : j'.Written tokens := by
  rw [Joiner.resolve] at made
  split at made
  · cases made
  · next node found =>
    cases made
    exact h.place (h.anchored _ (List.mem_of_find?_eq_some found) node rfl)
  · cases made
    have written : (Node.scalar (Tag.standard "null") "" start start).Written tokens :=
      .scalar (.inl ⟨rfl, edge, edge⟩)
    have placed := h.place written
    exact ⟨placed.frames, placed.anchored, placed.root⟩

theorem take {event : Event} (h : j.Written tokens) (comes : event.ComesFrom tokens) (made : j.take event = .ok j') :
    j'.Written tokens := by
  cases event with
  | aliasOf name start => exact h.resolve comes made
  | scalar p untagged text start stop =>
    obtain ⟨j₁, noted, made⟩ := except_bind_eq_ok_iff.1 made
    cases made
    have written {tag : String} : (Node.scalar tag text start stop).Written tokens := .scalar comes
    exact (h.note (fun _ same => by cases same; exact written) noted).place written
  | sequenceStart p start =>
    obtain ⟨j₁, noted, made⟩ := except_bind_eq_ok_iff.1 made
    cases made
    have before := h.note (fun _ none => by cases none) noted
    exact ⟨List.forall_mem_cons.2 ⟨List.forall_mem_nil _, before.frames⟩, before.anchored, before.root⟩
  | mappingStart p start =>
    obtain ⟨j₁, noted, made⟩ := except_bind_eq_ok_iff.1 made
    cases made
    have before := h.note (fun _ none => by cases none) noted
    refine ⟨List.forall_mem_cons.2 ⟨⟨List.forall_mem_nil _, ?_⟩, before.frames⟩, before.anchored, before.root⟩
    rintro _ ⟨⟩
  | sequenceEnd stop =>
    cases made
    exact h.close
  | mappingEnd stop =>
    cases made
    exact h.close
  | _ =>
    cases made
    exact h

end Written

end Joiner

namespace DocumentStream

/-- All scalars of joined documents have an origin, if all events come from the tokens. -/
private theorem written_of_mem_join {tokens : List Token} {failure : Option Error} {events : List Event}
    (comes : ∀ e ∈ events, e.ComesFrom tokens) {current : Option Joiner} (h : ∀ j ∈ current, j.Written tokens) :
    ∀ document ∈ (join failure current events).documents, document.root.Written tokens := by
  induction events generalizing current with
  | nil => cases current <;> cases failure <;> exact List.forall_mem_nil _
  | cons event events ih =>
    obtain ⟨first, others⟩ := List.forall_mem_cons.1 comes
    rw [join.eq_def]
    dsimp only
    split
    · refine ih others ?_
      rintro _ ⟨⟩
      exact .empty
    · refine ih others ?_
      rintro _ ⟨⟩
    · next j =>
      refine List.forall_mem_cons.2 ⟨?_, ih others fun _ none => by cases none⟩
      cases root : j.root with
      | none => exact .scalar (.inl ⟨rfl, .inl rfl, .inl rfl⟩)
      | some node => exact (h j rfl).root node root
    · split
      · next next made =>
        refine ih others ?_
        rintro _ ⟨⟩
        exact (h _ rfl).take first made
      · exact List.forall_mem_nil _

/-- All scalars of the documents of a text have an origin among its tokens. -/
theorem written_of_mem_ofText {text : List Char} {document : Document} (h : document ∈ (ofText text).documents) :
    IsAllowed text ∧ document.root.Written (TokenStream.ofText text).tokens := by
  rw [ofText] at h
  split at h
  · cases h
  · next none =>
    refine ⟨isAllowed_of_firstForbidden none, ?_⟩
    exact written_of_mem_join (comesFrom_of_mem_ofTokens _) (fun _ none => by cases none) document h

end DocumentStream

/-! ### Scalars in reading order -/

theorem forall_itemScalars_iff {items : List Node} {P : ScalarNode → Prop} :
    (∀ s ∈ itemScalars items, P s) ↔ ∀ item ∈ items, ∀ s ∈ item.scalars, P s := by
  induction items with
  | nil => simp [itemScalars]
  | cons n rest ih => rw [itemScalars, List.forall_mem_append, List.forall_mem_cons, ih]

theorem forall_pairScalars_iff {pairs : List (Node × Node)} {P : ScalarNode → Prop} :
    (∀ s ∈ pairScalars pairs, P s) ↔
      ∀ p ∈ pairs, (∀ s ∈ p.1.scalars, P { s with isKey := true }) ∧ ∀ s ∈ p.2.scalars, P s := by
  induction pairs with
  | nil => simp [pairScalars]
  | cons p rest ih =>
    rw [pairScalars, List.forall_mem_append, List.forall_mem_append, List.forall_mem_map, List.forall_mem_cons, ih]

theorem Node.Every.scalars {leaf : String → Mark → Mark → Prop} {inner : Mark → Mark → Prop} {node : Node}
    (every : node.Every leaf inner) : ∀ s ∈ node.scalars, leaf s.text s.start s.stop := by
  induction every with
  | scalar own => exact List.forall_mem_singleton.2 own
  | sequence _ _ ih => exact forall_itemScalars_iff.2 ih
  | mapping _ _ _ keys values => exact forall_pairScalars_iff.2 fun p mem => ⟨keys p mem, values p mem⟩

/-- A scalar of one of the documents of a text, with the merge keys replaced. -/
def IsScalarOf (text : List Char) (s : ScalarNode) : Prop :=
  ∃ document ∈ (DocumentStream.ofText text).documents, ∃ root value,
    valueOf text document.root = .ok (root, value) ∧ s ∈ root.scalars

instance (text : List Char) (s : ScalarNode) : Decidable (IsScalarOf text s) :=
  decidable_of_iff
    (∃ document ∈ (DocumentStream.ofText text).documents, ∃ found ∈ (valueOf text document.root).toOption,
      s ∈ found.1.scalars) <| by
    refine exists_congr fun document => and_congr_right fun _ => ?_
    rw [Prod.exists]
    cases valueOf text document.root <;> simp [Except.toOption]

/-- A scalar of a text is empty and at edges of tokens, or written as one of the tokens. -/
theorem IsScalarOf.hasOrigin {text : List Char} {s : ScalarNode} (h : IsScalarOf text s) :
    IsAllowed text ∧ HasOrigin (TokenStream.ofText text).tokens s.text s.start s.stop := by
  obtain ⟨document, isDocument, root, value, valued, mem⟩ := h
  obtain ⟨allowed, written⟩ := DocumentStream.written_of_mem_ofText isDocument
  obtain ⟨_, _, made⟩ := except_bind_eq_ok_iff.1 valued
  cases made
  exact ⟨allowed, (written.expand _).scalars s mem⟩

/-- What has an origin among the tokens of a text starts and ends within its lines. -/
theorem HasOrigin.within {source : List Char} {text : String} {start stop : Mark} (allowed : IsAllowed source)
    (h : HasOrigin (TokenStream.ofText source).tokens text start stop) :
    start.Within (Text.keptLines source) ∧ stop.Within (Text.keptLines source) := by
  have within {m : Mark} (edge : IsEdge (TokenStream.ofText source).tokens m) : m.Within (Text.keptLines source) := by
    rcases edge with rfl | ⟨t, mem, rfl | rfl⟩
    · exact .default
    · exact (within_of_mem_ofText allowed t mem).1
    · exact (within_of_mem_ofText allowed t mem).2
  exact h.isEdge.imp within within

/-- A scalar of a text starts and ends within its lines. -/
theorem IsScalarOf.within {text : List Char} {s : ScalarNode} (h : IsScalarOf text s) :
    s.start.Within (Text.keptLines text) ∧ s.stop.Within (Text.keptLines text) := by
  obtain ⟨allowed, hasOrigin⟩ := h.hasOrigin
  exact hasOrigin.within allowed

/-! ### Scalars in their text -/

/-- A scalar that is written as a token is spelled in the text after its heading, and ends where the token does. -/
theorem Origin.exists_spelled {source : List Char} {text : String} {start stop : Mark} {heading : List Token}
    {t : Token} (h : Origin (TokenStream.ofText source).tokens text start stop heading t) (allowed : IsAllowed source) :
    ∃ c d e style, Reaches (Cursor.start source) c ∧ c.mark = start ∧ Reaches c d ∧ d.mark = t.start ∧
      e.mark = stop ∧ t.lexeme = .scalar text style ∧ Spelled d text.toList e style := by
  obtain ⟨before, after, tokens⟩ := h.isPart
  obtain ⟨last, cut⟩ := cut_ofText allowed
  rw [← tokens, List.append_assoc] at cut
  obtain ⟨m, first, cut⟩ := Cut.append_iff.1 cut
  obtain ⟨n, cut, -⟩ := Cut.append_iff.1 cut
  obtain ⟨style, isScalar⟩ := h.isScalar
  -- the token itself is spelled where it starts
  have spelled {d e : Cursor} (here : TokenAt d t e) : d.mark = t.start ∧ ∃ f : Cursor, f.mark = stop ∧
      Spelled d text.toList f style := by
    obtain ⟨starts, text', style', f, space, lexeme, spelled, stops, -⟩ := here.scalar (by rw [isScalar]; rfl)
    rw [isScalar, Lexeme.scalar.injEq] at lexeme
    obtain ⟨rfl, rfl⟩ := lexeme
    rw [String.toList_ofList]
    exact ⟨starts.symm, f, stops.trans h.stop.symm, spelled⟩
  cases heading with
  | nil =>
    cases cut with
    | @token _ d _ _ _ _ gap here further =>
      obtain ⟨starts, f, stops, spelled⟩ := spelled here
      exact ⟨d, d, f, style, first.reaches.trans gap, by rw [starts, h.start]; rfl, .refl d, starts, stops, isScalar,
        spelled⟩
  | cons p heading =>
    cases cut with
    | @token _ c _ _ _ _ gap property further =>
      obtain ⟨x, rest, further⟩ := Cut.append_iff.1 further
      cases further with
      | @token _ d _ _ _ _ between here _ =>
        obtain ⟨starts, f, stops, spelled⟩ := spelled here
        refine ⟨c, d, f, style, first.reaches.trans gap, ?_, (property.reaches.trans rest.reaches).trans between,
          starts, stops, isScalar, spelled⟩
        rw [h.start]
        exact (property.start (h.properties p List.mem_cons_self)).symm

end ManifestLens.Yaml
