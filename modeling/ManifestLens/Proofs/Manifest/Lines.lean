import ManifestLens.Proofs.Manifest.Alike
import ManifestLens.Proofs.Yaml.Extent

/-!
# Reading the lines of a document

The outline of a node depends on the lines of the file as far as the node goes (`Yaml.Node.isWithin`), and on no
others.  So a document is read alike in two files whose lines are the same that far (`alikeRuns_readDocument`),
whatever comes after it.
-/

namespace ManifestLens

open Yaml (Mark Node)

/-! ### Readings that are alike -/

/-- From every schema, the two readings give results that are alike and leave the same schema. -/
structure AlikeRuns {α : Type} (x y : Reading α) : Prop where
  results : ∀ S, Alike (x.runFrom S).1 (y.runFrom S).1
  schemas : ∀ S, (x.runFrom S).2 = (y.runFrom S).2

namespace AlikeRuns

variable {α β : Type} {x y : Reading α}

private theorem bind (h : AlikeRuns x y) {f g : α → Reading β} (next : ∀ a, AlikeRuns (f a) (g a)) :
    AlikeRuns (x >>= f) (y >>= g) := by
  have both (S : Schema) : Alike ((x >>= f).runFrom S).1 ((y >>= g).runFrom S).1 ∧
      ((x >>= f).runFrom S).2 = ((y >>= g).runFrom S).2 := by
    have results := h.results S
    have schemas := h.schemas S
    rw [Reading.runFrom_bind, Reading.runFrom_bind]
    generalize x.runFrom S = r at results schemas
    generalize y.runFrom S = r' at results schemas
    obtain ⟨a, T⟩ := r
    obtain ⟨a', T'⟩ := r'
    cases schemas
    cases results with
    | ok a => exact ⟨(next a).results T, (next a).schemas T⟩
    | error hf hg => exact ⟨.error hf hg, rfl⟩
  exact ⟨fun S => (both S).1, fun S => (both S).2⟩

private theorem ofExcept {r r' : Except Fault α} (h : Alike r r') :
    AlikeRuns (Reading.ofExcept r) (Reading.ofExcept r') :=
  ⟨fun _ => h, fun _ => rfl⟩

/-- What is read next may depend on what was computed. -/
private theorem ofExcept_bind {r r' : Except Fault α} (h : Alike r r') {f g : α → Reading β}
    (next : ∀ a, r = .ok a → AlikeRuns (f a) (g a)) :
    AlikeRuns (Reading.ofExcept r >>= f) (Reading.ofExcept r' >>= g) := by
  cases h with
  | ok a => exact next a rfl
  | error hf hg => exact ⟨fun _ => .error hf hg, fun _ => rfl⟩

private theorem pure (a : α) : AlikeRuns (Pure.pure a) (Pure.pure a) :=
  ⟨fun _ => .ok a, fun _ => rfl⟩

private theorem throw {f : Fault} (h : f.ofSyntax = false) :
    AlikeRuns (MonadExcept.throw f : Reading α) (MonadExcept.throw f) :=
  ⟨fun _ => .error h h, fun _ => rfl⟩

private theorem entry (slot : Slot) : AlikeRuns (Reading.entry slot) (Reading.entry slot) :=
  ⟨fun _ => .ok _, fun _ => rfl⟩

private theorem allocate (e : Entry) : AlikeRuns (Reading.allocate e) (Reading.allocate e) :=
  ⟨fun _ => .ok _, fun _ => rfl⟩

private theorem settle (slot : Slot) (kind : TokenKind) :
    AlikeRuns (Reading.settle slot kind) (Reading.settle slot kind) :=
  ⟨fun _ => .ok _, fun _ => rfl⟩

end AlikeRuns

/-! ### Keys -/

private theorem alike_pairs? (content : Yaml.Content) : Alike content.pairs? content.pairs? := by
  unfold Yaml.Content.pairs?
  split
  · exact .ok _
  · split
    · exact .ok _
    · exact .error rfl rfl
  · exact .ok _
  · exact .error rfl rfl

private theorem alike_referenceKey (content : Yaml.Content) : Alike (referenceKey content) (referenceKey content) := by
  refine (alike_pairs? content).bind fun pairs => ?_
  split
  · split <;> exact .ok _
  · exact .ok _

private theorem alike_stepKey (content : Yaml.Content) : Alike (stepKey content) (stepKey content) := by
  refine (alike_pairs? content).bind fun pairs => ?_
  split
  · exact .ok _
  · exact .error rfl rfl

private theorem alike_ruledKey (rule : Option KeyRule) (content : Yaml.Content) :
    Alike (ruledKey rule content) (ruledKey rule content) := by
  cases rule with
  | none => exact .ok _
  | some rule =>
    cases rule with
    | constant => exact .ok _
    | around => exact .ok _
    | led =>
      cases content with
      | text => exact .ok _
      | items => exact .error rfl rfl
      | pairs => exact .error rfl rfl
    | unlessExpression =>
      cases content with
      | text => exact .ok _
      | items => exact .error rfl rfl
      | pairs => exact .error rfl rfl
    | step => exact (alike_stepKey content).map _

private theorem alike_listing (entry : Entry) (pairs : List (Node × Node)) :
    Alike (entry.listing pairs) (entry.listing pairs) := by
  rw [Entry.listing]
  split
  · exact (alike_referenceKey _).bind fun _ => .ok _
  · exact .ok _

/-! ### Pages -/

theorem getElem?_eq_of_take {α : Type} {l l' : List α} {n k : Nat} (same : l.take n = l'.take n) (below : k < n) :
    l[k]? = l'[k]? := by
  rw [← List.getElem?_take_of_lt below, same, List.getElem?_take_of_lt below]

/-- Lists with the same first items have the same items between two places among these. -/
private theorem between_eq {α : Type} {l l' : List α} {n : Nat} (same : l.take n = l'.take n) (first : Nat) {last : Nat}
    (ends : last ≤ n) : (l.drop first).take (last - first) = (l'.drop first).take (last - first) := by
  have cut (l : List α) : (l.drop first).take (last - first) = ((l.take n).drop first).take (last - first) := by
    rw [List.drop_take, List.take_take, Nat.min_eq_left (by omega)]
  rw [cut, same, ← cut]

namespace Page

/-- The pages have the same first lines, and their documents start at the same position. -/
structure SameTo (n : Nat) (p q : Page) : Prop where
  anchor : p.anchor = q.anchor
  lines : p.lines.take n = q.lines.take n

section

variable {n : Nat} {p q : Page} {start stop : Mark}

private theorem SameTo.alike_line (h : SameTo n p q) {k : Nat} (below : k < n) : Alike (p.line k) (q.line k) := by
  rw [line, line, getElem?_eq_of_take h.lines below]
  cases q.lines[k]? with
  | none => exact .error rfl rfl
  | some text => exact .ok text

private theorem SameTo.alike_furtherTokens (h : SameTo n p q) (first : Token) (line count : Nat)
    (ends : line + count ≤ n) :
    Alike (p.furtherTokens first line count) (q.furtherTokens first line count) := by
  induction count generalizing line with
  | zero => exact .ok _
  | succ count ih =>
    rw [furtherTokens, furtherTokens, h.anchor]
    exact (h.alike_line (by omega)).bind fun text => (ih (line + 1) (by omega)).bind fun _ => .ok _

private theorem SameTo.alike_firstLength (h : SameTo n p q) (starts : start.line < n) :
    Alike (p.firstLength start stop) (q.firstLength start stop) := by
  rw [firstLength, firstLength]
  split
  · exact .ok _
  · exact (h.alike_line starts).map _

private theorem SameTo.range_eq (h : SameTo n p q) (start stop : Mark) : p.range start stop = q.range start stop := by
  rw [range, range, h.anchor]

private theorem SameTo.alike_scalar (h : SameTo n p q) (starts : start.line < n) (ends : stop.line ≤ n) (entry : Entry)
    (text : String) (last : Position) (remark : Option Remark) :
    Alike (p.scalar entry text start stop last remark) (q.scalar entry text start stop last remark) := by
  rw [scalar, scalar, h.anchor, h.range_eq]
  refine (h.alike_firstLength starts).bind fun length => ?_
  refine (alike_ruledKey _ _).bind fun localKey => (alike_ruledKey _ _).bind fun indexKey => ?_
  dsimp only
  split
  · exact .ok _
  · exact (h.alike_furtherTokens _ _ _ (by omega)).bind fun _ => .ok _

private theorem alike_highlighted (tokens : Except (List Char) (List Token)) :
    Alike (highlighted tokens) (highlighted tokens) := by
  cases tokens with
  | ok tokens => exact .ok _
  | error rest => exact .error rfl rfl

private theorem SameTo.alike_lineExpression (h : SameTo n p q) (starts : start.line < n) (text : String)
    (last : Position) :
    Alike (p.lineExpression text start last) (q.lineExpression text start last) := by
  rw [lineExpression, lineExpression, h.anchor]
  refine (h.alike_line starts).bind fun line => ?_
  split
  · exact .error rfl rfl
  · exact alike_highlighted _

private theorem SameTo.alike_blockExpression (h : SameTo n p q) (starts : start.line < n) (ends : stop.line ≤ n)
    (last : Position) (modifiers : Option (List Modifier)) (remark : Option Remark) :
    Alike (p.blockExpression start stop last modifiers remark)
      (q.blockExpression start stop last modifiers remark) := by
  rw [blockExpression, blockExpression, h.anchor, between_eq h.lines _ ends]
  exact (h.alike_line starts).bind fun line => (alike_highlighted _).bind fun _ => .ok _

private theorem SameTo.alike_expression (h : SameTo n p q) (starts : start.line < n) (ends : stop.line ≤ n)
    (text : String) (last : Position) (modifiers : Option (List Modifier)) (remark : Option Remark) :
    Alike (p.expression text start stop last modifiers remark)
      (q.expression text start stop last modifiers remark) := by
  rw [expression, expression, h.anchor, h.range_eq]
  split
  · refine (h.alike_lineExpression starts text last).bind fun tokens => ?_
    dsimp only
    split
    · exact .error rfl rfl
    · exact .ok _
  · refine (h.alike_blockExpression starts ends last modifiers remark).bind fun tokens => ?_
    dsimp only
    split
    · exact .error rfl rfl
    · exact .ok _

private theorem SameTo.alikeRuns_scalarBy (h : SameTo n p q) (starts : start.line < n) (ends : stop.line ≤ n)
    (slot : Slot) (tag text : String) (last : Position) (remark : Option Remark) :
    AlikeRuns (p.scalarBy slot tag text start stop last remark) (q.scalarBy slot tag text start stop last remark) := by
  constructor
  · intro S
    rw [p.runFrom_scalarBy slot tag text start stop last remark false S rfl,
      q.runFrom_scalarBy slot tag text start stop last remark false S rfl, ScalarReading.outlined,
      ScalarReading.outlined, ScalarReading.isExpression, ScalarReading.isExpression]
    split
    · exact h.alike_expression starts ends ..
    · exact h.alike_scalar starts ends ..
  · intro S
    rw [p.runFrom_scalarBy slot tag text start stop last remark false S rfl,
      q.runFrom_scalarBy slot tag text start stop last remark false S rfl]
    rfl

private theorem SameTo.alikeRuns_keyBy (h : SameTo n p q) (starts : start.line < n) (ends : stop.line ≤ n) (slot : Slot)
    (tag text : String) (last : Position) (remark : Option Remark) :
    AlikeRuns (p.keyBy slot tag text start stop last remark) (q.keyBy slot tag text start stop last remark) :=
  (AlikeRuns.settle ..).bind fun _ => h.alikeRuns_scalarBy starts ends ..

private theorem SameTo.alike_enclose (h : SameTo n p q) (entry : Entry) (node : Node) (found : Outlined) :
    Alike (p.enclose entry node found) (q.enclose entry node found) := by
  rw [enclose, enclose, h.range_eq]
  split
  · exact .ok _
  · exact (alike_ruledKey _ _).bind fun _ => (alike_ruledKey _ _).bind fun _ => .ok _

private theorem alikeRuns_itemSlot (entry : Entry) : AlikeRuns (itemSlot entry) (itemSlot entry) := by
  rw [itemSlot]
  split
  · exact .pure _
  · exact .allocate _

private theorem alikeRuns_valueSlot (keySlot : Slot) (listing : Listing) (key : String) :
    AlikeRuns (valueSlot keySlot listing key) (valueSlot keySlot listing key) := by
  rw [valueSlot_eq]
  refine (AlikeRuns.entry keySlot).bind fun keyEntry => AlikeRuns.bind ?_ fun slot => ?_
  · rw [Entry.innerSlot]
    split
    · exact .pure _
    · exact .allocate _
  · rw [Listing.referringSlot]
    split
    · exact .pure _
    · refine (AlikeRuns.entry slot).bind fun entry => ?_
      split
      · exact .allocate _
      · exact .pure _

private theorem alikeRuns_keySlot (listing : Listing) (key : String) :
    AlikeRuns (listing.keySlot key) (listing.keySlot key) := by
  rw [Listing.keySlot]
  split
  · exact .pure _
  · exact .allocate _

mutual

/-- The outlines of a node depend on no lines after it. -/
private theorem SameTo.alikeRuns_node (h : SameTo n p q) (slot : Slot) (last : Position) : (node : Node) →
    node.isWithin n = true → AlikeRuns (p.node slot last node) (q.node slot last node)
  | .scalar tag text start stop, within => by
    obtain ⟨starts, ends⟩ := Node.lines_of_isWithin within
    unfold Page.node
    exact h.alikeRuns_scalarBy starts ends slot tag text last none
  | .sequence tag items start stop, within => by
    simp only [Node.isWithin, Bool.and_eq_true] at within
    unfold Page.node
    refine (AlikeRuns.entry slot).bind fun entry => (alikeRuns_itemSlot entry).bind fun slot => ?_
    exact (h.alikeRuns_items slot last items within.2).bind fun found => .ofExcept (h.alike_enclose ..)
  | .mapping tag pairs start stop, within => by
    simp only [Node.isWithin, Bool.and_eq_true] at within
    unfold Page.node
    refine (AlikeRuns.entry slot).bind fun entry => (AlikeRuns.ofExcept (alike_listing ..)).bind fun listing => ?_
    exact (h.alikeRuns_pairs listing [] last pairs within.2).bind fun found => .ofExcept (h.alike_enclose ..)

private theorem SameTo.alikeRuns_items (h : SameTo n p q) (slot : Slot) (last : Position) : (items : List Node) →
    Yaml.itemsWithin n items = true → AlikeRuns (p.items slot last items) (q.items slot last items)
  | [], _ => by
    unfold Page.items
    exact .pure _
  | item :: rest, within => by
    simp only [Yaml.itemsWithin, Bool.and_eq_true] at within
    unfold Page.items
    refine (h.alikeRuns_node slot last item within.1).bind fun first => ?_
    exact (h.alikeRuns_items slot first.2 rest within.2).bind fun others => .pure _

private theorem SameTo.alikeRuns_pairs (h : SameTo n p q) (listing : Listing) (seen : List String) (last : Position) :
    (pairs : List (Node × Node)) → Yaml.pairsWithin n pairs = true →
      AlikeRuns (p.pairs listing seen last pairs) (q.pairs listing seen last pairs)
  | [], _ => by
    unfold Page.pairs
    exact .pure _
  | (.scalar tag key start stop, value) :: rest, within => by
    simp only [Yaml.pairsWithin, Bool.and_eq_true] at within
    obtain ⟨starts, ends⟩ := Node.lines_of_isWithin within.1.1
    rw [pairs_cons, pairs_cons]
    refine (alikeRuns_keySlot listing key).bind fun keySlot => ?_
    refine (h.alikeRuns_keyBy starts ends keySlot tag key last _).bind fun outlined => ?_
    refine (alikeRuns_valueSlot keySlot listing key).bind fun valueSlot => ?_
    refine (h.alikeRuns_node valueSlot outlined.2 value within.1.2).bind fun children => ?_
    exact (h.alikeRuns_pairs listing (key :: seen) children.2 rest within.2).bind fun others => .pure _
  | (.sequence _ _ _ _, _) :: _, _ => by
    unfold Page.pairs
    exact .throw rfl
  | (.mapping _ _ _ _, _) :: _, _ => by
    unfold Page.pairs
    exact .throw rfl

end

private theorem SameTo.alikeRuns_root (h : SameTo n p q) (slot : Slot) (last : Position) {node : Node}
    (within : node.isWithin n = true) : AlikeRuns (p.root slot last node) (q.root slot last node) := by
  cases node with
  | scalar tag text start stop =>
    obtain ⟨starts, ends⟩ := Node.lines_of_isWithin within
    exact h.alikeRuns_scalarBy starts ends slot tag text last none
  | sequence tag items start stop =>
    simp only [Node.isWithin, Bool.and_eq_true] at within
    refine (AlikeRuns.entry slot).bind fun entry => (alikeRuns_itemSlot entry).bind fun slot => ?_
    exact h.alikeRuns_items slot last items within.2
  | mapping tag pairs start stop =>
    simp only [Node.isWithin, Bool.and_eq_true] at within
    refine (AlikeRuns.entry slot).bind fun entry => (AlikeRuns.ofExcept (alike_listing ..)).bind fun listing => ?_
    exact h.alikeRuns_pairs listing [] last pairs within.2

end

end Page

/-! ### Documents -/

section

variable {n : Nat} {file whole : SourceFile}

private theorem versionOf_eq (same : file.lines.take n = whole.lines.take n) {root : Node}
    (within : root.isWithin n = true) :
    versionOf file.lines root = versionOf whole.lines root := by
  obtain ⟨_, ends⟩ := Node.lines_of_isWithin within
  rw [versionOf, versionOf, between_eq same _ ends]

private theorem alike_kindSlot (kinds : List (String × Slot)) (kind : Option Value) :
    Alike (kindSlot kinds kind) (kindSlot kinds kind) := by
  unfold kindSlot
  dsimp only
  split
  · exact .ok _
  · exact .ok _
  · split
    · exact .ok _
    · exact .error rfl rfl

private theorem alike_metadataName (entries : Entries) : Alike (metadataName entries) (metadataName entries) := by
  unfold metadataName
  split
  · exact .ok _
  · exact .ok _
  · exact .error rfl rfl

private theorem alikeRuns_readEntries (same : file.lines.take n = whole.lines.take n) (kinds : List (String × Slot))
    (state : FileReading) (document : Yaml.Document) {root : Node} (within : root.isWithin n = true)
    (entries : Entries) :
    AlikeRuns (readEntries file kinds state document root entries)
      (readEntries whole kinds state document root entries) := by
  have page : Page.SameTo n ⟨file.lines.map String.toList, root.start.position⟩
      ⟨whole.lines.map String.toList, root.start.position⟩ := by
    refine ⟨rfl, ?_⟩
    rw [← List.map_take, same, List.map_take]
  unfold readEntries
  rw [versionOf_eq same within]
  refine (AlikeRuns.ofExcept (alike_kindSlot ..)).bind fun slot => ?_
  refine (AlikeRuns.ofExcept (alike_metadataName entries)).bind fun name => ?_
  dsimp only
  split
  · exact (AlikeRuns.throw rfl).bind fun _ => (page.alikeRuns_root slot state.last within).bind fun _ => .pure _
  · exact (page.alikeRuns_root slot state.last within).bind fun _ => .pure _

theorem expanded_of_valueOf {source : List Char} {root expanded : Node} {value : Value}
    (h : Yaml.valueOf source root = .ok (expanded, value)) : expanded = Yaml.expand (root.depth + 1) root := by
  obtain ⟨_, _, h⟩ := except_bind_eq_ok_iff.1 h
  cases h
  rfl

/-- A document on the first lines is read alike in files with the same first lines. -/
theorem alikeRuns_readDocument (same : file.lines.take n = whole.lines.take n) (kinds : List (String × Slot))
    (state : FileReading) {document : Yaml.Document} (within : document.root.isWithin n = true) :
    AlikeRuns (readDocument file kinds state document) (readDocument whole kinds state document) := by
  refine AlikeRuns.ofExcept_bind (Yaml.alike_valueOf _ _ document.root) fun result valued => ?_
  obtain ⟨root, value⟩ := result
  have expanded : root.isWithin n = true := by
    rw [expanded_of_valueOf valued]
    exact Yaml.isWithin_expand _ within
  dsimp only
  split
  · exact .pure _
  · split
    · exact (alikeRuns_readEntries same kinds state document expanded _).bind fun _ => .pure _
    · exact .throw rfl

/-- The manifest of a document on the first lines starts on one of these. -/
theorem anchor_line_lt {kinds : List (String × Slot)} {state next : FileReading} {document : Yaml.Document}
    {S T : Schema} {manifest : Manifest} (within : document.root.isWithin n = true)
    (h : (readDocument file kinds state document).runFrom S = (.ok (some manifest, next), T)) :
    manifest.anchor.absolute.line.toNat < n := by
  rcases readDocument_eq_ok h with ⟨none, _⟩ | ⟨root, entries, m, valued, same, _, read, _⟩
  · cases none
  · cases same
    obtain ⟨page, _, _, rfl, _, _, _, absolute, _⟩ := readEntries_eq_ok read
    have expanded : root.isWithin n = true := by
      rw [expanded_of_valueOf valued]
      exact Yaml.isWithin_expand _ within
    rw [absolute]
    exact (Node.lines_of_isWithin expanded).1

end

end ManifestLens
