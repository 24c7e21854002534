import ManifestLens.Manifest.Basic

/-!
# Running a reading

What a reading gives from a schema, and the schema that it leaves, for each of the steps of which readings are made:
the steps of the store, scalars, and the documents of a file.
-/

namespace ManifestLens

variable {S T : Schema} {document : Yaml.Document} {file : SourceFile} {kinds : List (String × Slot)}
  {state : FileReading} {α β ε σ : Type}

/-- A composed computation succeeds if its two parts do. -/
theorem except_bind_eq_ok_iff {x : Except ε α} {f : α → Except ε β} {b : β} :
    (x >>= f) = .ok b ↔ ∃ a, x = .ok a ∧ f a = .ok b := by
  cases x with
  | error e =>
    constructor
    · intro h
      cases h
    · rintro ⟨_, ⟨⟩, _⟩
  | ok a =>
    constructor
    · intro h
      exact ⟨a, rfl, h⟩
    · rintro ⟨_, ⟨⟩, h⟩
      exact h

theorem except_eq_ok_of_toOption {x : Except ε α} {a : α} (h : x.toOption = some a) : x = .ok a := by
  cases x with
  | error => cases h
  | ok b => exact congrArg Except.ok (Option.some.inj h)

theorem exists_ok_of_isSome {r : Except ε α × σ} (h : r.1.toOption.isSome = true) : ∃ a T, r = (.ok a, T) := by
  obtain ⟨a, made⟩ := Option.isSome_iff_exists.1 h
  exact ⟨a, r.2, Prod.ext (except_eq_ok_of_toOption made) rfl⟩

theorem exists_read_of_manifest {r : Except Fault (Option Manifest × FileReading) × Schema} {manifest : Manifest}
    (h : r.1.toOption.bind (·.1) = some manifest) : ∃ next T, r = (.ok (some manifest, next), T) := by
  obtain ⟨_ | ⟨found, next⟩, T⟩ := r
  · cases h
  · obtain rfl : found = some manifest := h
    exact ⟨next, T, rfl⟩

theorem exists_manifest_of_isSome {r : Except Fault (Option Manifest × FileReading) × Schema}
    (h : (r.1.toOption.bind (·.1)).isSome = true) : ∃ manifest next T, r = (.ok (some manifest, next), T) := by
  obtain ⟨manifest, isManifest⟩ := Option.isSome_iff_exists.1 h
  exact ⟨manifest, exists_read_of_manifest isManifest⟩

namespace Reading

/-- What a reading gives from a schema, with the schema that it leaves. -/
def runFrom (x : Reading α) (S : Schema) : Except Fault α × Schema :=
  x.run S

theorem runFrom_bind (x : Reading α) (f : α → Reading β) (S : Schema) :
    (x >>= f).runFrom S = match x.runFrom S with
      | (.ok a, T) => (f a).runFrom T
      | (.error e, T) => (.error e, T) := by
  show ExceptT.bindCont f (x.runFrom S).1 (x.runFrom S).2 = _
  rcases x.runFrom S with ⟨_ | _, T⟩ <;> rfl

@[simp] theorem runFrom_pure (a : α) (S : Schema) : (pure a : Reading α).runFrom S = (.ok a, S) :=
  rfl

@[simp] theorem runFrom_throw (e : Fault) (S : Schema) : (throw e : Reading α).runFrom S = (.error e, S) :=
  rfl

@[simp] theorem runFrom_ofExcept (r : Except Fault α) (S : Schema) : (ofExcept r).runFrom S = (r, S) :=
  rfl

@[simp] theorem runFrom_entry (slot : Slot) (S : Schema) : (entry slot).runFrom S = (.ok (S.entry slot), S) :=
  rfl

@[simp] theorem runFrom_allocate (e : Entry) (S : Schema) : (allocate e).runFrom S = (.ok S.size, S.push e) :=
  rfl

@[simp] theorem runFrom_assign (slot : Slot) (kind : TokenKind) (S : Schema) :
    (assign slot kind).runFrom S = (.ok (), S.assign slot kind) :=
  rfl

@[simp] theorem runFrom_settle (slot : Slot) (kind : TokenKind) (S : Schema) :
    (settle slot kind).runFrom S = (.ok (), S.settle slot kind) :=
  rfl

/-- A composed reading succeeds if its two parts do, one after the other. -/
theorem runFrom_bind_eq_ok_iff {x : Reading α} {f : α → Reading β} {b : β} :
    (x >>= f).runFrom S = (.ok b, T) ↔ ∃ a S', x.runFrom S = (.ok a, S') ∧ (f a).runFrom S' = (.ok b, T) := by
  rw [runFrom_bind]
  constructor
  · intro h
    split at h
    · next a S' hx => exact ⟨a, S', hx, h⟩
    · cases h
  · rintro ⟨a, S', hx, hf⟩
    rw [hx]
    exact hf

end Reading

/-! ### Scalars -/

/-- The entry with which a scalar of the given tag is read: one without a kind takes that of the tag. -/
def Entry.ofTag (entry : Entry) (tag : String) : Entry :=
  { entry with kind := if entry.kind == .unset then scalarKind tag else entry.kind }

/-- The kind by which a scalar is read may be given to its entry as it is: an entry with a kind has that one. -/
private theorem Schema.assign_ofTag (S : Schema) (slot : Slot) (tag : String) :
    S.assign slot ((S.entry slot).ofTag tag).kind = S.settle slot ((S.entry slot).ofTag tag).kind := by
  apply Array.ext_getElem?
  intro i
  rw [assign, settle, Array.getElem?_modify, Array.getElem?_modify]
  by_cases at_slot : slot = i
  · subst at_slot
    rw [if_pos rfl, if_pos rfl, entry]
    cases S[slot]? with
    | none => rfl
    | some e =>
      simp only [Option.getD_some, Option.map_some, Entry.ofTag]
      split <;> rfl
  · rw [if_neg at_slot, if_neg at_slot]

/-- A scalar with all that its outline depends on. -/
structure ScalarReading where
  page : Page
  slot : Slot
  /-- The entry with the kind by which the scalar is read. -/
  entry : Entry
  isKey : Bool
  text : String
  start : Yaml.Mark
  stop : Yaml.Mark
  last : Position
  remark : Option Remark

namespace ScalarReading

/-- The scalar is read as an expression. -/
def isExpression (r : ScalarReading) : Bool :=
  r.entry.kind == .string && r.text.toList.head? == some '='

/-- The outline of the scalar, and the position that is handed on. -/
def outlined (r : ScalarReading) : Except Fault Outlined :=
  if r.isExpression then r.page.expression r.text r.start r.stop r.last r.entry.modifiers r.remark
  else r.page.scalar r.entry r.text r.start r.stop r.last r.remark

/-- The schema after the scalar. -/
def settle (r : ScalarReading) (S : Schema) : Schema :=
  if r.isExpression then S else S.settle r.slot r.entry.kind

end ScalarReading

theorem Page.runFrom_scalarBy (page : Page) (slot : Slot) (tag text : String) (start stop : Yaml.Mark) (last : Position)
    (remark : Option Remark) (isKey : Bool) (S : Schema) {r : ScalarReading}
    (hr : r = ⟨page, slot, (S.entry slot).ofTag tag, isKey, text, start, stop, last, remark⟩) :
    (page.scalarBy slot tag text start stop last remark).runFrom S = (r.outlined, r.settle S) := by
  have he : r.isExpression =
      (((S.entry slot).ofTag tag).kind == .string && text.toList.head? == some '=') := by rw [hr]; rfl
  rw [ScalarReading.outlined, ScalarReading.settle, he, hr, Page.scalarBy, Reading.runFrom_bind, Reading.runFrom_entry]
  show (if ((S.entry slot).ofTag tag).kind == .string && text.toList.head? == some '=' then
      Reading.ofExcept (page.expression text start stop last ((S.entry slot).ofTag tag).modifiers remark)
    else (do
      Reading.assign slot ((S.entry slot).ofTag tag).kind
      Reading.ofExcept (page.scalar ((S.entry slot).ofTag tag) text start stop last remark) :
        Reading Outlined)).runFrom S = _
  cases ((S.entry slot).ofTag tag).kind == .string && text.toList.head? == some '=' with
  | true => rfl
  | false =>
    simp only [Bool.false_eq_true, if_false, Reading.runFrom_bind, Reading.runFrom_assign, Reading.runFrom_ofExcept,
      S.assign_ofTag]

/-! ### Pairs -/

/-- The listing of an entry takes over its names and whether they are strict. -/
theorem Entry.listing_eq_ok {e : Entry} {pairs : List (Yaml.Node × Yaml.Node)} {listing : Listing}
    (h : e.listing pairs = .ok listing) :
    ∃ reference, listing = ⟨e.shape.members, e.strict, reference⟩ ∧
      (e.refers = false ∧ reference = none ∨ e.refers = true ∧ referenceKey (.pairs pairs) = .ok reference) := by
  rw [Entry.listing] at h
  cases refers : e.refers with
  | false =>
    rw [refers] at h
    cases h
    exact ⟨none, rfl, .inl ⟨rfl, rfl⟩⟩
  | true =>
    rw [refers] at h
    obtain ⟨reference, made, h⟩ := except_bind_eq_ok_iff.1 h
    cases h
    exact ⟨reference, rfl, .inr ⟨rfl, made⟩⟩

/-- The slot of a key; a key that the schema does not know gets a new one. -/
def Listing.keySlot (listing : Listing) (key : String) : Reading Slot :=
  match listing.slot? key with
  | some slot => pure slot
  | none => Reading.allocate {}

/-- The slot of what is below a key. -/
def Entry.innerSlot (keyEntry : Entry) : Reading Slot :=
  match keyEntry.shape with
  | .each slot => pure slot
  | _ => Reading.allocate keyEntry.forValue

/-- The slot that a shape has for all names, or that of a new entry. -/
def Shape.slotOr (shape : Shape) (fresh : Entry) : Reading Slot :=
  match shape with
  | .each slot => pure slot
  | _ => Reading.allocate fresh

theorem Page.itemSlot_eq (e : Entry) : Page.itemSlot e = e.shape.slotOr { shape := e.shape } := by
  rw [itemSlot]
  cases e.shape <;> rfl

theorem Entry.innerSlot_eq (e : Entry) : e.innerSlot = e.shape.slotOr e.forValue := by
  rw [innerSlot]
  cases e.shape <;> rfl

/-- The slot for a value; a name gets a new one if it is found by what the mapping refers to. -/
def Listing.referringSlot (listing : Listing) (key : String) (slot : Slot) : Reading Slot :=
  match listing.reference with
  | none => pure slot
  | some reference => do
    let entry ← Reading.entry slot
    if key == "name" && entry.indexKey.isNone then
      Reading.allocate { entry with indexKey := some (.constant reference) }
    else return slot

theorem Page.valueSlot_eq (keySlot : Slot) (listing : Listing) (key : String) :
    Page.valueSlot keySlot listing key = (do
      let keyEntry ← Reading.entry keySlot
      let slot ← keyEntry.innerSlot
      listing.referringSlot key slot) := by
  rw [Page.valueSlot]
  congr 1
  funext keyEntry
  rw [Entry.innerSlot]
  cases keyEntry.shape <;> rfl

theorem Page.pairs_cons (page : Page) (listing : Listing) (seen : List String) (last : Position)
    (tag key : String) (start stop : Yaml.Mark) (value : Yaml.Node) (members : List (Yaml.Node × Yaml.Node)) :
    page.pairs listing seen last ((.scalar tag key start stop, value) :: members) = (do
      let keySlot ← listing.keySlot key
      let (keyOutline, last) ← page.keyBy keySlot tag key start stop last (listing.remark seen key)
      let valueSlot ← Page.valueSlot keySlot listing key
      let (children, last) ← page.node valueSlot last value
      let (others, last) ← page.pairs listing (key :: seen) last members
      return (Page.below keyOutline children ++ others, last)) := by
  rw [Page.pairs, Listing.keySlot]
  cases listing.slot? key <;> rfl

/-! ### Documents -/

/-- The manifest with other outlines. -/
def Manifest.withOutlines (manifest : Manifest) (outlines : List Outline) : Manifest :=
  { manifest with anchor := { manifest.anchor with children := some outlines } }

/-- A document with data has a root on the lines of the file, and depends on the schema by the outlines of the root
only. -/
theorem readEntries_eq_ok {root : Yaml.Node} {entries : Entries} {manifest : Manifest} {next : Position}
    (h : (readEntries file kinds state document root entries).runFrom S = (.ok (manifest, next), T)) :
    ∃ (page : Page) (slot : Slot) (outlines : List Outline),
      page = ⟨file.lines.map String.toList, root.start.position⟩ ∧
      kindSlot kinds (entries.get? "kind") = .ok slot ∧
      (page.root slot state.last root).runFrom S = (.ok (outlines, next), T) ∧
      manifest.anchor.children = some outlines ∧ manifest.anchor.absolute = page.anchor ∧
      ∀ U, (readEntries file kinds state document root entries).runFrom U =
        match (page.root slot state.last root).runFrom U with
        | (.ok found, V) => (.ok (manifest.withOutlines found.1, found.2), V)
        | (.error fault, V) => (.error fault, V) := by
  rw [readEntries] at h
  obtain ⟨slot, _, hslot, h⟩ := Reading.runFrom_bind_eq_ok_iff.1 h
  obtain ⟨name, _, hname, h⟩ := Reading.runFrom_bind_eq_ok_iff.1 h
  simp only [Reading.runFrom_ofExcept, Prod.mk.injEq] at hslot hname
  obtain ⟨hslot, rfl⟩ := hslot
  obtain ⟨hname, rfl⟩ := hname
  cases circular : document.circular with
  | true =>
    rw [circular] at h
    cases h
  | false =>
    rw [circular] at h
    obtain ⟨⟨outlines, last⟩, _, hroot, h⟩ := Reading.runFrom_bind_eq_ok_iff.1 h
    cases h
    refine ⟨_, slot, outlines, rfl, hslot, hroot, rfl, rfl, ?_⟩
    intro U
    rw [readEntries, Reading.runFrom_bind, Reading.runFrom_ofExcept, hslot]
    dsimp only
    rw [Reading.runFrom_bind, Reading.runFrom_ofExcept, hname, circular]
    show (Page.root _ slot state.last root >>= fun found => _).runFrom U = _
    rw [Reading.runFrom_bind]
    rcases (Page.root _ slot state.last root).runFrom U with ⟨_ | found, V⟩ <;> rfl

/-- A manifest has the version of its root and the entries of its document, and it is found by its kind and name. -/
theorem readEntries_made {root : Yaml.Node} {entries : Entries} {manifest : Manifest} {next : Position}
    (h : (readEntries file kinds state document root entries).runFrom S = (.ok (manifest, next), T)) :
    manifest.version = versionOf file.lines root ∧ manifest.entries = entries ∧
      ∃ name, metadataName entries = .ok name ∧
        manifest.anchor.key = some (anchorKey (entries.get? "kind") name state.count) := by
  rw [readEntries] at h
  obtain ⟨slot, _, _, h⟩ := Reading.runFrom_bind_eq_ok_iff.1 h
  obtain ⟨name, _, hname, h⟩ := Reading.runFrom_bind_eq_ok_iff.1 h
  simp only [Reading.runFrom_ofExcept, Prod.mk.injEq] at hname
  cases circular : document.circular with
  | true =>
    rw [circular] at h
    cases h
  | false =>
    rw [circular] at h
    obtain ⟨_, _, _, h⟩ := Reading.runFrom_bind_eq_ok_iff.1 h
    cases h
    exact ⟨rfl, rfl, name, hname.1, rfl⟩

/-- A document either holds no data, or it gives a manifest, and depends on the schema by the outlines of its root
only. -/
theorem readDocument_eq_ok {next : FileReading} {manifest : Option Manifest}
    (h : (readDocument file kinds state document).runFrom S = (.ok (manifest, next), T)) :
    (manifest = none ∧ next.last = state.last ∧ T = S) ∨
    ∃ root entries m, Yaml.valueOf file.text.toList document.root = .ok (root, .map entries) ∧ manifest = some m ∧
      next.count = state.count + 1 ∧
      (readEntries file kinds state document root entries).runFrom S = (.ok (m, next.last), T) ∧
      ∀ U, (readDocument file kinds state document).runFrom U =
        match (readEntries file kinds state document root entries).runFrom U with
        | (.ok found, V) => (.ok (some found.1, ⟨state.count + 1, found.2⟩), V)
        | (.error fault, V) => (.error fault, V) := by
  rw [readDocument] at h
  obtain ⟨⟨root, value⟩, _, hvalue, h⟩ := Reading.runFrom_bind_eq_ok_iff.1 h
  simp only [Reading.runFrom_ofExcept, Prod.mk.injEq] at hvalue
  obtain ⟨hvalue, rfl⟩ := hvalue
  dsimp only at h
  cases truthy : value.truthy with
  | false =>
    rw [truthy] at h
    cases h
    exact .inl ⟨rfl, rfl, rfl⟩
  | true =>
    rw [truthy] at h
    cases value with
    | map entries =>
      obtain ⟨⟨m, last⟩, _, hm, h⟩ := Reading.runFrom_bind_eq_ok_iff.1 h
      cases h
      refine .inr ⟨root, entries, m, hvalue, rfl, rfl, hm, ?_⟩
      intro U
      rw [readDocument, Reading.runFrom_bind, Reading.runFrom_ofExcept, hvalue]
      dsimp only
      rw [truthy]
      show (readEntries file kinds state document root entries >>= fun found => _).runFrom U = _
      rw [Reading.runFrom_bind]
      rcases (readEntries file kinds state document root entries).runFrom U with ⟨_ | found, V⟩ <;> rfl
    | _ => cases h

theorem run_readDocuments_cons (file : SourceFile) (kinds : List (String × Slot)) (state : FileReading)
    (ending : ManifestEnding) (document : Yaml.Document) (rest : List Yaml.Document) (S : Schema) :
    (readDocuments file kinds state ending (document :: rest)).run S =
      match (readDocument file kinds state document).runFrom S with
      | (.error fault, T) => (⟨[], .within fault⟩, T)
      | (.ok (manifest, next), T) =>
        (⟨manifest :: ((readDocuments file kinds next ending rest).run T).1.documents,
          ((readDocuments file kinds next ending rest).run T).1.ending⟩,
          ((readDocuments file kinds next ending rest).run T).2) := by
  rw [readDocuments, StateT.run_bind]
  cases h : (readDocument file kinds state document).runFrom S with
  | mk result T =>
    have run : (readDocument file kinds state document).run.run S = (result, T) := h
    rw [run]
    cases result <;> rfl

end ManifestLens
