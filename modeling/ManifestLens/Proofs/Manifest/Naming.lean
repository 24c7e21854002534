import ManifestLens.Proofs.Manifest.Independence
import ManifestLens.Proofs.Manifest.Quiet

/-!
# Names of documents

A document of a kind of resources is defined by the name in its metadata, which is the only part of it that has a name
in the index that reads as a definition (`Reads.definitionsIn_root`).  A name on one or two lines gives one such entry,
one on more lines gives one for each of its lines.
-/

namespace ManifestLens

open Yaml (Mark Node)
open KeyPattern (readsAsDefinition)

variable {at_ inner metadataSlot nameSlot other slot : Slot} {key resource tag text : String} {B S T : Schema}
  {depth : Nat} {start stop : Mark} {n value : Node}

/-! ### Fields of mappings -/

/-- The values of the pairs with the given key. -/
def nodesAt (key : String) (pairs : List (Node × Node)) : List Node :=
  (pairs.filter fun p => p.1.content.isText key).map (·.2)

/-- The values of the given key in a mapping. -/
def Yaml.Node.fieldsAt (key : String) : Node → List Node
  | .mapping _ pairs _ _ => nodesAt key pairs
  | _ => []

theorem nodesAt_cons_of_eq {rest : List (Node × Node)} :
    nodesAt key ((.scalar tag key start stop, value) :: rest) = value :: nodesAt key rest := by
  simp [nodesAt, Node.content, Yaml.Content.isText]

theorem nodesAt_cons_of_ne {rest : List (Node × Node)} (ne : text ≠ key) :
    nodesAt key ((.scalar tag text start stop, value) :: rest) = nodesAt key rest := by
  simp [nodesAt, Node.content, Yaml.Content.isText, ne]

/-! ### Entries that lead to a definition -/

/-- The same entry after the schema has grown: it may have got a kind if it had none. -/
structure Entry.Kept (e e' : Entry) : Prop where
  rest : e' = { e with kind := e'.kind }
  kind : e.kind ≠ .unset → e'.kind = e.kind

private theorem Entry.Kept.refl (e : Entry) : e.Kept e :=
  ⟨rfl, fun _ => rfl⟩

private theorem Entry.Kept.isQuiet {e e' : Entry} (h : e.Kept e') : e'.isQuiet = e.isQuiet := by
  rw [h.rest]
  rfl

private theorem Schema.Grows.kept (grown : S.Grows T) (lt : slot < S.size) : (S.entry slot).Kept (T.entry slot) :=
  ⟨grown.entry_eq lt, grown.kind_eq lt⟩

namespace Schema

/-- The entry with which the value of a key is read. -/
def valueEntry (S : Schema) (slot : Slot) : Entry :=
  match (S.entry slot).shape with
  | .each inner => S.entry inner
  | _ => (S.entry slot).forValue

/-- Of the fields that an entry lists, only the given one, which is read with the given slot, is not quiet. -/
structure Leads (S : Schema) (e : Entry) (key : String) (slot : Slot) : Prop where
  named : key ≠ anyName
  refers : e.refers = false
  found : e.shape.members.lookup key = some slot
  lt : slot < S.size
  quiet : (S.entry slot).isQuiet = true
  others : ∀ p ∈ e.shape.members, p.1 ≠ key → S.Quiet p.2

/-- The entry in the slot is for manifests that define resources of a kind by the name in their metadata. -/
structure Defines (S : Schema) (slot metadataSlot nameSlot : Slot) (resource : String) : Prop where
  lt : slot < S.size
  metadata : S.Leads (S.entry slot) "metadata" metadataSlot
  quiet : (S.valueEntry metadataSlot).isQuiet = true
  name : S.Leads (S.valueEntry metadataSlot) "name" nameSlot
  rule : (S.valueEntry nameSlot).indexKey = some (.around (resource ++ ":") ":def")
  kind : (S.valueEntry nameSlot).kind ≠ .unset
  notText : (S.valueEntry nameSlot).kind ≠ .string

end Schema

/-- The value of a key in a schema that has grown is read with the entry that it had before. -/
private theorem kept_valueSlot (sound : ∀ s < B.size, (B.entry s).Sound B) (grown : B.Grows S) (lt : slot < B.size)
    {listing : Listing} (refers : listing.reference = none)
    (placed : (Page.valueSlot slot listing key).runFrom S = (.ok inner, T)) :
    (B.valueEntry slot).Kept (T.entry inner) := by
  have shape : (S.entry slot).shape = (B.entry slot).shape := by rw [grown.entry_eq lt]
  have value : (S.entry slot).forValue = (B.entry slot).forValue := by
    rw [grown.entry_eq lt]
    rfl
  rw [Page.valueSlot_eq] at placed
  obtain ⟨entry, _, here, placed⟩ := Reading.runFrom_bind_eq_ok_iff.1 placed
  cases here
  obtain ⟨middle, U, first, placed⟩ := Reading.runFrom_bind_eq_ok_iff.1 placed
  rw [Listing.referringSlot, refers] at placed
  cases placed
  rw [Entry.innerSlot, shape, value] at first
  unfold Schema.valueEntry
  cases each : (B.entry slot).shape with
  | each s =>
    rw [each] at first
    cases first
    exact grown.kept ((sound slot lt).each_lt each)
  | _ =>
    rw [each] at first
    cases first
    rw [Schema.entry_push, if_pos rfl]
    exact .refl _

/-- The names under which a manifest with a name between the marks defines a resource. -/
def definitionsOf (resource name : String) (start stop : Mark) : List String :=
  (List.replicate (nameCopies start stop) (definitionKey resource name)).filter readsAsDefinition

namespace Reads

variable {page : Page} {last : Position} {pieces : List Piece} {found : Outlined}

/-- The names of pairs that read as definitions are those of the values of the field that leads to them. -/
private theorem definitionsIn_pairs (sound : ∀ s < B.size, (B.entry s).Sound B) {e : Entry} (leads : B.Leads e key slot)
    (names : Node → List String) {listing : Listing} {seen : List String} {members : List (Node × Node)}
    (grown : B.Grows S) (listed : listing.members = e.shape.members) (refers : listing.reference = none)
    (plain : pairsReferPlainly members = true) (h : Reads page (.pairs listing seen members) S last pieces found T)
    (values : ∀ n ∈ nodesAt key members, ∀ {U V : Schema} {inner : Slot} {last : Position} {pieces : List Piece}
      {found : Outlined}, B.Grows U → (B.valueEntry slot).Kept (U.entry inner) → n.refersPlainly = true →
        Reads page (.node inner n) U last pieces found V → definitionsIn pieces = names n) :
    definitionsIn pieces = (nodesAt key members).flatMap names := by
  induction members generalizing seen S last pieces found T with
  | nil =>
    cases h
    rfl
  | cons pair members ih =>
    cases h with
    | @pair S T₁ U V W listing seen tag text start stop value members keySlot valueSlot r last mid next final outlines
        children rest pieces others placed read made valuePlaced node pairs =>
    rw [pairsReferPlainly, Bool.and_eq_true, Bool.and_eq_true] at plain
    have valueGrown := (grows_key read).trans ((Page.growing_valueSlot _ _ _).grows valuePlaced)
    have grownKey := grown.trans ((Page.growing_keySlot _ _).grows placed)
    have grownValue := grownKey.trans valueGrown
    have rest := ih (grownValue.trans node.grows) plain.2 pairs
    rw [List.cons_append, definitionsIn_cons, definitionsIn_append]
    by_cases here : text = key
    · subst here
      have slot_eq : keySlot = slot ∧ T₁ = S := by
        rcases Listing.keySlot_cases placed with ⟨found, same⟩ | ⟨none, _⟩
        · rw [listed, leads.found] at found
          exact ⟨(Option.some.inj found).symm, same⟩
        · rw [listed, leads.found] at none
          cases none
      obtain ⟨rfl, rfl⟩ := slot_eq
      have quiet : (T₁.entry keySlot).isQuiet = true := (grown.kept leads.lt).isQuiet.trans leads.quiet
      rw [nodesAt_cons_of_eq] at values ⊢
      obtain ⟨value, others⟩ := List.forall_mem_cons.1 values
      have kept := kept_valueSlot sound (grown.trans (grows_key read)) leads.lt refers valuePlaced
      rw [definitionsIn_key read made (Nat.lt_of_lt_of_le leads.lt grown.size) quiet plain.1.1,
        value grownValue kept plain.1.2 node, rest others, List.flatMap_cons, List.nil_append]
    · have quiet : T₁.Quiet keySlot := by
        rcases Listing.keySlot_cases placed with ⟨found, rfl⟩ | ⟨_, ⟨found, rfl⟩ | ⟨rfl, rfl⟩⟩
        · rw [listed] at found
          exact (leads.others _ (mem_of_lookup found) here).grow grown
        · rw [listed] at found
          exact (leads.others _ (mem_of_lookup found) (Ne.symm leads.named)).grow grown
        · exact .push rfl fun _ mem => absurd mem List.not_mem_nil
      rw [nodesAt_cons_of_ne here] at values ⊢
      have noReference : ∀ key, listing.reference = some key → readsAsDefinition key = false := by
        intro _ named
        rw [refers] at named
        cases named
      rw [definitionsIn_key read made quiet.lt quiet.isQuiet plain.1.1,
        node.quiet ⟨(quiet.grow (grows_key read)).valueSlot noReference valuePlaced, plain.1.2⟩, rest values]
      rfl

/-- A mapping that is read with an entry that leads to definitions by one of its fields, and has that field once. -/
private theorem definitionsIn_field (sound : ∀ s < B.size, (B.entry s).Sound B) {e : Entry} (leads : B.Leads e key slot)
    (grown : B.Grows S) (kept : e.Kept (S.entry at_)) (plain : n.refersPlainly = true) (one : n.fieldsAt key = [value])
    {names : List String} (h : Reads page (.root at_ n) S last pieces found T)
    (read : ∀ {U V : Schema} {inner : Slot} {last : Position} {pieces : List Piece} {found : Outlined},
      B.Grows U → (B.valueEntry slot).Kept (U.entry inner) → value.refersPlainly = true →
        Reads page (.node inner value) U last pieces found V → definitionsIn pieces = names) :
    definitionsIn pieces = names := by
  cases n with
  | mapping _ members _ _ =>
    rw [Node.refersPlainly, Bool.and_eq_true] at plain
    have all : nodesAt key members = [value] := one
    cases h with
    | mapping listed pairs =>
      have refers : (S.entry at_).refers = false := by
        rw [kept.rest]
        exact leads.refers
      have shape : (S.entry at_).shape = e.shape := by rw [kept.rest]
      rw [Entry.listing, refers] at listed
      cases listed
      have values := definitionsIn_pairs sound leads (fun _ => names) grown (congrArg Shape.members shape) rfl plain.1
        pairs
      rw [all, List.forall_mem_singleton, List.flatMap_singleton] at values
      exact values read
  | _ => cases one

/-- The block around a node that is read with a quiet entry does not read as a definition. -/
private theorem definitionsIn_node (h : Reads page (.node slot n) S last pieces found T)
    (quiet : (S.entry slot).isQuiet = true) (plain : n.refersPlainly = true) :
    ∃ inside found, Reads page (.root slot n) S last inside found T ∧ definitionsIn pieces = definitionsIn inside := by
  cases h with
  | bare _ root => exact ⟨pieces, found, root, rfl⟩
  | enclosed _ _ indexRule root =>
    refine ⟨_, _, root, ?_⟩
    rw [definitionsIn_cons, definitionsIn_block quiet plain indexRule, List.nil_append]

/-- The name of a manifest that defines a resource. -/
private theorem definitionsIn_name (rule : (S.entry slot).indexKey = some (.around (resource ++ ":") ":def"))
    (set : (S.entry slot).kind ≠ .unset) (notText : (S.entry slot).kind ≠ .string)
    (h : Reads page (.node slot (.scalar tag text start stop)) S last pieces found T) :
    definitionsIn pieces = definitionsOf resource text start stop := by
  cases h with
  | enclosed encloses => cases encloses
  | bare _ root =>
    cases root with
    | @scalar _ _ _ _ _ _ _ r found read made =>
      have kind : r.entry.kind = (S.entry slot).kind := by
        rw [read]
        exact if_neg fun h => set (beq_iff_eq.1 h)
      have plain : r.isExpression = false := by
        rw [ScalarReading.isExpression, kind, beq_eq_false_iff_ne.2 notText, Bool.false_and]
      have ruled : ruledKey r.entry.indexKey (.text r.text) = .ok (some (definitionKey resource text)) := by
        have rule' : r.entry.indexKey = (S.entry slot).indexKey := by
          rw [read]
          rfl
        rw [rule', rule, read]
        rfl
      have named : Outline.named (some (definitionKey resource text)) = some (definitionKey resource text) := by
        simp [Outline.named, definitionKey]
      have names : Outline.names found.1 = List.replicate (nameCopies start stop) (definitionKey resource text) := by
        rcases ScalarReading.names_eq made with ⟨expression, _⟩ | ⟨_, key, ruled', names⟩
        · rw [plain] at expression
          cases expression
        · cases ruled.symm.trans ruled'
          rw [names, List.filterMap_replicate_of_some named, read]
      rw [definitionsIn, List.flatMap_singleton, definitionsOf, ← names]
      rfl

/-- The only name that reads as a definition in a document of a kind of resources is that in its metadata. -/
theorem definitionsIn_root (sound : ∀ s < B.size, (B.entry s).Sound B)
    (defines : B.Defines slot metadataSlot nameSlot resource) (grown : B.Grows S) {root metadata : Node}
    (plain : root.refersPlainly = true) (one : root.fieldsAt "metadata" = [metadata])
    (name : metadata.fieldsAt "name" = [.scalar tag text start stop])
    (h : Reads page (.root slot root) S last pieces found T) :
    definitionsIn pieces = definitionsOf resource text start stop := by
  refine h.definitionsIn_field sound defines.metadata grown (grown.kept defines.lt) plain one ?_
  intro U V inner last pieces found grown kept plain node
  obtain ⟨inside, _, root, same⟩ := node.definitionsIn_node (kept.isQuiet.trans defines.quiet) plain
  rw [same]
  refine root.definitionsIn_field sound defines.name grown kept plain name ?_
  intro U V inner last pieces found grown kept plain node
  refine node.definitionsIn_name ?_ ?_ ?_
  · rw [kept.rest]
    exact defines.rule
  · rw [kept.kind defines.kind]
    exact defines.kind
  · rw [kept.kind defines.kind]
    exact defines.notText

end Reads

/-! ### The schema of resources -/

namespace Schema

/-- The search for an entry that is not quiet finds none. -/
def isQuietWithin (S : Schema) : (depth : Nat) → Slot → Bool
  | 0, _ => false
  | depth + 1, slot =>
    decide (slot < S.size) && (S.entry slot).isQuiet &&
      (S.entry slot).shape.members.all fun p => S.isQuietWithin depth p.2

private theorem quiet_of_isQuietWithin (h : S.isQuietWithin depth slot = true) : S.Quiet slot := by
  induction depth generalizing slot with
  | zero => cases h
  | succ depth ih =>
    rw [isQuietWithin, Bool.and_eq_true, Bool.and_eq_true, decide_eq_true_eq, List.all_eq_true] at h
    exact .intro h.1.1 h.1.2 fun p mem => ih (h.2 p mem)

/-- The search finds that only one field of the entry is not quiet. -/
def leadsWithin (S : Schema) (depth : Nat) (e : Entry) (key : String) (slot : Slot) : Bool :=
  key != anyName && !e.refers && e.shape.members.lookup key == some slot && decide (slot < S.size) &&
    (S.entry slot).isQuiet && e.shape.members.all fun p => p.1 == key || S.isQuietWithin depth p.2

private theorem leads_of_leadsWithin {e : Entry} (h : S.leadsWithin depth e key slot = true) : S.Leads e key slot := by
  simp only [leadsWithin, Bool.and_eq_true, bne_iff_ne, Bool.not_eq_true', beq_iff_eq, decide_eq_true_eq,
    List.all_eq_true, Bool.or_eq_true] at h
  obtain ⟨⟨⟨⟨⟨named, refers⟩, found⟩, lt⟩, quiet⟩, others⟩ := h
  exact ⟨named, refers, found, lt, quiet, fun p mem ne => quiet_of_isQuietWithin ((others p mem).resolve_left ne)⟩

/-- The search finds that manifests which are read with the slot define resources of the kind. -/
def definesWithin (S : Schema) (depth : Nat) (slot : Slot) (resource : String) : Bool :=
  let metadataSlot := ((S.entry slot).shape.members.lookup "metadata").getD 0
  let nameSlot := ((S.valueEntry metadataSlot).shape.members.lookup "name").getD 0
  let name := S.valueEntry nameSlot
  decide (slot < S.size) && S.leadsWithin depth (S.entry slot) "metadata" metadataSlot &&
    (S.valueEntry metadataSlot).isQuiet && S.leadsWithin depth (S.valueEntry metadataSlot) "name" nameSlot &&
    decide (name.indexKey = some (.around (resource ++ ":") ":def") ∧ name.kind ≠ .unset ∧ name.kind ≠ .string)

private theorem defines_of_definesWithin (h : S.definesWithin depth slot resource = true) :
    ∃ metadataSlot nameSlot, S.Defines slot metadataSlot nameSlot resource := by
  simp only [definesWithin, Bool.and_eq_true, decide_eq_true_eq] at h
  obtain ⟨⟨⟨⟨lt, metadata⟩, quiet⟩, name⟩, rule, kind, notText⟩ := h
  exact ⟨_, _, lt, leads_of_leadsWithin metadata, quiet, leads_of_leadsWithin name, rule, kind, notText⟩

end Schema

/-- A kind has the slot of its name, or the one for all kinds that are not listed. -/
theorem kindSlot_eq_ok {kinds : List (String × Slot)} {kind : Option Value} (any : kinds.lookup anyName = some other)
    (h : kindSlot kinds kind = .ok slot) :
    (∃ name, kind = some (.str name) ∧ kinds.lookup name = some slot) ∨
      slot = other ∧ ∀ name, kind = some (.str name) → kinds.lookup name = none := by
  unfold kindSlot at h
  dsimp only at h
  rw [any, Option.getD_some] at h
  split at h
  · cases h
    exact .inr ⟨rfl, fun _ isName => by cases isName⟩
  · next name =>
    cases h
    cases found : kinds.lookup name with
    | some slot => exact .inl ⟨name, rfl, found⟩
    | none =>
      refine .inr ⟨rfl, ?_⟩
      rintro _ ⟨⟩
      exact found
  · next notText =>
    split at h
    · cases h
      refine .inr ⟨rfl, ?_⟩
      rintro name ⟨⟩
      exact absurd rfl (notText name)
    · cases h

namespace ResourceSchema

/-- The kinds of the schema are those of resources, and one that stands for all others. -/
def searchesKinds (R : ResourceSchema) (depth : Nat) : Bool :=
  (R.kinds.all fun p => if p.1 = anyName then R.schema.isQuietWithin depth p.2
    else resourceKinds.contains p.1 && R.schema.definesWithin depth p.2 p.1) &&
  (anyName :: resourceKinds).all fun kind => (R.kinds.lookup kind).isSome

private theorem kind_of_lookup {R : ResourceSchema} (search : R.searchesKinds depth = true) {kind : String}
    (found : R.kinds.lookup kind = some slot) :
    kind = anyName ∧ R.schema.Quiet slot ∨ kind ∈ resourceKinds ∧
      ∃ metadataSlot nameSlot, R.schema.Defines slot metadataSlot nameSlot kind := by
  rw [searchesKinds, Bool.and_eq_true, List.all_eq_true] at search
  have here := search.1 _ (mem_of_lookup found)
  split at here
  · next any => exact .inl ⟨any, Schema.quiet_of_isQuietWithin here⟩
  · rw [Bool.and_eq_true, List.contains_iff_mem] at here
    exact .inr ⟨here.1, Schema.defines_of_definesWithin here.2⟩

/-- A manifest of a kind of resources defines one, and a manifest of any other kind defines none. -/
theorem kindSlot_cases {R : ResourceSchema} (search : R.searchesKinds depth = true) {kind : Option Value}
    (h : kindSlot R.kinds kind = .ok slot) :
    (∃ resource ∈ resourceKinds, kind = some (.str resource) ∧
      ∃ metadataSlot nameSlot, R.schema.Defines slot metadataSlot nameSlot resource) ∨
    (∀ resource ∈ resourceKinds, kind ≠ some (.str resource)) ∧ R.schema.Quiet slot := by
  have notAny : anyName ∉ resourceKinds := by decide
  have listed : ∀ kind ∈ anyName :: resourceKinds, (R.kinds.lookup kind).isSome = true := by
    rw [searchesKinds, Bool.and_eq_true] at search
    exact List.all_eq_true.1 search.2
  obtain ⟨other, found⟩ := Option.isSome_iff_exists.1 (listed anyName List.mem_cons_self)
  have quiet : R.schema.Quiet other := by
    rcases kind_of_lookup search found with ⟨_, quiet⟩ | ⟨mem, _⟩
    · exact quiet
    · exact absurd mem notAny
  rcases kindSlot_eq_ok found h with ⟨kind, rfl, here⟩ | ⟨rfl, unlisted⟩
  · rcases kind_of_lookup search here with ⟨rfl, quiet⟩ | ⟨mem, defines⟩
    · refine .inr ⟨?_, quiet⟩
      rintro _ mem ⟨⟩
      exact notAny mem
    · exact .inl ⟨kind, mem, rfl, defines⟩
  · refine .inr ⟨fun kind mem isKind => ?_, quiet⟩
    have there := listed kind (List.mem_cons_of_mem _ mem)
    rw [unlisted kind isKind] at there
    cases there

set_option maxRecDepth 10000 in
theorem searchesKinds_initial : initial.searchesKinds 12 = true := by
  decide +kernel

end ResourceSchema

end ManifestLens
