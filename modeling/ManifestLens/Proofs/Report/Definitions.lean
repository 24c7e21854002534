import ManifestLens.Proofs.Manifest.Naming
import ManifestLens.Proofs.Report.Broken
import ManifestLens.Proofs.Report.Entries

/-!
# Definitions in the index

The entries of files that read as definitions are those of the names of their documents, once for a name on one or two
lines (`FileReport.definitions_ofFiles`).  So, if no two documents have the same kind and name, then a resource counts
as defined more than once exactly if its name, without line feeds, is on more lines (`Index.duplicates_ofFiles_iff`).
-/

namespace ManifestLens

open Yaml (Mark Node)
open KeyPattern (readsAsDefinition)

variable {S T : Schema} {d : Node × Entries} {document : Yaml.Document} {r : FileReport} {services : Services}
  {state : FileReading} {store : Store}

/-! ### Documents -/

/-- The name of a document, with its kind and the place where the name stands. -/
structure Naming where
  kind : Option Value
  text : String
  start : Mark
  stop : Mark

namespace Naming

/-- The name of a document with the given root and data: it has one `metadata`, in which is one `name`, and that is a
scalar. -/
def of? (d : Node × Entries) : Option Naming :=
  match d.1.fieldsAt "metadata" with
  | [metadata] =>
    match metadata.fieldsAt "name" with
    | [.scalar _ text start stop] => some ⟨d.2.get? "kind", text, start, stop⟩
    | _ => none
  | _ => none

private theorem of?_eq_some {naming : Naming} (h : of? d = some naming) :
    naming.kind = d.2.get? "kind" ∧ ∃ metadata tag, d.1.fieldsAt "metadata" = [metadata] ∧
      metadata.fieldsAt "name" = [.scalar tag naming.text naming.start naming.stop] := by
  unfold of? at h
  split at h
  · next metadata one =>
    split at h
    · next tag text start stop name =>
      cases h
      exact ⟨rfl, metadata, tag, one, name⟩
    · cases h
  · cases h

/-- The names under which the document defines a resource. -/
def definitions (n : Naming) : List String :=
  match n.kind with
  | some (.str resource) =>
    if resource ∈ resourceKinds then definitionsOf resource n.text n.start n.stop else []
  | _ => []

private theorem definitions_of_resource {n : Naming} {resource : String} (mem : resource ∈ resourceKinds)
    (kind : n.kind = some (.str resource)) : n.definitions = definitionsOf resource n.text n.start n.stop := by
  rw [definitions, kind]
  exact if_pos mem

private theorem definitions_of_other {n : Naming} (other : ∀ resource ∈ resourceKinds, n.kind ≠ some (.str resource)) :
    n.definitions = [] := by
  unfold definitions
  split
  · next resource kind => exact if_neg fun mem => other resource mem kind
  · rfl

end Naming

/-- The root and the data of a document, if it holds data. -/
def dataOf? (file : SourceFile) (document : Yaml.Document) : Option (Node × Entries) :=
  match Yaml.valueOf file.text.toList document.root with
  | .ok (root, .map entries) => if (Value.map entries).truthy then some (root, entries) else none
  | _ => none

/-- Neither the anchor nor a reference of the document reads as a definition. -/
structure ReadsPlainly (d : Node × Entries) : Prop where
  references : d.1.refersPlainly = true
  anchor : ∀ name count, metadataName d.2 = .ok name →
    readsAsDefinition (anchorKey (d.2.get? "kind") name count) = false

/-- A document that holds data gives a manifest, and any other gives none. -/
private theorem readDocument_cases {file : SourceFile} {kinds : List (String × Slot)} {next : FileReading}
    {manifest : Option Manifest} (h : (readDocument file kinds state document).runFrom S = (.ok (manifest, next), T)) :
    dataOf? file document = none ∧ manifest = none ∨
    ∃ root entries m, dataOf? file document = some (root, entries) ∧ manifest = some m ∧
      (readEntries file kinds state document root entries).runFrom S = (.ok (m, next.last), T) := by
  rw [readDocument] at h
  obtain ⟨⟨root, value⟩, _, hvalue, h⟩ := Reading.runFrom_bind_eq_ok_iff.1 h
  simp only [Reading.runFrom_ofExcept, Prod.mk.injEq] at hvalue
  obtain ⟨hvalue, rfl⟩ := hvalue
  rw [dataOf?, hvalue]
  dsimp only at h
  cases truthy : value.truthy with
  | false =>
    rw [truthy] at h
    cases h
    left
    refine ⟨?_, rfl⟩
    split
    · next entries same =>
      cases same
      rw [truthy]
      rfl
    · rfl
  | true =>
    rw [truthy] at h
    cases value with
    | map entries =>
      obtain ⟨⟨m, last⟩, _, hm, h⟩ := Reading.runFrom_bind_eq_ok_iff.1 h
      cases h
      exact .inr ⟨root, entries, m, if_pos truthy, rfl, hm⟩
    | _ => cases h

private theorem not_ofSyntax_of_readDocument {file : SourceFile} {kinds : List (String × Slot)} {f : Fault}
    (h : (readDocument file kinds state document).runFrom S = (.error f, T)) : f.ofSyntax = false := by
  obtain ⟨n, within⟩ := document.root.exists_isWithin
  have same : file.lines.take n = file.lines.take n := rfl
  have alike := (alikeRuns_readDocument same kinds state (within n (Nat.le_refl n))).results S
  rw [h] at alike
  cases alike with
  | error syntactic _ => exact syntactic

/-- The names of a manifest in the index that read as definitions are those of its naming. -/
private theorem definitions_readEntries {file : SourceFile} {root : Node} {entries : Entries} {manifest : Manifest}
    {next : Position} {naming : Naming} (grown : ResourceSchema.initial.schema.Grows S)
    (named : Naming.of? (root, entries) = some naming) (plain : ReadsPlainly (root, entries))
    (h : (readEntries file ResourceSchema.initial.kinds state document root entries).runFrom S =
      (.ok (manifest, next), T)) :
    ((manifest.anchor.outline.keyRanges none).map Prod.fst).filter readsAsDefinition = naming.definitions := by
  obtain ⟨_, _, name, metadata, key⟩ := readEntries_made h
  obtain ⟨page, slot, outlines, _, kind, run, children, _⟩ := readEntries_eq_ok h
  obtain ⟨pieces, reads⟩ := exists_reads_root root run
  have anchor : (Outline.named manifest.anchor.key).toList.filter readsAsDefinition = [] := by
    rw [List.filter_eq_nil_iff]
    intro found mem
    obtain ⟨same, _⟩ := Option.filter_eq_some_iff.1 (Option.mem_toList.1 mem)
    rw [key, Option.some.injEq] at same
    rw [← same, plain.anchor name state.count metadata]
    exact Bool.false_ne_true
  have names : Outline.names outlines = pieces.flatMap Piece.names := by
    rw [Outline.names, reads.preorderAll_eq, List.filterMap_flatMap]
    rfl
  obtain ⟨sameKind, inside, tag, one, scalar⟩ := Naming.of?_eq_some named
  rw [Outline.map_fst_keyRanges_outline children, List.filter_append, anchor, names, List.nil_append]
  rcases ResourceSchema.kindSlot_cases ResourceSchema.searchesKinds_initial kind with
    ⟨resource, mem, found, _, _, defines⟩ | ⟨other, quiet⟩
  · rw [Naming.definitions_of_resource mem (sameKind.trans found)]
    exact reads.definitionsIn_root ResourceSchema.sound_initial.entry defines grown plain.references one scalar
  · rw [Naming.definitions_of_other (sameKind ▸ other)]
    exact reads.quiet ⟨quiet.grow grown, plain.references⟩

/-! ### Files -/

/-- The documents of a file that hold data, by their roots and data. -/
def SourceFile.data (file : SourceFile) : List (Node × Entries) :=
  (Yaml.DocumentStream.ofText file.text.toList).documents.filterMap (dataOf? file)

/-- Each of the documents has a name, and neither its anchor nor a reference in it reads as a definition. -/
def AllNamed (documents : List (Node × Entries)) : Prop :=
  ∀ d ∈ documents, (Naming.of? d).isSome = true ∧ ReadsPlainly d

/-- The names of documents. -/
def namingsOf (documents : List (Node × Entries)) : List Naming :=
  documents.filterMap Naming.of?

namespace FileReport

/-- The names in a report that read as definitions. -/
def definitions (r : FileReport) : List String :=
  (r.index.map (·.name)).filter readsAsDefinition

private theorem definitions_append (a b : FileReport) : (a.append b).definitions = a.definitions ++ b.definitions := by
  rw [definitions, append, List.map_append, List.filter_append]
  rfl

private theorem definitions_ofManifest {uri : String} {lines : List String} {manifest : Manifest} {cache cache' : Cache}
    (h : ofManifest services uri lines manifest cache = .ok (r, cache')) :
    r.definitions = ((manifest.anchor.outline.keyRanges none).map Prod.fst).filter readsAsDefinition := by
  rw [definitions, index_ofManifest h, Block.index, List.map_map]
  rfl

private theorem except_map_eq_ok {ε α β : Type} {x : Except ε α} {f : α → β} {b : β} (h : x.map f = .ok b) :
    ∃ a, x = .ok a ∧ f a = b := by
  cases x with
  | error => cases h
  | ok a =>
    cases h
    exact ⟨a, rfl, rfl⟩

section

variable {uri : String} {file : SourceFile} {ending : ManifestEnding}

/-- The kinds stay while documents are reported, and the schema grows. -/
private theorem store_ofDocuments (documents : List Yaml.Document) (reading : FileReading) (store : Store) :
    (ofDocuments services uri file ending reading store documents).2.kinds = store.kinds ∧
      store.schema.Grows (ofDocuments services uri file ending reading store documents).2.schema := by
  induction documents generalizing reading store with
  | nil => exact ⟨rfl, .refl _⟩
  | cons document rest ih =>
    have grown := growing_readDocument file store.kinds reading document store.schema
    rcases run : (readDocument file store.kinds reading document).runFrom store.schema with
      ⟨_ | ⟨_ | manifest, next⟩, schema⟩
    all_goals rw [run] at grown
    · rw [ofDocuments_of_fault run]
      exact ⟨rfl, grown⟩
    · rw [ofDocuments_of_noData run]
      obtain ⟨kinds, later⟩ := ih next { store with schema := schema }
      exact ⟨kinds, grown.trans later⟩
    · cases reported : ofManifest services uri file.lines manifest store.cache with
      | error fault =>
        rw [ofDocuments_of_refused run reported]
        exact ⟨rfl, grown⟩
      | ok result =>
        rw [ofDocuments_of_reported run reported]
        obtain ⟨kinds, later⟩ := ih next ⟨store.kinds, schema, result.2⟩
        exact ⟨kinds, grown.trans later⟩

/-- The definitions in the report on documents are those of their names. -/
private theorem definitions_ofDocuments (documents : List Yaml.Document) {reading : FileReading}
    (kinds : store.kinds = ResourceSchema.initial.kinds) (grown : ResourceSchema.initial.schema.Grows store.schema)
    (named : AllNamed (documents.filterMap (dataOf? file)))
    (h : (ofDocuments services uri file ending reading store documents).1 = .ok r) :
    r.definitions = (namingsOf (documents.filterMap (dataOf? file))).flatMap Naming.definitions := by
  induction documents generalizing reading store r with
  | nil =>
    rw [definitions, index_ofEnding h]
    rfl
  | cons document rest ih =>
    have later := grown.trans (growing_readDocument file store.kinds reading document store.schema)
    rcases run : (readDocument file store.kinds reading document).runFrom store.schema with
      ⟨fault | ⟨manifest, next⟩, schema⟩
    all_goals rw [run] at later
    · rw [ofDocuments_of_fault run, ofEnding_of_not_ofSyntax (not_ofSyntax_of_readDocument run)] at h
      cases h
    · rcases readDocument_cases run with ⟨none, rfl⟩ | ⟨root, entries, m, data, rfl, read⟩
      · rw [ofDocuments_of_noData run] at h
        rw [List.filterMap_cons_none none] at named ⊢
        exact ih (show ({ store with schema := schema } : Store).kinds = _ from kinds) later named h
      · cases reported : ofManifest services uri file.lines m store.cache with
        | error fault =>
          rw [ofDocuments_of_refused run reported] at h
          cases h
        | ok result =>
          rw [ofDocuments_of_reported run reported] at h
          obtain ⟨others, done, rfl⟩ := except_map_eq_ok h
          rw [List.filterMap_cons_some data] at named ⊢
          obtain ⟨⟨name, plain⟩, rest⟩ := List.forall_mem_cons.1 named
          obtain ⟨naming, name⟩ := Option.isSome_iff_exists.1 name
          rw [kinds] at read
          have here := (definitions_ofManifest reported).trans (definitions_readEntries grown name plain read)
          have after := ih (show (⟨store.kinds, schema, result.2⟩ : Store).kinds = _ from kinds) later rest done
          rw [definitions_append, here, after, namingsOf, namingsOf, List.filterMap_cons_some name, List.flatMap_cons]

end

private theorem store_ofFile (services : Services) (uri : String) (file : SourceFile) (store : Store) :
    (ofFile services uri file store).2.kinds = store.kinds ∧
      store.schema.Grows (ofFile services uri file store).2.schema :=
  store_ofDocuments ..

private theorem definitions_ofFile {uri : String} {file : SourceFile}
    (kinds : store.kinds = ResourceSchema.initial.kinds) (grown : ResourceSchema.initial.schema.Grows store.schema)
    (named : AllNamed file.data) (h : (ofFile services uri file store).1 = .ok r) :
    r.definitions = (namingsOf file.data).flatMap Naming.definitions :=
  definitions_ofDocuments _ kinds grown named h

/-- The reports on files that are read one after the other. -/
def ofFiles (services : Services) (store : Store) : List (String × SourceFile) → Except Fault (List FileReport)
  | [] => .ok []
  | (uri, file) :: rest =>
    match ofFile services uri file store with
    | (.error fault, _) => .error fault
    | (.ok report, store) => (ofFiles services store rest).map (report :: ·)

/-- The definitions in the reports on files are those of the names of their documents. -/
theorem definitions_ofFiles (files : List (String × SourceFile)) {reports : List FileReport}
    (kinds : store.kinds = ResourceSchema.initial.kinds) (grown : ResourceSchema.initial.schema.Grows store.schema)
    (named : AllNamed (files.flatMap fun f => f.2.data)) (h : ofFiles services store files = .ok reports) :
    reports.flatMap definitions = (namingsOf (files.flatMap fun f => f.2.data)).flatMap Naming.definitions := by
  induction files generalizing store reports with
  | nil =>
    cases h
    rfl
  | cons f files ih =>
    obtain ⟨uri, file⟩ := f
    obtain ⟨sameKinds, later⟩ := store_ofFile services uri file store
    rw [ofFiles] at h
    split at h
    · cases h
    · next report next made =>
      obtain ⟨others, done, rfl⟩ := except_map_eq_ok h
      rw [made] at sameKinds later
      rw [List.flatMap_cons] at named ⊢
      obtain ⟨first, rest⟩ := List.forall_mem_append.1 named
      have here := definitions_ofFile kinds grown first (congrArg Prod.fst made)
      rw [List.flatMap_cons, here, ih (sameKinds.trans kinds) (grown.trans later) rest done, namingsOf, namingsOf,
        namingsOf, List.filterMap_append, List.flatMap_append]

end FileReport

private theorem Store.kinds_initial : Store.initial.kinds = ResourceSchema.initial.kinds := by
  rw [Store.initial]

private theorem Store.schema_initial : Store.initial.schema = ResourceSchema.initial.schema := by
  rw [Store.initial]

/-! ### Resources that are defined more than once -/

theorem Yaml.Node.refersPlainly_of_mem_fieldsAt {n value : Node} {key : String} (plain : n.refersPlainly = true)
    (mem : value ∈ n.fieldsAt key) : value.refersPlainly = true := by
  cases n with
  | mapping _ pairs _ _ =>
    rw [refersPlainly, Bool.and_eq_true] at plain
    obtain ⟨pair, here, rfl⟩ := List.mem_map.1 mem
    exact (pairsReferPlainly_iff.1 plain.1 pair (List.mem_filter.1 here).1).2
  | _ => cases mem

private theorem Naming.templateKey_text {n : Naming} (h : of? d = some n) (plain : ReadsPlainly d) :
    readsAsDefinition (templateKey n.text) = false := by
  obtain ⟨_, metadata, tag, one, name⟩ := of?_eq_some h
  have inside : metadata.refersPlainly = true :=
    Node.refersPlainly_of_mem_fieldsAt plain.references (one ▸ List.mem_singleton_self metadata)
  have scalar := Node.refersPlainly_of_mem_fieldsAt inside (name ▸ List.mem_singleton_self _)
  rwa [Node.refersPlainly, Bool.not_eq_true'] at scalar

namespace Naming

private theorem exists_of_mem_definitions {n : Naming} {key : String} (mem : key ∈ n.definitions) :
    ∃ resource ∈ resourceKinds, n.kind = some (.str resource) ∧ key = definitionKey resource n.text := by
  unfold definitions at mem
  split at mem
  · next resource kind =>
    split at mem
    · next known =>
      exact ⟨resource, known, kind, List.eq_of_mem_replicate (List.mem_filter.1 mem).1⟩
    · cases mem
  · cases mem

private theorem isKind_of_mem {resource : String} (mem : resource ∈ resourceKinds) :
    KeyPattern.isKind resource = true := by
  revert resource
  decide

private theorem disjoint_definitions {a b : Naming} (different : a.kind = b.kind → a.text ≠ b.text) :
    a.definitions.Disjoint b.definitions := by
  intro key inA inB
  obtain ⟨resource, mem, kind, rfl⟩ := exists_of_mem_definitions inA
  obtain ⟨other, mem', kind', same⟩ := exists_of_mem_definitions inB
  obtain ⟨rfl, text⟩ := KeyPattern.definitionKey_inj (isKind_of_mem mem) (isKind_of_mem mem') same
  exact different (kind.trans kind'.symm) text

/-- A resource is defined once if its name is on one or two lines, or has a line feed. -/
private theorem nodup_definitions_iff {n : Naming} (plain : readsAsDefinition (templateKey n.text) = false) :
    n.definitions.Nodup ↔ ((∃ resource ∈ resourceKinds, n.kind = some (.str resource)) → '\n' ∉ n.text.toList →
      n.stop.line ≤ n.start.line + 1) := by
  by_cases ofResource : ∃ resource ∈ resourceKinds, n.kind = some (.str resource)
  · obtain ⟨resource, mem, kind⟩ := ofResource
    have reads := KeyPattern.readsAsDefinition_definitionKey (isKind_of_mem mem) plain
    have copies : nameCopies n.start n.stop ≤ 1 ↔ n.stop.line ≤ n.start.line + 1 := by
      rw [nameCopies]
      split <;> omega
    rw [definitions_of_resource mem kind, definitionsOf, List.filter_replicate]
    split
    · next h =>
      rw [List.nodup_replicate, copies]
      exact ⟨fun short _ _ => short, fun short => short ⟨resource, mem, kind⟩ (reads.1 h)⟩
    · next h =>
      refine ⟨fun _ _ clear => absurd (reads.2 clear) h, fun _ => .nil⟩
  · rw [definitions_of_other fun resource mem kind => ofResource ⟨resource, mem, kind⟩]
    exact ⟨fun _ h => absurd h ofResource, fun _ => .nil⟩

end Naming

/-- The entries of files are in the index, and no two of their documents have the same kind and name: no resource counts
as defined more than once exactly if the name of each one, unless it has a line feed, is on one or two lines. -/
theorem Index.duplicates_ofFiles_iff {services : Services} {files : List (String × SourceFile)}
    {reports : List FileReport} {index : List IndexEntry}
    (processed : FileReport.ofFiles services .initial files = .ok reports)
    (entered : index.Perm (reports.flatMap (·.index))) (named : AllNamed (files.flatMap fun f => f.2.data))
    (different : (namingsOf (files.flatMap fun f => f.2.data)).Pairwise fun a b => a.kind = b.kind → a.text ≠ b.text) :
    (∀ uri, duplicates index uri = []) ↔ ∀ n ∈ namingsOf (files.flatMap fun f => f.2.data),
      (∃ resource ∈ resourceKinds, n.kind = some (.str resource)) → '\n' ∉ n.text.toList →
        n.stop.line ≤ n.start.line + 1 := by
  have perm : ((index.filter isDefinition).map (·.name)).Perm
      ((namingsOf (files.flatMap fun f => f.2.data)).flatMap Naming.definitions) := by
    have names (index : List IndexEntry) :
        (index.filter isDefinition).map (·.name) = (index.map (·.name)).filter readsAsDefinition := by
      rw [List.filter_map]
      rfl
    have grown : ResourceSchema.initial.schema.Grows Store.initial.schema := by
      rw [Store.schema_initial]
      exact .refl _
    rw [← FileReport.definitions_ofFiles files Store.kinds_initial grown named processed, names]
    refine ((entered.map _).filter _).trans (.of_eq ?_)
    rw [List.map_flatMap, List.filter_flatMap]
    rfl
  rw [duplicates_eq_nil_iff, perm.nodup_iff, List.nodup_flatMap]
  have plain : ∀ n ∈ namingsOf (files.flatMap fun f => f.2.data), readsAsDefinition (templateKey n.text) = false := by
    intro n mem
    obtain ⟨d, there, name⟩ := List.mem_filterMap.1 mem
    exact Naming.templateKey_text name (named d there).2
  constructor
  · intro once n mem
    exact (Naming.nodup_definitions_iff (plain n mem)).1 (once.1 n mem)
  · intro short
    refine ⟨fun n mem => (Naming.nodup_definitions_iff (plain n mem)).2 (short n mem), ?_⟩
    exact different.imp fun apart => Naming.disjoint_definitions apart

/-- The anchor of a document with a kind and a name is made of these alone. -/
private def isPlain (d : Node × Entries) : Bool :=
  d.1.refersPlainly &&
    match d.2.get? "kind", (metadataName d.2).toOption with
    | some kind, some (some name) => kind.truthy && name.truthy && !readsAsDefinition s!"{kind.text}:{name.text}"
    | _, _ => false

private theorem readsPlainly_of_isPlain (h : isPlain d = true) : ReadsPlainly d := by
  rw [isPlain, Bool.and_eq_true] at h
  refine ⟨h.1, ?_⟩
  intro name count made
  have h := h.2
  rw [made, Except.toOption] at h
  split at h
  · next kind name found same =>
    cases same
    simp only [Bool.and_eq_true, Bool.not_eq_true'] at h
    rw [found, anchorKey, h.1.1, h.1.2]
    exact h.2
  · cases h

/-- A name in quotes, and one on two lines. -/
private def quotedNames : List (String × SourceFile) :=
  [("a.yaml", .ofText "kind: Workflow\nmetadata:\n  name: 'f'\n" true),
    ("b.yaml", .ofText "kind: Workflow\nmetadata:\n  name: \"f\n    g\"\n" true)]

theorem Index.duplicates_ofFiles_iff_quotedNames :
    (namingsOf (quotedNames.flatMap fun f => f.2.data)).map (·.text) = ["f", "f g"] ∧
      ∃ reports, FileReport.ofFiles FileReport.noServices .initial quotedNames = .ok reports ∧
        ∀ uri, duplicates (reports.flatMap (·.index)) uri = [] := by
  have facts : (namingsOf (quotedNames.flatMap fun f => f.2.data)).map (·.text) = ["f", "f g"] ∧
      (∀ d ∈ quotedNames.flatMap fun f => f.2.data, (Naming.of? d).isSome = true ∧ isPlain d = true) ∧
      (∀ n ∈ namingsOf (quotedNames.flatMap fun f => f.2.data), n.stop.line ≤ n.start.line + 1) ∧
      (FileReport.ofFiles FileReport.noServices .initial quotedNames).toOption.isSome = true := by
    decide +kernel
  obtain ⟨texts, plain, short, succeeds⟩ := facts
  obtain ⟨reports, made⟩ := Option.isSome_iff_exists.1 succeeds
  have processed := except_eq_ok_of_toOption made
  have apart : ((namingsOf (quotedNames.flatMap fun f => f.2.data)).map (·.text)).Nodup := by
    rw [texts]
    decide
  refine ⟨texts, reports, processed, ?_⟩
  refine (duplicates_ofFiles_iff processed (.refl _) ?_ ?_).2 fun n mem _ _ => short n mem
  · exact fun d mem => ⟨(plain d mem).1, readsPlainly_of_isPlain (plain d mem).2⟩
  · refine (List.pairwise_map.1 apart).imp ?_
    intro a b ne _
    exact ne

/-- The name of one document, in folded style, counts as three definitions. -/
theorem Index.duplicates_of_folded_name :
    let file := SourceFile.ofText "kind: ValueFunction\nmetadata:\n  name: >-\n    f\n" true
    (namingsOf file.data).map (·.text) = ["f"] ∧
      (FileReport.ofFiles FileReport.noServices .initial [("a.yaml", file)]).toOption.map
          (fun reports => (duplicates (reports.flatMap (·.index)) "a.yaml").map (·.message)) =
        some (List.replicate 3 "Mulitiple instances of ValueFunction:f:def.") := by
  decide +kernel

end ManifestLens
