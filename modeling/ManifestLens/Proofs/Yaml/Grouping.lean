import ManifestLens.Proofs.Yaml.Scanning
import ManifestLens.Yaml.Event

/-!
# Scalars among events

A scalar of an event that is not empty is written as a token, right after the anchor and the tag that stand before it
(`Origin`), and an empty one is at the edges of tokens.  Each step by which tokens are grouped to events takes some of
the tokens from the front and brings in no other scalars (`Grouper.takes_step`), so all events come from the tokens
(`comesFrom_of_mem_ofTokens`).
-/

namespace ManifestLens.Yaml

variable {more tokens : List Token} {block first indentless : Bool}

/-! ### Scalars and their tokens -/

/-- A scalar with the given text and marks is written as a token, after the heading of an anchor and a tag. -/
structure Origin (tokens : List Token) (text : String) (start stop : Mark) (heading : List Token) (t : Token) :
    Prop where
  isPart : heading ++ [t] <:+: tokens
  properties : ∀ p ∈ heading, p.lexeme.isProperty = true
  isScalar : ∃ style, t.lexeme = .scalar text style
  start : start = (heading.headD t).start
  stop : stop = t.stop

/-- The mark is where one of the tokens starts or ends, or at the start of the text. -/
def IsEdge (tokens : List Token) (m : Mark) : Prop :=
  m = default ∨ ∃ t ∈ tokens, m = t.start ∨ m = t.stop

private theorem IsEdge.of_suffix {m : Mark} (h : IsEdge tokens m) (part : tokens <:+ more) : IsEdge more m := by
  rcases h with first | ⟨t, mem, edge⟩
  · exact .inl first
  · exact .inr ⟨t, part.subset mem, edge⟩

/-- A scalar is empty and at edges of tokens, or written as one of the tokens. -/
def HasOrigin (tokens : List Token) (text : String) (start stop : Mark) : Prop :=
  (text = "" ∧ IsEdge tokens start ∧ IsEdge tokens stop) ∨ ∃ heading t, Origin tokens text start stop heading t

theorem HasOrigin.isEdge {text : String} {start stop : Mark} (h : HasOrigin tokens text start stop) :
    IsEdge tokens start ∧ IsEdge tokens stop := by
  rcases h with ⟨-, edges⟩ | ⟨heading, t, origin⟩
  · exact edges
  · have mem : ∀ p ∈ heading ++ [t], p ∈ tokens := fun p h => origin.isPart.subset h
    refine ⟨.inr ⟨heading.headD t, mem _ ?_, .inl origin.start⟩, .inr ⟨t, mem t (by simp), .inr origin.stop⟩⟩
    cases heading <;> simp

private theorem HasOrigin.of_suffix {text : String} {start stop : Mark} (h : HasOrigin tokens text start stop)
    (part : tokens <:+ more) : HasOrigin more text start stop := by
  rcases h with ⟨empty, first, second⟩ | ⟨heading, t, origin⟩
  · exact .inl ⟨empty, first.of_suffix part, second.of_suffix part⟩
  · exact .inr ⟨heading, t, origin.isPart.trans part.isInfix, origin.properties, origin.isScalar, origin.start,
      origin.stop⟩

/-! ### Events -/

/-- The event brings in no scalar but those of the tokens, and no alias elsewhere. -/
def Event.ComesFrom (tokens : List Token) : Event → Prop
  | .scalar _ _ text start stop => HasOrigin tokens text start stop
  | .aliasOf _ start => IsEdge tokens start
  | _ => True

namespace Grouper

variable {g g' : Grouper} {t : Token} {r : Event × Grouper}

/-- A step takes tokens from the front, and its event comes from them. -/
structure Takes (g : Grouper) (r : Event × Grouper) : Prop where
  rest : r.2.tokens <:+ g.tokens
  event : r.1.ComesFrom g.tokens

private theorem Takes.of_suffix (h : Takes g' r) (part : g'.tokens <:+ g.tokens) : Takes g r := by
  refine ⟨h.rest.trans part, ?_⟩
  have comes := h.event
  cases event : r.1 with
  | scalar =>
    rw [event] at comes
    exact HasOrigin.of_suffix comes part
  | aliasOf =>
    rw [event] at comes
    exact IsEdge.of_suffix comes part
  | _ => trivial

private theorem tokens_resume (g : Grouper) : g.resume.tokens = g.tokens := by
  rw [resume]
  split <;> rfl

private theorem tokens_leave (g : Grouper) : g.leave.tokens = g.tokens :=
  tokens_resume _

theorem skip_suffix (g : Grouper) : g.skip.tokens <:+ g.tokens :=
  List.drop_suffix 1 g.tokens

/-- The token that is ahead is the first one, or stands for the end of the text. -/
theorem peek_eq_ok (h : g.peek = .ok t) : (∃ rest, g.tokens = t :: rest) ∨ t.lexeme = .streamEnd := by
  rw [peek] at h
  cases tokens : g.tokens with
  | cons first rest =>
    rw [tokens] at h
    cases h
    exact .inl ⟨rest, rfl⟩
  | nil =>
    rw [tokens] at h
    cases failure : g.failure <;> rw [failure] at h <;> cases h
    exact .inr rfl

private theorem isEdge_of_peek (h : g.peek = .ok t) : IsEdge g.tokens t.start ∧ IsEdge g.tokens t.stop := by
  rw [peek] at h
  cases tokens : g.tokens with
  | cons first rest =>
    rw [tokens] at h
    cases h
    exact ⟨.inr ⟨t, List.mem_cons_self, .inl rfl⟩, .inr ⟨t, List.mem_cons_self, .inr rfl⟩⟩
  | nil =>
    rw [tokens] at h
    cases failure : g.failure <;> rw [failure] at h <;> cases h
    exact ⟨.inl rfl, .inl rfl⟩

theorem skip_of_peek (h : g.peek = .ok t) (other : t.lexeme ≠ .streamEnd) : g.tokens = t :: g.skip.tokens := by
  obtain ⟨rest, tokens⟩ := (peek_eq_ok h).resolve_right other
  rw [skip, tokens]
  rfl

/-- An anchor and a tag are taken from the front. -/
theorem heading_eq_ok {h : Heading} (made : g.heading = .ok (h, g')) :
    ∃ taken, g.tokens = taken ++ g'.tokens ∧ (∀ p ∈ taken, p.lexeme.isProperty = true) ∧
      h.span = taken.head?.map (fun first => (first.start, (taken.getLastD first).stop)) := by
  obtain ⟨first, ahead, made⟩ := except_bind_eq_ok_iff.1 made
  split at made
  · next name lexeme =>
    obtain ⟨second, further, made⟩ := except_bind_eq_ok_iff.1 made
    have taken := skip_of_peek ahead (by simp [lexeme])
    split at made
    · next handle suffix kind =>
      cases made
      have more := skip_of_peek further (by simp [kind])
      exact ⟨[first, second], by rw [taken, more]; rfl, by simp [lexeme, kind, Lexeme.isProperty], rfl⟩
    · cases made
      exact ⟨[first], taken, by simp [lexeme, Lexeme.isProperty], rfl⟩
  · next handle suffix lexeme =>
    obtain ⟨second, further, made⟩ := except_bind_eq_ok_iff.1 made
    have taken := skip_of_peek ahead (by simp [lexeme])
    split at made
    · next name kind =>
      cases made
      have more := skip_of_peek further (by simp [kind])
      exact ⟨[first, second], by rw [taken, more]; rfl, by simp [lexeme, kind, Lexeme.isProperty], rfl⟩
    · cases made
      exact ⟨[first], taken, by simp [lexeme, Lexeme.isProperty], rfl⟩
  · cases made
    exact ⟨[], rfl, List.forall_mem_nil _, rfl⟩

private theorem takes_bareNode {found : Token} {span : Mark × Mark} {properties : Properties}
    (part : g'.tokens <:+ g.tokens) (edges : IsEdge g.tokens span.1 ∧ IsEdge g.tokens span.2)
    (made : g'.bareNode block found span properties = .ok r) :
    Takes g r := by
  rw [bareNode] at made
  split at made <;> cases made
  exact ⟨(tokens_resume g').symm ▸ part, .inl ⟨rfl, edges⟩⟩

/-- What stands before a node starts and ends where tokens do, and so does a node that is not there. -/
private theorem isEdge_span {taken : List Token} {h : Heading} (tokens : g.tokens = taken ++ g'.tokens)
    (span : h.span = taken.head?.map (fun first => (first.start, (taken.getLastD first).stop)))
    (ahead : g'.peek = .ok t) :
    IsEdge g.tokens (h.span.getD (t.start, t.start)).1 ∧ IsEdge g.tokens (h.span.getD (t.start, t.start)).2 := by
  rw [span, tokens]
  cases taken with
  | nil => exact ⟨(isEdge_of_peek ahead).1, (isEdge_of_peek ahead).1⟩
  | cons first rest =>
    refine ⟨.inr ⟨first, List.mem_cons_self, .inl rfl⟩, .inr ⟨_, List.mem_append_left _ ?_, .inr rfl⟩⟩
    rw [List.getLastD_cons]
    exact List.getLastD_mem_cons

private theorem takes_node (made : g.node block indentless = .ok r) : Takes g r := by
  obtain ⟨t, ahead, made⟩ := except_bind_eq_ok_iff.1 made
  split at made
  · cases made
    exact ⟨(tokens_resume g.skip).symm ▸ skip_suffix g, (isEdge_of_peek ahead).1⟩
  · obtain ⟨⟨h, g₁⟩, headed, made⟩ := except_bind_eq_ok_iff.1 made
    obtain ⟨tag, _, made⟩ := except_bind_eq_ok_iff.1 made
    obtain ⟨t, ahead, made⟩ := except_bind_eq_ok_iff.1 made
    obtain ⟨taken, tokens, properties, span⟩ := heading_eq_ok headed
    have part : g₁.tokens <:+ g.tokens := ⟨taken, tokens.symm⟩
    have start : (h.span.getD (t.start, t.start)).1 = (taken.headD t).start := by
      rw [span]
      cases taken <;> rfl
    have edges := isEdge_span tokens span ahead
    dsimp only at made
    split at made
    · next text style lexeme =>
      cases made
      have rest := skip_of_peek ahead (by simp [lexeme])
      refine ⟨(tokens_resume g₁.skip).symm ▸ (skip_suffix g₁).trans part, .inr ⟨taken, t, ?_, properties,
        ⟨style, lexeme⟩, start, rfl⟩⟩
      exact ⟨[], g₁.skip.tokens, by rw [tokens, rest]; simp⟩
    · cases made
      exact ⟨part, trivial⟩
    · cases made
      exact ⟨part, trivial⟩
    · split at made
      · cases made
        exact ⟨part, trivial⟩
      · exact takes_bareNode part edges made
    · split at made
      · cases made
        exact ⟨part, trivial⟩
      · exact takes_bareNode part edges made
    · split at made
      · cases made
        exact ⟨part, trivial⟩
      · exact takes_bareNode part edges made
    · exact takes_bareNode part edges made

private theorem takes_entry {mark : Token} {stops : List Lexeme} {next : Expecting} (ahead : g.peek = .ok mark)
    (made : g.skip.entry mark stops next block indentless = .ok r) : Takes g r := by
  obtain ⟨t, further, made⟩ := except_bind_eq_ok_iff.1 made
  split at made
  · cases made
    exact ⟨skip_suffix g, .inl ⟨rfl, (isEdge_of_peek ahead).2, (isEdge_of_peek ahead).2⟩⟩
  · exact (takes_node made).of_suffix (skip_suffix g)

/-! ### Documents and collections -/

theorem directives_suffix {versioned : Bool} {handles : List (String × String)}
    (made : g.directives versioned handles tokens = .ok g') : g'.tokens <:+ tokens := by
  induction tokens generalizing versioned handles with
  | nil =>
    cases made
    exact List.suffix_rfl
  | cons t tokens ih =>
    obtain ⟨lexeme, start, stop⟩ := t
    cases lexeme with
    | directive d =>
      have goesOn {versioned : Bool} {handles : List (String × String)}
          (made : g.directives versioned handles tokens = .ok g') :
          g'.tokens <:+ ⟨.directive d, start, stop⟩ :: tokens :=
        (ih made).trans (List.suffix_cons _ tokens)
      unfold directives at made
      cases d with
      | version major minor =>
        dsimp only at made
        split at made
        · cases made
        · split at made
          · cases made
          · exact goesOn made
      | handle name expansion =>
        dsimp only at made
        split at made
        · cases made
        · exact goesOn made
      | other name => exact goesOn made
    | _ =>
      cases made
      exact List.suffix_rfl

private theorem takes_documentStart (made : g.documentStart = .ok r) : Takes g r := by
  have ends : g.skipDocumentEnds.tokens <:+ g.tokens := List.dropWhile_suffix _
  obtain ⟨t, ahead, made⟩ := except_bind_eq_ok_iff.1 made
  split at made
  · cases made
    exact ⟨(skip_suffix _).trans ends, trivial⟩
  · obtain ⟨g₁, directed, made⟩ := except_bind_eq_ok_iff.1 made
    obtain ⟨t, ahead, made⟩ := except_bind_eq_ok_iff.1 made
    split at made
    · cases made
    · cases made
      exact ⟨((skip_suffix g₁).trans (directives_suffix directed)).trans ends, trivial⟩

private theorem takes_firstDocument (made : g.firstDocument = .ok r) : Takes g r := by
  obtain ⟨t, ahead, made⟩ := except_bind_eq_ok_iff.1 made
  split at made
  · exact takes_documentStart made
  · cases made
    exact ⟨List.suffix_rfl, trivial⟩

theorem takes_documentEnd (made : g.documentEnd = .ok r) : Takes g r := by
  obtain ⟨t, ahead, made⟩ := except_bind_eq_ok_iff.1 made
  cases made
  refine ⟨?_, trivial⟩
  dsimp only [expect]
  split
  · exact skip_suffix g
  · exact List.suffix_rfl

private theorem takes_documentContent (made : g.documentContent = .ok r) : Takes g r := by
  obtain ⟨t, ahead, made⟩ := except_bind_eq_ok_iff.1 made
  split at made
  · cases made
    exact ⟨(tokens_resume g).symm ▸ List.suffix_rfl, .inl ⟨rfl, (isEdge_of_peek ahead).1, (isEdge_of_peek ahead).1⟩⟩
  · exact takes_node made

/-- The end of a collection. -/
private theorem takes_end {event : Event} (isEnd : event.ComesFrom g.tokens) : Takes g (event, g.skip.leave) :=
  ⟨(tokens_leave g.skip).symm ▸ skip_suffix g, isEnd⟩

private theorem takes_blockSequenceEntry (made : g.blockSequenceEntry = .ok r) : Takes g r := by
  obtain ⟨t, ahead, made⟩ := except_bind_eq_ok_iff.1 made
  split at made
  · exact takes_entry ahead made
  · cases made
    exact takes_end trivial
  · cases made

private theorem takes_indentlessEntry (made : g.indentlessEntry = .ok r) : Takes g r := by
  obtain ⟨t, ahead, made⟩ := except_bind_eq_ok_iff.1 made
  split at made
  · exact takes_entry ahead made
  · cases made
    exact ⟨(tokens_resume g).symm ▸ List.suffix_rfl, trivial⟩

private theorem takes_blockMappingKey (made : g.blockMappingKey = .ok r) : Takes g r := by
  obtain ⟨t, ahead, made⟩ := except_bind_eq_ok_iff.1 made
  split at made
  · exact takes_entry ahead made
  · cases made
    exact takes_end trivial
  · cases made

/-- A value, or nothing where no mark of a value is ahead. -/
private theorem takes_value {stops : List Lexeme} {next : Expecting}
    (made : (do
      let t ← g.peek
      match t.lexeme with
      | .value => g.skip.entry t stops next block indentless
      | _ => return (emptyScalar t.start, g.expect next)) = Except.ok r) : Takes g r := by
  obtain ⟨t, ahead, made⟩ := except_bind_eq_ok_iff.1 made
  split at made
  · exact takes_entry ahead made
  · cases made
    exact ⟨List.suffix_rfl, .inl ⟨rfl, (isEdge_of_peek ahead).1, (isEdge_of_peek ahead).1⟩⟩

theorem flowComma_suffix {task : Task} {problem : String → Problem} (made : g.flowComma first task problem = .ok g') :
    g'.tokens <:+ g.tokens := by
  obtain ⟨t, ahead, made⟩ := except_bind_eq_ok_iff.1 made
  split at made
  · cases made
    exact List.suffix_rfl
  · split at made <;> cases made
    exact skip_suffix g

private theorem takes_flowSequenceEntry (made : g.flowSequenceEntry first = .ok r) : Takes g r := by
  obtain ⟨t, ahead, made⟩ := except_bind_eq_ok_iff.1 made
  split at made
  · cases made
    exact takes_end trivial
  · obtain ⟨g₁, comma, made⟩ := except_bind_eq_ok_iff.1 made
    obtain ⟨t, ahead, made⟩ := except_bind_eq_ok_iff.1 made
    refine Takes.of_suffix ?_ (flowComma_suffix comma)
    split at made
    · cases made
      exact ⟨List.suffix_rfl, trivial⟩
    · cases made
      exact takes_end trivial
    · exact ⟨(takes_node made).rest, (takes_node made).event⟩

private theorem takes_flowPairKey (made : g.flowPairKey = .ok r) : Takes g r := by
  obtain ⟨t, ahead, made⟩ := except_bind_eq_ok_iff.1 made
  exact takes_entry ahead made

private theorem takes_flowPairEnd (made : g.flowPairEnd = .ok r) : Takes g r := by
  obtain ⟨t, ahead, made⟩ := except_bind_eq_ok_iff.1 made
  cases made
  exact ⟨List.suffix_rfl, trivial⟩

private theorem takes_flowMappingKey (made : g.flowMappingKey first = .ok r) : Takes g r := by
  obtain ⟨t, ahead, made⟩ := except_bind_eq_ok_iff.1 made
  split at made
  · cases made
    exact takes_end trivial
  · obtain ⟨g₁, comma, made⟩ := except_bind_eq_ok_iff.1 made
    obtain ⟨t, ahead, made⟩ := except_bind_eq_ok_iff.1 made
    refine Takes.of_suffix ?_ (flowComma_suffix comma)
    split at made
    · exact takes_entry ahead made
    · cases made
      exact takes_end trivial
    · exact ⟨(takes_node made).rest, (takes_node made).event⟩

private theorem takes_flowMappingEmptyValue (made : g.flowMappingEmptyValue = .ok r) : Takes g r := by
  obtain ⟨t, ahead, made⟩ := except_bind_eq_ok_iff.1 made
  cases made
  exact ⟨List.suffix_rfl, .inl ⟨rfl, (isEdge_of_peek ahead).1, (isEdge_of_peek ahead).1⟩⟩

/-- The first step in a collection passes its first mark. -/
private theorem takes_first {step : Grouper → Except Error (Event × Grouper)}
    (takes : ∀ g r, step g = .ok r → Takes g r) (made : g.enterNext.bind step = .ok r) : Takes g r := by
  obtain ⟨g₁, entered, made⟩ := except_bind_eq_ok_iff.1 made
  obtain ⟨t, ahead, entered⟩ := except_bind_eq_ok_iff.1 entered
  cases entered
  exact (takes _ r made).of_suffix (skip_suffix g)

/-- Whatever is expected, a step takes tokens from the front, and its event comes from them. -/
theorem takes_step (made : g.step = .ok r) : Takes g r := by
  rw [step] at made
  split at made
  · cases made
    exact ⟨skip_suffix g, trivial⟩
  · exact takes_firstDocument made
  · exact takes_documentStart made
  · exact takes_documentContent made
  · exact takes_documentEnd made
  · exact takes_node made
  · exact takes_first (fun _ _ => takes_blockSequenceEntry) made
  · exact takes_blockSequenceEntry made
  · exact takes_indentlessEntry made
  · exact takes_first (fun _ _ => takes_blockMappingKey) made
  · exact takes_blockMappingKey made
  · exact takes_value made
  · exact takes_first (fun _ _ => takes_flowSequenceEntry) made
  · exact takes_flowSequenceEntry made
  · exact takes_flowPairKey made
  · exact takes_value made
  · exact takes_flowPairEnd made
  · exact takes_first (fun _ _ => takes_flowMappingKey) made
  · exact takes_flowMappingKey made
  · exact takes_value made
  · exact takes_flowMappingEmptyValue made
  · cases made
    exact ⟨List.suffix_rfl, trivial⟩

/-- All events come from the tokens. -/
private theorem comesFrom_of_mem_run {fuel : Nat} (part : g.tokens <:+ tokens) :
    ∀ e ∈ (g.run fuel).events, e.ComesFrom tokens := by
  induction fuel generalizing g with
  | zero => exact List.forall_mem_nil _
  | succ fuel ih =>
    rw [run]
    split
    · exact List.forall_mem_nil _
    · next event next made =>
      have takes := (takes_step made).of_suffix (g := { g with tokens := tokens }) part
      split
      · exact List.forall_mem_singleton.2 takes.event
      · exact List.forall_mem_cons.2 ⟨takes.event, ih takes.rest⟩

end Grouper

theorem comesFrom_of_mem_ofTokens (stream : TokenStream) :
    ∀ e ∈ (EventStream.ofTokens stream).events, e.ComesFrom stream.tokens :=
  Grouper.comesFrom_of_mem_run List.suffix_rfl

end ManifestLens.Yaml
