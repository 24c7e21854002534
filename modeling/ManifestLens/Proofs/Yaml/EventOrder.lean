import ManifestLens.Proofs.Yaml.Grouping
import ManifestLens.Proofs.Yaml.TokenOrder

/-!
# Events in the order of their text

The events of a document follow each other in the text, and they are those of one tree: each collection ends after its
members, and each key has a value (`Proper`).  What the grouping machine may come back to tells which collections are
open (`Grouper.opening`), and each of its steps goes on from there (`Grouper.advances_step`).  Only a text that was not
read to its end could break the order, and then the document is never complete (`Grouper.not_mem_run_of_nil`).
-/

namespace ManifestLens.Yaml

variable {block indentless : Bool} {e : Expecting} {fuel : Nat}

/-! ### What is open -/

/-- What comes next: the root of a document, an item of a sequence, or a key or a value of a mapping. -/
inductive Opening where
  | root
  | item
  | key
  | value
  deriving DecidableEq

/-- What is open after a complete node. -/
def filled : List Opening → List Opening
  | .root :: rest => rest
  | .key :: rest => .value :: rest
  | .value :: rest => .key :: rest
  | l => l

/-- After a mark, and with what is open, an event goes on with a document; where it ends, and what is open then.  The
value of a key starts after a colon, unless it is missing. -/
inductive Event.GoesOn (m : Mark) : List Opening → Event → Mark → List Opening → Prop where
  | aliasOf {l : List Opening} {name : String} {start : Mark} (isOpen : l ≠ []) (after : m ≤ start) :
      GoesOn m l (.aliasOf name start) start (filled l)
  | scalar {l : List Opening} {p : Properties} {untagged : Bool} {text : String} {start stop : Mark} (isOpen : l ≠ [])
      (after : m ≤ start) (ordered : start ≤ stop) (colon : l.head? = some .value → m < start ∨ start = stop) :
      GoesOn m l (.scalar p untagged text start stop) stop (filled l)
  | sequenceStart {l : List Opening} {p : Properties} {start : Mark} (isOpen : l ≠ []) (after : m ≤ start)
      (colon : l.head? = some .value → m < start) : GoesOn m l (.sequenceStart p start) start (.item :: l)
  | mappingStart {l : List Opening} {p : Properties} {start : Mark} (isOpen : l ≠ []) (after : m ≤ start)
      (colon : l.head? = some .value → m < start) : GoesOn m l (.mappingStart p start) start (.key :: l)
  | sequenceEnd {l : List Opening} {stop : Mark} (after : m ≤ stop) :
      GoesOn m (.item :: l) (.sequenceEnd stop) stop (filled l)
  | mappingEnd {l : List Opening} {stop : Mark} (after : m ≤ stop) :
      GoesOn m (.key :: l) (.mappingEnd stop) stop (filled l)

/-- The events of each document that is complete go on with it, one after the other.  Inside a document it is known up
to which mark it goes and what is open. -/
def Proper : Option (Mark × List Opening) → List Event → Prop
  | _, [] => True
  | none, .documentStart :: rest => Proper (some (default, [.root])) rest
  | none, _ :: rest => Proper none rest
  | some _, .documentEnd :: rest => Proper none rest
  | some (m, l), event :: rest =>
    (∃ m' l', event.GoesOn m l m' l' ∧ Proper (some (m', l')) rest) ∨ .documentEnd ∉ rest

private theorem InLine.of_suffix {first last : Mark} {tokens rest : List Token} (h : InLine first tokens last)
    (part : rest <:+ tokens) : InLine default rest last := by
  obtain ⟨before, rfl⟩ := part
  obtain ⟨mid, -, line⟩ := InLine.append_iff.1 h
  exact line.of_le (Mark.default_le mid)

/-! ### The stack of the machine -/

namespace Expecting

/-- What is open in the collection that the state is about. -/
def within : Expecting → List Opening
  | .blockSequenceFirst | .blockSequenceEntry | .indentlessEntry | .flowSequenceFirst | .flowSequenceEntry => [.item]
  | .blockMappingFirst | .blockMappingKey | .flowMappingFirst | .flowMappingKey => [.key]
  | .blockMappingValue | .flowMappingValue | .flowMappingEmptyValue => [.value]
  | .flowPairKey | .flowPairEnd => [.key, .item]
  | .flowPairValue => [.value, .item]
  | _ => []

/-- What is open in that collection while the node before the state is read. -/
def before : Expecting → List Opening
  | .documentEnd => [.root]
  | .blockSequenceEntry | .indentlessEntry | .flowSequenceEntry => [.item]
  | .blockMappingKey | .flowMappingKey => [.value]
  | .blockMappingValue | .flowMappingValue | .flowMappingEmptyValue => [.key]
  | .flowPairValue => [.key, .item]
  | .flowPairEnd => [.value, .item]
  | _ => []

private theorem filled_before (h : e.before ≠ []) (l : List Opening) : filled (e.before ++ l) = e.within ++ l := by
  cases e <;> first | rfl | exact absurd rfl h

private theorem within_ne_nil (h : e.before ≠ []) (inner : e ≠ .documentEnd) : e.within ≠ [] := by
  cases e <;> simp_all [before, within]

/-- The states between the keys and values of a block mapping. -/
def isBlockMapping (e : Expecting) : Prop :=
  e = .blockMappingKey ∨ e = .blockMappingValue

end Expecting

/-- The machine can come back to the states one after the other: to the end of the document last, and to a sequence
without indentation only inside a block mapping. -/
def Stacked : List Expecting → Prop
  | [] => True
  | e :: rest => e.before ≠ [] ∧ (e = .documentEnd ↔ rest = []) ∧
      (e = .indentlessEntry → ∃ outer ∈ rest.head?, outer.isBlockMapping) ∧ Stacked rest

namespace Grouper

variable {g g' : Grouper} {t : Token} {r : Event × Grouper} {m : Mark} {l : List Opening}

/-- What is open around the next node. -/
def around (g : Grouper) : List Opening :=
  g.stack.flatMap Expecting.before

/-- The machine is inside a document, with the tokens after a mark. -/
structure Inside (m : Mark) (g : Grouper) : Prop where
  tokens : ∃ last, InLine m g.tokens last
  stacked : Stacked g.stack
  nonempty : g.stack ≠ []

/-- The state is one of a collection or of a root.  A document that starts with a mark may be empty, so nothing of it
is known yet. -/
structure Expects (m : Mark) (g : Grouper) : Prop where
  state : g.expecting.within ≠ [] ∨
    g.stack = [.documentEnd] ∧ (g.expecting = .blockNode ∨ g.expecting = .documentContent ∧ m = default)
  indentless : g.expecting = .indentlessEntry → ∃ outer ∈ g.stack.head?, outer.isBlockMapping

/-- The machine is inside a document, with the tokens after a mark, and expects what is open. -/
inductive Ready (m : Mark) : List Opening → Grouper → Prop where
  | ended {g : Grouper} (tokens : ∃ last, InLine m g.tokens last) (expecting : g.expecting = .documentEnd)
      (stack : g.stack = []) : Ready m [] g
  | inner {g : Grouper} (inside : g.Inside m) (expects : g.Expects m) : Ready m (g.expecting.within ++ g.around) g

/-- The event of a step goes on with the document, and so does the machine. -/
def Advances (m : Mark) (l : List Opening) (r : Event × Grouper) : Prop :=
  ∃ m' l', r.1.GoesOn m l m' l' ∧ r.2.Ready m' l'

namespace Inside

private theorem around_ne_nil (h : g.Inside m) : g.around ≠ [] := by
  obtain ⟨-, stacked, nonempty⟩ := h
  rw [around]
  cases stack : g.stack with
  | nil => exact absurd stack nonempty
  | cons e rest =>
    rw [stack] at stacked
    rw [List.flatMap_cons]
    exact fun none => stacked.1 (List.append_eq_nil_iff.1 none).1

/-- After a complete node the machine comes back to the state on top of the stack. -/
private theorem resume (h : g.Inside m) : g.resume.Ready m (filled g.around) := by
  obtain ⟨tokens, stacked, nonempty⟩ := h
  rw [Grouper.resume, around]
  cases stack : g.stack with
  | nil => exact absurd stack nonempty
  | cons e rest =>
    rw [stack] at stacked
    obtain ⟨pushed, last, indentless, stacked⟩ := stacked
    rw [List.flatMap_cons, Expecting.filled_before pushed]
    by_cases isEnd : e = .documentEnd
    · obtain rfl := last.1 isEnd
      subst isEnd
      exact .ended tokens rfl rfl
    · exact .inner (g := { g with expecting := e, stack := rest }) ⟨tokens, stacked, mt last.2 isEnd⟩
        ⟨.inl (Expecting.within_ne_nil pushed isEnd), indentless⟩

private theorem of_tokens (h : g.Inside m) {m' : Mark} (stack : g'.stack = g.stack)
    (tokens : ∃ last, InLine m' g'.tokens last) :
    g'.Inside m' :=
  ⟨tokens, stack ▸ h.stacked, stack ▸ h.nonempty⟩

/-- The token that is ahead is the first one. -/
private theorem exists_ahead (h : g.Inside m) (left : g.tokens ≠ []) (ahead : g.peek = .ok t) :
    ∃ rest last, g.tokens = t :: rest ∧ t.Between m t.stop ∧ InLine t.stop rest last := by
  obtain ⟨last, line⟩ := h.tokens
  rw [peek] at ahead
  cases tokens : g.tokens with
  | nil => exact absurd tokens left
  | cons first rest =>
    rw [tokens] at ahead line
    cases ahead
    exact ⟨rest, last, rfl, line⟩

end Inside

/-! ### Nodes -/

private theorem stack_of_heading {h : Heading} (made : g.heading = .ok (h, g')) : g'.stack = g.stack := by
  obtain ⟨first, _, made⟩ := except_bind_eq_ok_iff.1 made
  split at made
  · obtain ⟨second, _, made⟩ := except_bind_eq_ok_iff.1 made
    split at made <;> cases made <;> rfl
  · obtain ⟨second, _, made⟩ := except_bind_eq_ok_iff.1 made
    split at made <;> cases made <;> rfl
  · cases made
    rfl

/-- The heading of a node stands before the node; without one, it is the place where the node starts. -/
private theorem heading_between {h : Heading} {last : Mark} (made : g.heading = .ok (h, g'))
    (line : InLine m g.tokens last) (left : g.tokens ≠ []) (ahead : g'.peek = .ok t) :
    m ≤ (h.span.getD (t.start, t.start)).1 ∧
      (h.span.getD (t.start, t.start)).1 ≤ (h.span.getD (t.start, t.start)).2 ∧
      InLine (h.span.getD (t.start, t.start)).2 g'.tokens last := by
  obtain ⟨taken, tokens, -, span⟩ := heading_eq_ok made
  rw [span]
  rw [tokens] at line left
  cases taken with
  | nil =>
    rw [peek] at ahead
    cases rest : g'.tokens with
    | nil => exact absurd (by rw [rest]; rfl) left
    | cons first rest =>
      rw [rest] at ahead line
      cases ahead
      exact ⟨line.1.after, le_refl _, ⟨⟨le_refl _, line.1.ordered, line.1.colon, line.1.before⟩, line.2⟩⟩
  | cons first rest =>
    obtain ⟨mid, heading, line⟩ := InLine.append_iff.1 line
    have ends : ∀ {x : Token} {tokens : List Token}, InLine x.stop tokens mid →
        x.stop ≤ (tokens.getLastD x).stop ∧ (tokens.getLastD x).stop ≤ mid := by
      intro x tokens line
      induction tokens generalizing x with
      | nil => exact ⟨le_refl _, line⟩
      | cons y tokens ih =>
        rw [List.getLastD_cons]
        obtain ⟨le, upto⟩ := ih line.2
        exact ⟨le_trans (le_trans line.1.after line.1.ordered) le, upto⟩
    obtain ⟨le, upto⟩ := ends heading.2
    rw [List.head?_cons, Option.map_some, Option.getD_some, List.getLastD_cons]
    exact ⟨heading.1.after, le_trans heading.1.ordered le, line.of_le upto⟩

private theorem lexeme_of_nil (none : g.tokens = []) (ahead : g.peek = .ok t) : t.lexeme = .streamEnd := by
  rcases peek_eq_ok ahead with ⟨rest, tokens⟩ | isEnd
  · rw [none] at tokens
    cases tokens
  · exact isEnd

/-- Without a token no node is read. -/
private theorem node_of_nil (none : g.tokens = []) : g.node block indentless ≠ .ok r := by
  intro made
  obtain ⟨t, ahead, made⟩ := except_bind_eq_ok_iff.1 made
  rw [lexeme_of_nil none ahead] at made
  obtain ⟨⟨h, g₁⟩, headed, made⟩ := except_bind_eq_ok_iff.1 made
  obtain ⟨first, isFirst, headed⟩ := except_bind_eq_ok_iff.1 headed
  rw [lexeme_of_nil none isFirst] at headed
  cases headed
  obtain ⟨tag, isTag, made⟩ := except_bind_eq_ok_iff.1 made
  cases isTag
  obtain ⟨t, ahead, made⟩ := except_bind_eq_ok_iff.1 made
  dsimp only at made
  rw [lexeme_of_nil none ahead] at made
  cases made

/-- A node goes on after a mark; as the value of a key it stands after a colon. -/
private theorem advances_node {first : Mark} (h : g.Inside first) (le : m ≤ first)
    (made : g.node block indentless = .ok r) (colon : g.around.head? = some .value → m < first)
    (isBlock : indentless = true → ∃ outer ∈ g.stack.head?, outer.isBlockMapping) : Advances m g.around r := by
  by_cases none : g.tokens = []
  · exact absurd made (node_of_nil none)
  have isOpen := h.around_ne_nil
  obtain ⟨t, ahead, made⟩ := except_bind_eq_ok_iff.1 made
  obtain ⟨rest, last, tokens, between, line⟩ := h.exists_ahead none ahead
  split at made
  · cases made
    have resumed : g.skip.Inside t.start :=
      h.of_tokens rfl ⟨last, by rw [skip, tokens]; exact line.of_le between.ordered⟩
    exact ⟨_, _, .aliasOf isOpen (le_trans le between.after), resumed.resume⟩
  · obtain ⟨⟨heading, g₁⟩, headed, made⟩ := except_bind_eq_ok_iff.1 made
    obtain ⟨tag, _, made⟩ := except_bind_eq_ok_iff.1 made
    obtain ⟨t, ahead, made⟩ := except_bind_eq_ok_iff.1 made
    obtain ⟨last, line⟩ := h.tokens
    obtain ⟨after, ordered, line⟩ := heading_between headed line none ahead
    have stack := stack_of_heading headed
    generalize heading.span.getD (t.start, t.start) = span at after ordered line made
    have around : g₁.around = g.around := by rw [Grouper.around, stack, Grouper.around]
    -- a collection is entered where its heading starts
    have enters (e : Expecting) (inner : e.within ≠ []) (other : e ≠ .indentlessEntry) :
        (g₁.expect e).Ready span.1 (e.within ++ g.around) := by
      rw [← around]
      exact .inner (g := g₁.expect e) (h.of_tokens stack ⟨last, line.of_le ordered⟩)
        ⟨.inl inner, fun isOne => absurd isOne other⟩
    have starts : m ≤ span.1 := le_trans le after
    have beyond (isValue : g.around.head? = some .value) : m < span.1 := lt_of_lt_of_le (colon isValue) after
    have bare {properties : Properties} (made : g₁.bareNode block t span properties = .ok r) :
        Advances m g.around r := by
      rw [bareNode] at made
      split at made <;> cases made
      have resumed := (h.of_tokens stack ⟨last, line⟩).resume
      rw [around] at resumed
      exact ⟨_, _, .scalar isOpen starts ordered fun isValue => .inl (beyond isValue), resumed⟩
    dsimp only at made
    split at made
    · next text style lexeme =>
      cases made
      have tokens := skip_of_peek ahead (by simp [lexeme])
      rw [tokens] at line
      have inside : g₁.skip.Inside t.stop := h.of_tokens stack ⟨last, line.2⟩
      have resumed := inside.resume
      rw [show g₁.skip.around = g.around from around] at resumed
      have ends := le_trans ordered (le_trans line.1.after line.1.ordered)
      exact ⟨_, _, .scalar isOpen starts ends fun isValue => .inl (beyond isValue), resumed⟩
    · cases made
      exact ⟨_, _, .sequenceStart isOpen starts beyond, enters .flowSequenceFirst (by decide) (by decide)⟩
    · cases made
      exact ⟨_, _, .mappingStart isOpen starts beyond, enters .flowMappingFirst (by decide) (by decide)⟩
    · split at made
      · next isIndentless =>
        cases made
        refine ⟨_, _, .sequenceStart isOpen starts beyond, ?_⟩
        rw [← around]
        exact .inner (g := g₁.expect .indentlessEntry) (h.of_tokens stack ⟨last, line.of_le ordered⟩)
          ⟨.inl (List.cons_ne_nil _ _), fun _ => stack ▸ isBlock isIndentless⟩
      · exact bare made
    · split at made
      · cases made
        exact ⟨_, _, .sequenceStart isOpen starts beyond, enters .blockSequenceFirst (by decide) (by decide)⟩
      · exact bare made
    · split at made
      · cases made
        exact ⟨_, _, .mappingStart isOpen starts beyond, enters .blockMappingFirst (by decide) (by decide)⟩
      · exact bare made
    · exact bare made

/-- The machine may come back to the state after the next node. -/
structure MayResume (g : Grouper) (next : Expecting) : Prop where
  before : next.before ≠ []
  inner : next ≠ .documentEnd
  indentless : next = .indentlessEntry → ∃ outer ∈ g.stack.head?, outer.isBlockMapping

private theorem MayResume.of_ne {next : Expecting} (before : next.before ≠ []) (inner : next ≠ .documentEnd)
    (other : next ≠ .indentlessEntry) : g.MayResume next :=
  ⟨before, inner, fun isOne => absurd isOne other⟩

namespace Inside

private theorem later {next : Expecting} (h : g.Inside m) (resumes : g.MayResume next) : (g.later next).Inside m where
  tokens := h.tokens
  stacked := by
    refine ⟨resumes.before, ⟨fun isEnd => absurd isEnd resumes.inner, fun none => absurd none h.nonempty⟩, ?_⟩
    exact ⟨resumes.indentless, h.stacked⟩
  nonempty := List.cons_ne_nil _ _

/-- In another state of the collection, the machine expects what is open there. -/
private theorem expect {next : Expecting} (h : g.Inside m) (resumes : g.MayResume next) :
    (g.expect next).Ready m (filled (next.before ++ g.around)) := by
  rw [Expecting.filled_before resumes.before]
  exact .inner (g := g.expect next) (h.of_tokens rfl h.tokens)
    ⟨.inl (Expecting.within_ne_nil resumes.before resumes.inner), resumes.indentless⟩

/-- The tokens after the one that is ahead. -/
private theorem skip (h : g.Inside m) (left : g.tokens ≠ []) (ahead : g.peek = .ok t) :
    t.Between m t.stop ∧ g.skip.Inside t.stop := by
  obtain ⟨rest, last, tokens, between, line⟩ := h.exists_ahead left ahead
  refine ⟨between, h.of_tokens rfl ⟨last, ?_⟩⟩
  rw [Grouper.skip, tokens]
  exact line

/-- The token that is ahead stays there. -/
private theorem upto (h : g.Inside m) (left : g.tokens ≠ []) (ahead : g.peek = .ok t) :
    m ≤ t.start ∧ g.Inside t.start := by
  obtain ⟨rest, last, tokens, between, line⟩ := h.exists_ahead left ahead
  refine ⟨between.after, h.of_tokens rfl ⟨last, ?_⟩⟩
  rw [tokens]
  exact ⟨⟨le_refl _, between.ordered, between.colon, le_refl _⟩, line⟩

end Inside

/-- An entry after its mark goes on after the mark. -/
private theorem advances_entry {stops : List Lexeme} (next : Expecting) (h : g.Inside m) (left : g.tokens ≠ [])
    (ahead : g.peek = .ok t) (resumes : g.MayResume next) (made : g.skip.entry t stops next block indentless = .ok r)
    (colon : next.before.head? = some .value → t.lexeme = .value) (isBlock : indentless = true → next.isBlockMapping) :
    Advances m (next.before ++ g.around) r := by
  obtain ⟨between, inside⟩ := h.skip left ahead
  have stops : m ≤ t.stop := le_trans between.after between.ordered
  obtain ⟨t', _, made⟩ := except_bind_eq_ok_iff.1 made
  split at made
  · cases made
    refine ⟨_, _, .scalar (by simp [resumes.before]) stops (le_refl _) fun _ => .inr rfl, ?_⟩
    exact inside.expect ⟨resumes.before, resumes.inner, resumes.indentless⟩
  · have later : (g.skip.later next).Inside t.stop := inside.later ⟨resumes.before, resumes.inner, resumes.indentless⟩
    refine advances_node later stops made (fun isValue => ?_) fun isOne => ⟨next, rfl, isBlock isOne⟩
    refine lt_of_le_of_lt between.after (between.colon (colon ?_))
    rw [around] at isValue
    rw [← isValue]
    cases isBefore : next.before with
    | nil => exact absurd isBefore resumes.before
    | cons first others => simp [Grouper.later, isBefore]

/-! ### Collections -/

private theorem left_of_peek (ahead : g.peek = .ok t) (other : t.lexeme ≠ .streamEnd) : g.tokens ≠ [] := by
  rw [skip_of_peek ahead other]
  exact List.cons_ne_nil _ _

/-- A collection ends with its last mark. -/
private theorem Inside.leave (h : g.Inside m) (ahead : g.peek = .ok t) (other : t.lexeme ≠ .streamEnd) :
    m ≤ t.stop ∧ g.skip.leave.Ready t.stop (filled g.around) := by
  obtain ⟨between, inside⟩ := h.skip (left_of_peek ahead other) ahead
  refine ⟨le_trans between.after between.ordered, ?_⟩
  exact Inside.resume (g := { g.skip with marks := g.skip.marks.drop 1 }) (inside.of_tokens rfl inside.tokens)

private theorem advances_blockSequenceEntry (h : g.Inside m) (made : g.blockSequenceEntry = .ok r) :
    Advances m (.item :: g.around) r := by
  obtain ⟨t, ahead, made⟩ := except_bind_eq_ok_iff.1 made
  split at made
  · next lexeme =>
    exact advances_entry .blockSequenceEntry h (left_of_peek ahead (by simp [lexeme])) ahead
      (.of_ne (by decide) (by decide) (by decide)) made nofun nofun
  · next lexeme =>
    cases made
    obtain ⟨after, ready⟩ := h.leave ahead (by simp [lexeme])
    exact ⟨_, _, .sequenceEnd after, ready⟩
  · cases made

private theorem advances_indentlessEntry (h : g.Inside m) (left : g.tokens ≠ [])
    (isBlock : ∃ outer ∈ g.stack.head?, outer.isBlockMapping) (made : g.indentlessEntry = .ok r) :
    Advances m (.item :: g.around) r := by
  obtain ⟨t, ahead, made⟩ := except_bind_eq_ok_iff.1 made
  split at made
  · exact advances_entry .indentlessEntry h left ahead ⟨by decide, by decide, fun _ => isBlock⟩ made nofun nofun
  · cases made
    obtain ⟨after, inside⟩ := h.upto left ahead
    exact ⟨_, _, .sequenceEnd after, inside.resume⟩

private theorem advances_blockMappingKey (h : g.Inside m) (made : g.blockMappingKey = .ok r) :
    Advances m (.key :: g.around) r := by
  obtain ⟨t, ahead, made⟩ := except_bind_eq_ok_iff.1 made
  split at made
  · next lexeme =>
    exact advances_entry .blockMappingValue h (left_of_peek ahead (by simp [lexeme])) ahead
      (.of_ne (by decide) (by decide) (by decide)) made nofun fun _ => .inr rfl
  · next lexeme =>
    cases made
    obtain ⟨after, ready⟩ := h.leave ahead (by simp [lexeme])
    exact ⟨_, _, .mappingEnd after, ready⟩
  · cases made

/-- A value that is not there stands before the next token. -/
private theorem advances_emptyValue (next : Expecting) (h : g.Inside m) (left : g.tokens ≠ []) (ahead : g.peek = .ok t)
    (resumes : g.MayResume next) : Advances m (next.before ++ g.around) (emptyScalar t.start, g.expect next) := by
  obtain ⟨after, inside⟩ := h.upto left ahead
  exact ⟨_, _, .scalar (by simp [resumes.before]) after (le_refl _) fun _ => .inr rfl, inside.expect resumes⟩

private theorem advances_value {stops : List Lexeme} (next : Expecting) (h : g.Inside m) (left : g.tokens ≠ [])
    (resumes : g.MayResume next)
    (made : (do
      let t ← g.peek
      match t.lexeme with
      | .value => g.skip.entry t stops next block indentless
      | _ => return (emptyScalar t.start, g.expect next)) = Except.ok r)
    (isBlock : indentless = true → next.isBlockMapping) : Advances m (next.before ++ g.around) r := by
  obtain ⟨t, ahead, made⟩ := except_bind_eq_ok_iff.1 made
  split at made
  · next lexeme => exact advances_entry next h left ahead resumes made (fun _ => lexeme) isBlock
  · cases made
    exact advances_emptyValue next h left ahead resumes

private theorem Inside.flowComma {first : Bool} {task : Task} {problem : String → Problem} (h : g.Inside m)
    (made : g.flowComma first task problem = .ok g') : g'.Inside m ∧ g'.around = g.around := by
  obtain ⟨t, ahead, made⟩ := except_bind_eq_ok_iff.1 made
  split at made
  · cases made
    exact ⟨h, rfl⟩
  · split at made <;> cases made
    next comma =>
    have lexeme : t.lexeme = .flowEntry := beq_iff_eq.1 comma
    obtain ⟨between, last, line⟩ := (h.skip (left_of_peek ahead (by simp [lexeme])) ahead).imp_right Inside.tokens
    exact ⟨h.of_tokens rfl ⟨last, line.of_le (le_trans between.after between.ordered)⟩, rfl⟩

private theorem advances_flowSequenceEntry {first : Bool} (h : g.Inside m) (made : g.flowSequenceEntry first = .ok r) :
    Advances m (.item :: g.around) r := by
  obtain ⟨t, ahead, made⟩ := except_bind_eq_ok_iff.1 made
  split at made
  · next isEnd =>
    have lexeme : t.lexeme = .flowSequenceEnd := beq_iff_eq.1 isEnd
    cases made
    obtain ⟨after, ready⟩ := h.leave ahead (by simp [lexeme])
    exact ⟨_, _, .sequenceEnd after, ready⟩
  · obtain ⟨g₁, comma, made⟩ := except_bind_eq_ok_iff.1 made
    obtain ⟨inside, around⟩ := h.flowComma comma
    rw [← around]
    obtain ⟨t, ahead, made⟩ := except_bind_eq_ok_iff.1 made
    split at made
    · next lexeme =>
      cases made
      obtain ⟨after, inside⟩ := inside.upto (left_of_peek ahead (by simp [lexeme])) ahead
      refine ⟨_, _, .mappingStart (List.cons_ne_nil _ _) after nofun, ?_⟩
      exact .inner (g := g₁.expect .flowPairKey) (inside.of_tokens rfl inside.tokens)
        ⟨.inl (List.cons_ne_nil _ _), nofun⟩
    · next lexeme =>
      cases made
      obtain ⟨after, ready⟩ := inside.leave ahead (by simp [lexeme])
      exact ⟨_, _, .sequenceEnd after, ready⟩
    · have later := inside.later
        (.of_ne (show Expecting.flowSequenceEntry.before ≠ [] by decide) (by decide) (by decide))
      exact advances_node later (le_refl _) made nofun nofun

private theorem advances_flowMappingKey {first : Bool} (h : g.Inside m) (made : g.flowMappingKey first = .ok r) :
    Advances m (.key :: g.around) r := by
  obtain ⟨t, ahead, made⟩ := except_bind_eq_ok_iff.1 made
  split at made
  · next isEnd =>
    have lexeme : t.lexeme = .flowMappingEnd := beq_iff_eq.1 isEnd
    cases made
    obtain ⟨after, ready⟩ := h.leave ahead (by simp [lexeme])
    exact ⟨_, _, .mappingEnd after, ready⟩
  · obtain ⟨g₁, comma, made⟩ := except_bind_eq_ok_iff.1 made
    obtain ⟨inside, around⟩ := h.flowComma comma
    rw [← around]
    obtain ⟨t, ahead, made⟩ := except_bind_eq_ok_iff.1 made
    split at made
    · next lexeme =>
      exact advances_entry .flowMappingValue inside (left_of_peek ahead (by simp [lexeme])) ahead
        (.of_ne (by decide) (by decide) (by decide)) made nofun nofun
    · next lexeme =>
      cases made
      obtain ⟨after, ready⟩ := inside.leave ahead (by simp [lexeme])
      exact ⟨_, _, .mappingEnd after, ready⟩
    · have later := inside.later
        (.of_ne (show Expecting.flowMappingEmptyValue.before ≠ [] by decide) (by decide) (by decide))
      exact advances_node later (le_refl _) made nofun nofun

private theorem Inside.enterNext (h : g.Inside m) (left : g.tokens ≠ []) (made : g.enterNext = .ok g') :
    g'.Inside m ∧ g'.around = g.around := by
  obtain ⟨t, ahead, made⟩ := except_bind_eq_ok_iff.1 made
  cases made
  obtain ⟨between, last, line⟩ := (h.skip left ahead).imp_right Inside.tokens
  exact ⟨h.of_tokens rfl ⟨last, line.of_le (le_trans between.after between.ordered)⟩, rfl⟩

private theorem advances_documentContent (h : g.Inside m) (stack : g.stack = [.documentEnd]) (first : m = default)
    (made : g.documentContent = .ok r) : Advances m g.around r := by
  subst first
  obtain ⟨t, ahead, made⟩ := except_bind_eq_ok_iff.1 made
  split at made
  · cases made
    obtain ⟨after, inside⟩ : default ≤ t.start ∧ g.Inside t.start := by
      by_cases none : g.tokens = []
      · refine ⟨Mark.default_le _, h.of_tokens rfl ⟨t.start, ?_⟩⟩
        rw [none]
        exact le_refl t.start
      · exact h.upto none ahead
    exact ⟨_, _, .scalar h.around_ne_nil after (le_refl _) fun _ => .inr rfl, inside.resume⟩
  · exact advances_node h (le_refl _) made (by simp [around, stack, Expecting.before]) nofun

/-- The first step in a collection passes its first mark. -/
private theorem advances_first {step : Grouper → Except Error (Event × Grouper)} {next : Opening} (h : g.Inside m)
    (left : g.tokens ≠ []) (made : g.enterNext.bind step = .ok r)
    (advances : ∀ g' : Grouper, g'.Inside m → step g' = .ok r → Advances m (next :: g'.around) r) :
    Advances m (next :: g.around) r := by
  obtain ⟨g₁, entered, made⟩ := except_bind_eq_ok_iff.1 made
  obtain ⟨inside, around⟩ := h.enterNext left entered
  rw [← around]
  exact advances g₁ inside made

/-- Inside a document a step goes on with it, as long as there are tokens. -/
theorem advances_step (h : g.Ready m l) (inner : g.expecting ≠ .documentEnd)
    (left : g.expecting ≠ .documentContent → g.tokens ≠ []) (made : g.step = .ok r) : Advances m l r := by
  cases h with
  | ended tokens expecting stack => exact absurd expecting inner
  | inner inside expects =>
    have root (none : g.expecting.within = []) :
        g.stack = [.documentEnd] ∧ (g.expecting = .blockNode ∨ g.expecting = .documentContent ∧ m = default) :=
      expects.state.resolve_left (not_not_intro none)
    rw [step] at made
    cases state : g.expecting with rw [state] at made inner left root
    | streamStart | firstDocument | document | nothing => simpa using root rfl
    | documentEnd => exact absurd rfl inner
    | documentContent =>
      obtain ⟨stack, isFirst⟩ := root rfl
      exact advances_documentContent inside stack (by simpa using isFirst) made
    | blockNode =>
      obtain ⟨stack, -⟩ := root rfl
      exact advances_node inside (le_refl _) made (by simp [around, stack, Expecting.before]) (by simp)
    | blockSequenceFirst => exact advances_first inside (left (by decide)) made fun _ => advances_blockSequenceEntry
    | blockSequenceEntry => exact advances_blockSequenceEntry inside made
    | indentlessEntry => exact advances_indentlessEntry inside (left (by decide)) (expects.indentless state) made
    | blockMappingFirst => exact advances_first inside (left (by decide)) made fun _ => advances_blockMappingKey
    | blockMappingKey => exact advances_blockMappingKey inside made
    | blockMappingValue =>
      exact advances_value .blockMappingKey inside (left (by decide)) (.of_ne (by decide) (by decide) (by decide)) made
        fun _ => .inl rfl
    | flowSequenceFirst => exact advances_first inside (left (by decide)) made fun _ => advances_flowSequenceEntry
    | flowSequenceEntry => exact advances_flowSequenceEntry inside made
    | flowPairKey =>
      obtain ⟨t, ahead, made⟩ := except_bind_eq_ok_iff.1 made
      exact advances_entry .flowPairValue inside (left (by decide)) ahead
        (.of_ne (by decide) (by decide) (by decide)) made
        (by simp [Expecting.before]) (by simp)
    | flowPairValue =>
      exact advances_value .flowPairEnd inside (left (by decide))
        (.of_ne (by decide) (by decide) (by decide)) made (by simp)
    | flowPairEnd =>
      obtain ⟨t, ahead, made⟩ := except_bind_eq_ok_iff.1 made
      cases made
      obtain ⟨after, inside⟩ := inside.upto (left (by decide)) ahead
      refine ⟨_, _, .mappingEnd after, ?_⟩
      exact inside.expect (.of_ne (show Expecting.flowSequenceEntry.before ≠ [] by decide) (by decide) (by decide))
    | flowMappingFirst => exact advances_first inside (left (by decide)) made fun _ => advances_flowMappingKey
    | flowMappingKey => exact advances_flowMappingKey inside made
    | flowMappingValue =>
      exact advances_value .flowMappingKey inside (left (by decide))
        (.of_ne (by decide) (by decide) (by decide)) made (by simp)
    | flowMappingEmptyValue =>
      obtain ⟨t, ahead, made⟩ := except_bind_eq_ok_iff.1 made
      cases made
      exact advances_emptyValue .flowMappingKey inside (left (by decide)) ahead
        (.of_ne (by decide) (by decide) (by decide))

/-! ### Texts that are not read to the end -/

/-- The machine is in a collection, without tokens. -/
structure Starved (g : Grouper) : Prop where
  tokens : g.tokens = []
  stacked : Stacked g.stack
  inner : g.expecting.within ≠ []
  indentless : g.expecting = .indentlessEntry → ∃ outer ∈ g.stack.head?, outer.isBlockMapping

private theorem Starved.expect {next : Expecting} (h : g.Starved) (inner : next.within ≠ [])
    (other : next ≠ .indentlessEntry) :
    (g.expect next).Starved :=
  ⟨h.tokens, h.stacked, inner, fun isOne => absurd isOne other⟩

private theorem flowSequenceEntry_of_nil {first : Bool} (none : g.tokens = []) : g.flowSequenceEntry first ≠ .ok r := by
  intro made
  obtain ⟨t, ahead, made⟩ := except_bind_eq_ok_iff.1 made
  rw [lexeme_of_nil none ahead] at made
  obtain ⟨g₁, comma, made⟩ := except_bind_eq_ok_iff.1 made
  have tokens : g₁.tokens = [] := List.suffix_nil.1 (none ▸ flowComma_suffix comma)
  obtain ⟨t, ahead, made⟩ := except_bind_eq_ok_iff.1 made
  rw [lexeme_of_nil tokens ahead] at made
  exact node_of_nil (g := g₁.later .flowSequenceEntry) tokens made

private theorem flowMappingKey_of_nil {first : Bool} (none : g.tokens = []) : g.flowMappingKey first ≠ .ok r := by
  intro made
  obtain ⟨t, ahead, made⟩ := except_bind_eq_ok_iff.1 made
  rw [lexeme_of_nil none ahead] at made
  obtain ⟨g₁, comma, made⟩ := except_bind_eq_ok_iff.1 made
  have tokens : g₁.tokens = [] := List.suffix_nil.1 (none ▸ flowComma_suffix comma)
  obtain ⟨t, ahead, made⟩ := except_bind_eq_ok_iff.1 made
  rw [lexeme_of_nil tokens ahead] at made
  exact node_of_nil (g := g₁.later .flowMappingEmptyValue) tokens made

private theorem blockSequenceEntry_of_nil (none : g.tokens = []) : g.blockSequenceEntry ≠ .ok r := by
  intro made
  obtain ⟨t, ahead, made⟩ := except_bind_eq_ok_iff.1 made
  rw [lexeme_of_nil none ahead] at made
  cases made

private theorem blockMappingKey_of_nil (none : g.tokens = []) : g.blockMappingKey ≠ .ok r := by
  intro made
  obtain ⟨t, ahead, made⟩ := except_bind_eq_ok_iff.1 made
  rw [lexeme_of_nil none ahead] at made
  cases made

/-- The first step in a collection has no tokens either. -/
private theorem first_of_nil {step : Grouper → Except Error (Event × Grouper)} (none : g.tokens = [])
    (fails : ∀ g' : Grouper, g'.tokens = [] → step g' ≠ .ok r) : g.enterNext.bind step ≠ .ok r := by
  intro made
  obtain ⟨g₁, entered, made⟩ := except_bind_eq_ok_iff.1 made
  obtain ⟨t, _, entered⟩ := except_bind_eq_ok_iff.1 entered
  cases entered
  refine fails _ ?_ made
  show g.tokens.drop 1 = []
  rw [none]
  rfl

private theorem Starved.value {stops : List Lexeme} {next : Expecting} {block indentless : Bool} (h : g.Starved)
    (inner : next.within ≠ []) (other : next ≠ .indentlessEntry)
    (made : (do
      let t ← g.peek
      match t.lexeme with
      | .value => g.skip.entry t stops next block indentless
      | _ => return (emptyScalar t.start, g.expect next)) = Except.ok r) : r.1 ≠ .documentEnd ∧ r.2.Starved := by
  obtain ⟨t, ahead, made⟩ := except_bind_eq_ok_iff.1 made
  rw [lexeme_of_nil h.tokens ahead] at made
  cases made
  exact ⟨by simp [emptyScalar], h.expect inner other⟩

/-- Without tokens, collections may end, but the document around them does not. -/
private theorem Starved.step (h : g.Starved) (made : g.step = .ok r) : r.1 ≠ .documentEnd ∧ r.2.Starved := by
  have none := h.tokens
  have inner := h.inner
  rw [Grouper.step] at made
  cases state : g.expecting with rw [state] at made inner
  | streamStart | firstDocument | document | nothing | documentEnd | documentContent | blockNode =>
    exact absurd rfl inner
  | blockSequenceFirst => exact absurd made (first_of_nil none fun _ => blockSequenceEntry_of_nil)
  | blockSequenceEntry => exact absurd made (blockSequenceEntry_of_nil none)
  | indentlessEntry =>
    obtain ⟨t, ahead, made⟩ := except_bind_eq_ok_iff.1 made
    rw [lexeme_of_nil none ahead] at made
    cases made
    obtain ⟨outer, isHead, isBlock⟩ := h.indentless state
    obtain ⟨rest, stack⟩ := List.head?_eq_some_iff.1 isHead
    have stacked := h.stacked
    rw [stack] at stacked
    rw [resume, stack]
    refine ⟨by simp, none, stacked.2.2.2, ?_, ?_⟩
    · rcases isBlock with rfl | rfl <;> exact List.cons_ne_nil _ _
    · rcases isBlock with rfl | rfl <;> simp
  | blockMappingFirst => exact absurd made (first_of_nil none fun _ => blockMappingKey_of_nil)
  | blockMappingKey => exact absurd made (blockMappingKey_of_nil none)
  | blockMappingValue => exact h.value (by decide) (by decide) made
  | flowSequenceFirst => exact absurd made (first_of_nil none fun _ => flowSequenceEntry_of_nil)
  | flowSequenceEntry => exact absurd made (flowSequenceEntry_of_nil none)
  | flowPairKey =>
    obtain ⟨t, ahead, made⟩ := except_bind_eq_ok_iff.1 made
    obtain ⟨t', ahead', made⟩ := except_bind_eq_ok_iff.1 made
    have tokens : g.skip.tokens = [] := by rw [skip, none]; rfl
    rw [lexeme_of_nil tokens ahead'] at made
    exact absurd made (node_of_nil (g := g.skip.later .flowPairValue) tokens)
  | flowPairValue => exact h.value (by decide) (by decide) made
  | flowPairEnd =>
    obtain ⟨t, ahead, made⟩ := except_bind_eq_ok_iff.1 made
    cases made
    exact ⟨by simp, h.expect (by decide) (by decide)⟩
  | flowMappingFirst => exact absurd made (first_of_nil none fun _ => flowMappingKey_of_nil)
  | flowMappingKey => exact absurd made (flowMappingKey_of_nil none)
  | flowMappingValue => exact h.value (by decide) (by decide) made
  | flowMappingEmptyValue =>
    obtain ⟨t, ahead, made⟩ := except_bind_eq_ok_iff.1 made
    cases made
    exact ⟨by simp [emptyScalar], h.expect (by decide) (by decide)⟩

private theorem Starved.not_mem_run (h : g.Starved) : .documentEnd ∉ (g.run fuel).events := by
  induction fuel generalizing g with
  | zero => exact List.not_mem_nil
  | succ fuel ih =>
    rw [run]
    split
    · exact List.not_mem_nil
    · next event next made =>
      obtain ⟨other, starved⟩ := h.step made
      split
      · exact fun mem => other (List.mem_singleton.1 mem).symm
      · exact fun mem => (List.mem_cons.1 mem).elim (fun same => other same.symm) (ih starved)

/-! ### Documents -/

/-- The machine is outside of documents. -/
structure Outside (g : Grouper) : Prop where
  tokens : ∃ last, InLine default g.tokens last
  stack : g.stack = []
  state : g.expecting = .streamStart ∨ g.expecting = .firstDocument ∨ g.expecting = .document ∨ g.expecting = .nothing

private theorem stack_of_directives {versioned : Bool} {handles : List (String × String)} {tokens : List Token}
    (made : g.directives versioned handles tokens = .ok g') : g'.stack = g.stack := by
  induction tokens generalizing versioned handles with
  | nil =>
    cases made
    rfl
  | cons t tokens ih =>
    obtain ⟨lexeme, start, stop⟩ := t
    cases lexeme with
    | directive d =>
      unfold directives at made
      cases d with
      | version major minor =>
        dsimp only at made
        split at made
        · cases made
        · split at made
          · cases made
          · exact ih made
      | handle name expansion =>
        dsimp only at made
        split at made
        · cases made
        · exact ih made
      | other name => exact ih made
    | _ =>
      cases made
      rfl

/-- A document starts with its root. -/
private theorem ready_root (tokens : ∃ last, InLine default g.tokens last) (stack : g.stack = [])
    (isRoot : e = .blockNode ∨ e = .documentContent) : ((g.later .documentEnd).expect e).Ready default [.root] := by
  have pushed : ((g.later .documentEnd).expect e).stack = [.documentEnd] := by
    show Expecting.documentEnd :: g.stack = _
    rw [stack]
  have inside : ((g.later .documentEnd).expect e).Inside default := by
    refine ⟨tokens, ?_, by rw [pushed]; exact List.cons_ne_nil _ _⟩
    rw [pushed]
    exact ⟨by decide, ⟨fun _ => rfl, fun _ => rfl⟩, nofun, trivial⟩
  have ready := Ready.inner inside ⟨.inr ⟨pushed, isRoot.imp id fun isContent => ⟨isContent, rfl⟩⟩, ?_⟩
  · rw [around, pushed] at ready
    rcases isRoot with rfl | rfl <;> exact ready
  · rcases isRoot with rfl | rfl <;> nofun

/-- Outside of documents a step starts one, or stays outside. -/
private theorem Outside.step (h : g.Outside) (made : g.step = .ok r) :
    r.1 = .documentStart ∧ r.2.Ready default [.root] ∨ r.1 = .streamEnd ∨ r.1 ≠ .documentStart ∧ r.2.Outside := by
  obtain ⟨⟨last, line⟩, stack, state⟩ := h
  have starts (made : g.documentStart = .ok r) :
      r.1 = .documentStart ∧ r.2.Ready default [.root] ∨ r.1 = .streamEnd := by
    have ends : g.skipDocumentEnds.tokens <:+ g.tokens := List.dropWhile_suffix _
    obtain ⟨t, ahead, made⟩ := except_bind_eq_ok_iff.1 made
    split at made
    · cases made
      exact .inr rfl
    · obtain ⟨g₁, directed, made⟩ := except_bind_eq_ok_iff.1 made
      obtain ⟨t, ahead, made⟩ := except_bind_eq_ok_iff.1 made
      split at made
      · cases made
      · cases made
        have part := ((skip_suffix g₁).trans (directives_suffix directed)).trans ends
        exact .inl ⟨rfl, ready_root (g := g₁.skip) ⟨last, line.of_suffix part⟩
          ((stack_of_directives directed).trans stack)
          (.inr rfl)⟩
  rw [Grouper.step] at made
  rcases state with state | state | state | state <;> rw [state] at made
  · cases made
    exact .inr (.inr ⟨by simp, ⟨last, line.of_suffix (skip_suffix g)⟩, stack, .inr (.inl rfl)⟩)
  · obtain ⟨t, ahead, made⟩ := except_bind_eq_ok_iff.1 made
    split at made
    · exact (starts made).imp_right .inl
    · cases made
      exact .inl ⟨rfl, ready_root (g := { g with handles := defaultHandles }) ⟨last, line⟩ stack (.inl rfl)⟩
  · exact (starts made).imp_right .inl
  · cases made
    exact .inr (.inl rfl)

/-- After a document the machine is outside. -/
private theorem Ready.documentEnd (h : g.Ready m l) (state : g.expecting = .documentEnd) (made : g.step = .ok r) :
    r.1 = .documentEnd ∧ r.2.Outside := by
  obtain ⟨⟨last, line⟩, stack⟩ : (∃ last, InLine m g.tokens last) ∧ g.stack = [] := by
    cases h with
    | ended tokens expecting stack => exact ⟨tokens, stack⟩
    | inner inside expects =>
      rcases expects.state with inner | ⟨_, other | ⟨other, _⟩⟩
      · rw [state] at inner
        exact absurd rfl inner
      · rw [state] at other
        cases other
      · rw [state] at other
        cases other
  rw [step, state] at made
  have part := (takes_documentEnd made).rest
  obtain ⟨t, ahead, made⟩ := except_bind_eq_ok_iff.1 made
  cases made
  refine ⟨rfl, ⟨last, line.of_suffix part⟩, ?_, .inr (.inr (.inl rfl))⟩
  dsimp only [expect]
  split <;> exact stack

/-! ### Runs -/

theorem proper_none_cons {event : Event} {rest : List Event} (other : event ≠ .documentStart) :
    Proper none (event :: rest) = Proper none rest := by
  cases event <;> first | rfl | exact absurd rfl other

theorem proper_some_cons {event : Event} {rest : List Event} (other : event ≠ .documentEnd) :
    Proper (some (m, l)) (event :: rest) =
      ((∃ m' l', event.GoesOn m l m' l' ∧ Proper (some (m', l')) rest) ∨ .documentEnd ∉ rest) := by
  cases event <;> first | rfl | exact absurd rfl other

private theorem proper_of_not_mem {events : List Event} (h : .documentEnd ∉ events) : Proper (some (m, l)) events := by
  cases events with
  | nil => trivial
  | cons event rest =>
    rw [List.mem_cons, not_or] at h
    rw [proper_some_cons (Ne.symm h.1)]
    exact .inr h.2

theorem not_mem_run_of_nil (h : g.Ready m l) (inner : g.expecting ≠ .documentEnd)
    (other : g.expecting ≠ .documentContent) (none : g.tokens = []) : .documentEnd ∉ (g.run fuel).events := by
  cases h with
  | ended tokens expecting stack => exact absurd expecting inner
  | inner inside expects =>
    rcases expects.state with collection | ⟨_, state | ⟨state, _⟩⟩
    · exact Starved.not_mem_run ⟨none, inside.stacked, collection, expects.indentless⟩
    · cases fuel with
      | zero => exact List.not_mem_nil
      | succ fuel =>
        rw [run, step, state]
        dsimp only
        split
        · exact List.not_mem_nil
        · next made => exact absurd made (node_of_nil none)
    · exact absurd state other

/-- The events of a run are those of documents that go on up to their ends. -/
private theorem proper_run : (g.Outside → Proper none (g.run fuel).events) ∧
    ∀ m l, g.Ready m l → Proper (some (m, l)) (g.run fuel).events := by
  induction fuel generalizing g with
  | zero => exact ⟨fun _ => trivial, fun _ _ _ => trivial⟩
  | succ fuel ih =>
    constructor
    · intro outside
      rw [run]
      split
      · trivial
      · next event next made =>
        rcases outside.step made with ⟨rfl, ready⟩ | rfl | ⟨other, outside⟩
        · exact (ih (g := next)).2 _ _ ready
        · trivial
        · split
          · rw [proper_none_cons other]
            trivial
          · rw [proper_none_cons other]
            exact ih.1 outside
    · intro m l ready
      by_cases ends : g.expecting = .documentEnd
      · rw [run]
        split
        · trivial
        · next event next made =>
          obtain ⟨rfl, outside⟩ := ready.documentEnd ends made
          exact ih.1 outside
      · by_cases left : g.expecting ≠ .documentContent → g.tokens ≠ []
        · rw [run]
          split
          · trivial
          · next event next made =>
            obtain ⟨m', l', goesOn, ready⟩ := advances_step ready ends left made
            have other : event ≠ .documentEnd := by
              rintro rfl
              cases goesOn
            split <;> rw [proper_some_cons other]
            · exact .inr List.not_mem_nil
            · exact .inl ⟨m', l', goesOn, ih.2 m' l' ready⟩
        · rw [Classical.not_imp, not_not] at left
          exact proper_of_not_mem (not_mem_run_of_nil ready ends left.1 left.2)

end Grouper

/-- The events of tokens that stand in line are those of documents that go on up to their ends. -/
theorem EventStream.proper_ofTokens {stream : TokenStream} (line : ∃ last, InLine default stream.tokens last) :
    Proper none (EventStream.ofTokens stream).events := by
  rw [EventStream.ofTokens]
  generalize 4 * stream.tokens.length + 16 = fuel
  exact Grouper.proper_run.1 ⟨line, rfl, .inl rfl⟩

end ManifestLens.Yaml
