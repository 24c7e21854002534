import ManifestLens.Proofs.Yaml.Scanning
import Mathlib.Order.Defs.PartialOrder

/-!
# Tokens in the order of their text

The tokens of a text stand in it one after the other (`TokenStream.inLine_ofText`).  They are read in this order, but a
key mark is put in before tokens that were read already.  So each token that may still become a key has its place
between the tokens, and those of the collections around it have theirs before (`Scanner.Orderly`).
-/

namespace ManifestLens.Yaml

variable {lexeme : Lexeme} {after c d : Cursor}

/-! ### The order of marks -/

/-- Marks are ordered by line, then by column. -/
instance : Preorder Mark where
  le a b := a.line < b.line ∨ a.line = b.line ∧ a.column ≤ b.column
  lt a b := a.line < b.line ∨ a.line = b.line ∧ a.column < b.column
  le_refl a := .inr ⟨rfl, Nat.le_refl _⟩
  le_trans a b c := by omega
  lt_iff_le_not_ge a b := by omega

theorem Mark.le_def {a b : Mark} : a ≤ b ↔ a.line < b.line ∨ a.line = b.line ∧ a.column ≤ b.column :=
  Iff.rfl

theorem Mark.lt_def {a b : Mark} : a < b ↔ a.line < b.line ∨ a.line = b.line ∧ a.column < b.column :=
  Iff.rfl

theorem Mark.default_le (m : Mark) : default ≤ m := by
  rw [le_def]
  show 0 < m.line ∨ 0 = m.line ∧ 0 ≤ m.column
  omega

private theorem Cursor.mark_le_next (c : Cursor) : c.mark ≤ c.next.mark := by
  cases ahead : c.rest with
  | nil => rw [next_of_nil ahead]
  | cons a rest =>
    rw [next_of_rest ahead, Mark.le_def]
    by_cases ends : endsLine a (rest.head?.getD '\x00') = true
    · rw [Mark.after_of_endsLine ends]
      exact .inl (Nat.lt_succ_self _)
    · rw [Mark.after_of_not_endsLine ends]
      exact .inr ⟨rfl, Nat.le_add_right _ _⟩

/-- A colon takes a place on its line. -/
private theorem Cursor.mark_lt_next (colon : c.head = ':') : c.mark < c.next.mark := by
  obtain ⟨rest, ahead⟩ := c.exists_rest (by rw [colon]; decide)
  rw [colon] at ahead
  obtain ⟨line, column⟩ := (Passes.single ahead).mark_of_noBreak (by decide)
  have one : [':'].countP (· != '\ufeff') = 1 := by decide
  rw [Mark.lt_def]
  omega

private theorem Reaches.mark_le (h : Reaches c d) : c.mark ≤ d.mark := by
  obtain ⟨passed, passes⟩ := h
  induction passes with
  | here c => exact le_refl c.mark
  | char _ _ ih => exact le_trans (Cursor.mark_le_next _) ih

/-! ### Tokens one after the other -/

/-- The token stands between two marks, and a colon takes a place there. -/
structure Token.Between (first : Mark) (t : Token) (last : Mark) : Prop where
  after : first ≤ t.start
  ordered : t.start ≤ t.stop
  colon : t.lexeme = .value → t.start < t.stop
  before : t.stop ≤ last

/-- The tokens stand one after the other between two marks. -/
def InLine (first : Mark) : List Token → Mark → Prop
  | [], last => first ≤ last
  | t :: rest, last => t.Between first t.stop ∧ InLine t.stop rest last

namespace InLine

variable {first last mid other : Mark} {tokens more : List Token} {t : Token}

theorem of_le (h : InLine first tokens last) (le : other ≤ first) : InLine other tokens last := by
  cases tokens with
  | nil => exact le_trans le h
  | cons t rest => exact ⟨⟨le_trans le h.1.after, h.1.ordered, h.1.colon, h.1.before⟩, h.2⟩

private theorem le (h : InLine first tokens last) : first ≤ last := by
  induction tokens generalizing first with
  | nil => exact h
  | cons t rest ih => exact le_trans (le_trans h.1.after h.1.ordered) (ih h.2)

theorem append_iff :
    InLine first (tokens ++ more) last ↔ ∃ mid, InLine first tokens mid ∧ InLine mid more last := by
  induction tokens generalizing first with
  | nil =>
    constructor
    · intro h
      exact ⟨first, le_refl first, h⟩
    · rintro ⟨mid, le, h⟩
      exact h.of_le le
  | cons t rest ih =>
    constructor
    · rintro ⟨here, h⟩
      obtain ⟨mid, rest, more⟩ := ih.1 h
      exact ⟨mid, ⟨here, rest⟩, more⟩
    · rintro ⟨mid, ⟨here, rest⟩, more⟩
      exact ⟨here, ih.2 ⟨mid, rest, more⟩⟩

private theorem upto (h : InLine first tokens last) (le : last ≤ other) : InLine first tokens other := by
  have whole : InLine first (tokens ++ []) other := append_iff.2 ⟨last, h, le⟩
  rwa [List.append_nil] at whole

private theorem concat (h : InLine first tokens mid) (here : t.Between mid last) : InLine first (tokens ++ [t]) last :=
  append_iff.2 ⟨mid, h, ⟨here.after, here.ordered, here.colon, le_refl _⟩, here.before⟩

/-- Where tokens start is one thing and where they end another. -/
private theorem cross {start : Mark} (h : InLine first tokens last) (other : InLine start tokens mid)
    (le : first ≤ mid) :
    InLine first tokens mid := by
  cases tokens with
  | nil => exact le
  | cons t rest => exact ⟨h.1, other.2⟩

end InLine

/-! ### Open keys -/

/-- The open key stands between the tokens before its number and those from there on. -/
def OpenKey.Divides (key : OpenKey) (tokens : List Token) (last : Mark) : Prop :=
  ∃ before after, tokens = before ++ after ∧ before.length = key.number ∧ InLine default before key.mark ∧
    InLine key.mark after last

namespace OpenKey.Divides

variable {key outer : OpenKey} {tokens : List Token} {last other : Mark} {t : Token}

private theorem upto (h : key.Divides tokens last) (le : last ≤ other) : key.Divides tokens other := by
  obtain ⟨before, after, split, number, first, second⟩ := h
  exact ⟨before, after, split, number, first, second.upto le⟩

private theorem concat (h : key.Divides tokens last) (here : t.Between last other) :
    key.Divides (tokens ++ [t]) other := by
  obtain ⟨before, after, rfl, number, first, second⟩ := h
  exact ⟨before, after ++ [t], by rw [List.append_assoc], number, first, second.concat here⟩

private theorem mark_le (h : key.Divides tokens last) : key.mark ≤ last := by
  obtain ⟨before, after, -, -, -, second⟩ := h
  exact second.le

private theorem inLine (h : key.Divides tokens last) : InLine default tokens last := by
  obtain ⟨before, after, rfl, -, first, second⟩ := h
  exact InLine.append_iff.2 ⟨key.mark, first, second⟩

/-- A mark may be put in where the open key stands. -/
private theorem insert (h : key.Divides tokens last) (noColon : lexeme ≠ .value) :
    key.Divides (tokens.take key.number ++ ⟨lexeme, key.mark, key.mark⟩ :: tokens.drop key.number) last := by
  obtain ⟨before, after, rfl, number, first, second⟩ := h
  rw [← number, List.take_left, List.drop_left]
  exact ⟨before, _, rfl, number, first, ⟨le_refl _, le_refl _, fun colon => absurd colon noColon, le_refl _⟩, second⟩

/-- The open keys before it keep their places. -/
private theorem insert_inner (h : outer.Divides tokens last) (inner : key.Divides tokens last)
    (noColon : lexeme ≠ .value) (numbers : outer.number ≤ key.number) (marks : outer.mark ≤ key.mark) :
    outer.Divides (tokens.take key.number ++ ⟨lexeme, key.mark, key.mark⟩ :: tokens.drop key.number) last := by
  obtain ⟨before, after, rfl, number, first, second⟩ := inner
  obtain ⟨before', after', split, number', first', second'⟩ := h
  rw [← number, List.take_left, List.drop_left]
  obtain ⟨between, isBefore, isAfter⟩ : ∃ between, before = before' ++ between ∧ after' = between ++ after := by
    rw [List.append_eq_append_iff] at split
    rcases split with ⟨between, isBefore', isAfter⟩ | ⟨between, isBefore, isAfter'⟩
    · have none : between = [] := by
        rw [isBefore', List.length_append] at number'
        exact List.eq_nil_of_length_eq_zero (by omega)
      subst none
      exact ⟨[], by simp [isBefore'], by simp [isAfter]⟩
    · exact ⟨between, isBefore, isAfter'⟩
  subst isBefore isAfter
  -- what stands between the two keys ends where the inner one does
  obtain ⟨_, starts, -⟩ := InLine.append_iff.1 second'
  obtain ⟨_, -, ends⟩ := InLine.append_iff.1 first
  refine ⟨before', _, List.append_assoc .., number', first',
    InLine.append_iff.2 ⟨key.mark, starts.cross ends marks, ?_⟩⟩
  exact ⟨⟨le_refl _, le_refl _, fun colon => absurd colon noColon, le_refl _⟩, second⟩

end OpenKey.Divides

/-! ### Steps of the scanner -/

namespace Scanner

variable {s s' : Scanner} {t : Token}

/-- The tokens so far stand one after the other before the cursor, and the open keys between them.  An open key of an
inner collection comes after those of the collections around it. -/
structure Orderly (s : Scanner) : Prop where
  tokens : InLine default s.tokens.toList s.mark
  keys : ∀ k ∈ s.openKeys, k.1 ≤ s.depth ∧ k.2.Divides s.tokens.toList s.mark
  nested : s.openKeys.Pairwise fun a b => a.1 < b.1 ∧ a.2.number ≤ b.2.number ∧ a.2.mark ≤ b.2.mark

/-- The scanner is at the same place with the same tokens, and with no new open keys. -/
structure Trims (s s' : Scanner) : Prop where
  tokens : s'.tokens = s.tokens
  cursor : s'.cursor = s.cursor
  depth : s'.depth = s.depth
  keys : s'.openKeys.Sublist s.openKeys

private theorem closeStale_trims (made : s.closeStale = .ok s') : s.Trims s' := by
  rw [closeStale] at made
  split at made <;> cases made
  exact ⟨rfl, rfl, rfl, List.filter_sublist⟩

/-- No key of the current depth is left open. -/
private theorem closeKey_trims (made : s.closeKey = .ok s') : s.Trims s' ∧ ∀ k ∈ s'.openKeys, k.1 ≠ s.depth := by
  rw [closeKey] at made
  split at made
  · next none =>
    cases made
    refine ⟨⟨rfl, rfl, rfl, .refl _⟩, fun k mem same => ?_⟩
    have other := List.lookup_eq_none_iff.1 none k mem
    simp [same] at other
  · split at made <;> cases made
    refine ⟨⟨rfl, rfl, rfl, List.filter_sublist⟩, fun k mem => ?_⟩
    exact bne_iff_ne.1 (List.mem_filter.1 mem).2

namespace Orderly

private theorem start (text : List Char) : (start text).Orderly where
  tokens := ⟨⟨le_refl _, le_refl _, fun colon => (by cases colon), le_refl _⟩, le_refl _⟩
  keys := List.forall_mem_nil _
  nested := .nil

/-- The cursor moves on, and open keys are closed. -/
private theorem move (h : s.Orderly) (tokens : s'.tokens = s.tokens) (mark : s.mark ≤ s'.mark)
    (keys : s'.openKeys.Sublist s.openKeys) (depth : ∀ k ∈ s'.openKeys, k.1 ≤ s'.depth) : s'.Orderly where
  tokens := by
    rw [tokens]
    exact h.tokens.upto mark
  keys := by
    intro k mem
    rw [tokens]
    exact ⟨depth k mem, (h.keys k (keys.subset mem)).2.upto mark⟩
  nested := h.nested.sublist keys

private theorem trim (h : s.Orderly) (trims : s.Trims s') : s'.Orderly := by
  refine h.move trims.tokens ?_ trims.keys fun k mem => ?_
  · rw [mark, mark, trims.cursor]
  · rw [trims.depth]
    exact (h.keys k (trims.keys.subset mem)).1

/-- A token is added, and the cursor passes it. -/
private theorem add (h : s.Orderly) (tokens : s'.tokens = s.tokens.push t) (here : t.Between s.mark s'.mark)
    (keys : s'.openKeys = s.openKeys) (depth : s'.depth = s.depth) : s'.Orderly where
  tokens := by
    rw [tokens, Array.toList_push]
    exact h.tokens.concat here
  keys := by
    rw [tokens, Array.toList_push, keys, depth]
    exact fun k mem => ⟨(h.keys k mem).1, (h.keys k mem).2.concat here⟩
  nested := keys ▸ h.nested

private theorem push (h : s.Orderly) (noColon : lexeme ≠ .value) : (s.push lexeme).Orderly :=
  h.add rfl ⟨le_refl _, le_refl _, fun colon => absurd colon noColon, le_refl _⟩ rfl rfl

private theorem take (h : s.Orderly) {size : Nat} (colon : lexeme = .value → s.mark < (s.cursor.advance size).mark) :
    (s.take lexeme size).Orderly :=
  h.add rfl ⟨le_refl _, (Reaches.advance s.cursor size).mark_le, colon, le_refl _⟩ rfl rfl

private theorem accept (h : s.Orderly) (here : t.Between s.mark after.mark) : (s.accept (t, after)).Orderly :=
  h.add rfl here rfl rfl

/-- The keys that are left after the one of the current depth is closed are further out. -/
private theorem closeKey (h : s.Orderly) (made : s.closeKey = .ok s') :
    s'.Orderly ∧ ∀ k ∈ s'.openKeys, k.1 < s'.depth := by
  obtain ⟨trims, other⟩ := closeKey_trims made
  have closed := h.trim trims
  refine ⟨closed, fun k mem => ?_⟩
  have upto := (closed.keys k mem).1
  have := other k mem
  rw [← trims.depth] at this
  omega

private theorem openKey (h : s.Orderly) (made : s.openKey = .ok s') : s'.Orderly := by
  rw [Scanner.openKey] at made
  split at made
  · cases closed : s.closeKey with
    | error e =>
      rw [closed] at made
      cases made
    | ok s₁ =>
      rw [closed] at made
      cases made
      obtain ⟨orderly, outside⟩ := h.closeKey closed
      refine ⟨orderly.tokens, ?_, ?_⟩
      · refine List.forall_mem_append.2 ⟨orderly.keys, List.forall_mem_singleton.2 ⟨Int.le_refl _, ?_⟩⟩
        exact ⟨s₁.tokens.toList, [], (List.append_nil _).symm, by simp, orderly.tokens, le_refl _⟩
      · refine List.pairwise_append.2 ⟨orderly.nested, List.pairwise_singleton _ _, ?_⟩
        intro k mem new isNew
        rw [List.mem_singleton] at isNew
        subst isNew
        obtain ⟨-, divides⟩ := orderly.keys k mem
        refine ⟨outside k mem, ?_, divides.mark_le⟩
        obtain ⟨before, after, split, number, -⟩ := divides
        have length := congrArg List.length split
        rw [List.length_append, number, Array.length_toList] at length
        show k.2.number ≤ s₁.tokens.size
        omega
  · cases made
    exact h

private theorem unwindFrom {column indent : Int} {outer : List Int} (h : s.Orderly) :
    (s.unwindFrom column indent outer).Orderly := by
  induction outer generalizing s indent with
  | nil => exact h.trim ⟨rfl, rfl, rfl, .refl _⟩
  | cons previous outer ih =>
    rw [Scanner.unwindFrom]
    split
    · exact ih (h.push (by decide))
    · exact h.trim ⟨rfl, rfl, rfl, .refl _⟩

private theorem unwind (h : s.Orderly) (column : Int) : (s.unwind column).Orderly := by
  rw [Scanner.unwind]
  split
  · exact h
  · exact h.unwindFrom

private theorem blockStart {problem : Problem} (h : s.Orderly) (noColon : lexeme ≠ .value)
    (made : s.blockStart lexeme problem = .ok s') : s'.Orderly ∧ s'.cursor = s.cursor := by
  rw [Scanner.blockStart] at made
  split at made
  · cases made
    exact ⟨h, rfl⟩
  · split at made
    · cases made
    · split at made
      · next indented =>
        cases made
        rw [indentTo?] at indented
        split at indented <;> cases indented
        refine ⟨push ?_ noColon, rfl⟩
        exact h.trim ⟨rfl, rfl, rfl, .refl _⟩
      · cases made
        exact ⟨h, rfl⟩

/-! ### Key marks -/

private theorem toList_insert (s : Scanner) (number : Nat) (t : Token) :
    (s.insert number t).tokens.toList = s.tokens.toList.take number ++ t :: s.tokens.toList.drop number := by
  simp [Scanner.insert, List.take_of_length_le]

/-- A mark is put in where a key stands that comes after all open ones. -/
private theorem insert {key : OpenKey} (h : s.Orderly) (divides : key.Divides s.tokens.toList s.mark)
    (outside : ∀ k ∈ s.openKeys, k.2.number ≤ key.number ∧ k.2.mark ≤ key.mark) (noColon : lexeme ≠ .value) :
    (s.insert key.number ⟨lexeme, key.mark, key.mark⟩).Orderly ∧
      key.Divides (s.insert key.number ⟨lexeme, key.mark, key.mark⟩).tokens.toList s.mark := by
  have inserted := divides.insert noColon
  rw [← toList_insert] at inserted
  refine ⟨⟨inserted.inLine, fun k mem => ⟨(h.keys k mem).1, ?_⟩, h.nested⟩, inserted⟩
  rw [toList_insert]
  exact (h.keys k mem).2.insert_inner divides noColon (outside k mem).1 (outside k mem).2

/-- The open key of the current depth comes after all others. -/
private theorem outside_of_lookup {key : OpenKey} (h : s.Orderly) (found : s.openKeys.lookup s.depth = some key) :
    key.Divides s.tokens.toList s.mark ∧
      ∀ k ∈ s.openKeys.filter (fun k => k.1 != s.depth), k.2.number ≤ key.number ∧ k.2.mark ≤ key.mark := by
  obtain ⟨before, after, split, -⟩ := List.lookup_eq_some_iff.1 found
  have isOpen : (s.depth, key) ∈ s.openKeys := by simp [split]
  refine ⟨(h.keys _ isOpen).2, fun k mem => ?_⟩
  obtain ⟨mem, other⟩ := List.mem_filter.1 mem
  have upto := (h.keys k mem).1
  have nested := h.nested
  rw [split, List.pairwise_append] at nested
  rw [split, List.mem_append, List.mem_cons] at mem
  rcases mem with earlier | rfl | later
  · exact (nested.2.2 k earlier _ List.mem_cons_self).2
  · simp at other
  · have deeper := (List.pairwise_cons.1 nested.2.1).1 k later
    exact absurd deeper.1 (by simpa using upto)

private theorem settleKey {key : OpenKey} (h : s.Orderly) (found : s.openKeys.lookup s.depth = some key) :
    (s.settleKey key).Orderly ∧ (s.settleKey key).cursor = s.cursor := by
  obtain ⟨divides, outside⟩ := h.outside_of_lookup found
  let closed : Scanner := { s with openKeys := s.openKeys.filter fun k => k.1 != s.depth }
  have kept : closed.Orderly := h.trim ⟨rfl, rfl, rfl, List.filter_sublist⟩
  obtain ⟨marked, divides⟩ := kept.insert divides outside (show Lexeme.key ≠ .value by decide)
  have settled (s₁ : Scanner) (h : s₁.Orderly ∧ s₁.cursor = s.cursor) :
      Orderly { s₁ with keyAllowed := false } ∧ s₁.cursor = s.cursor :=
    ⟨h.1.trim ⟨rfl, rfl, rfl, .refl _⟩, h.2⟩
  refine settled (if closed.inFlow then closed.insert key.number ⟨.key, key.mark, key.mark⟩ else _) ?_
  split
  · exact ⟨marked, rfl⟩
  · split
    · next indented =>
      rw [indentTo?] at indented
      split at indented <;> cases indented
      have deeper : Orderly { closed.insert key.number ⟨.key, key.mark, key.mark⟩ with
          outer := closed.indent :: closed.outer, indent := key.mark.column } :=
        marked.trim ⟨rfl, rfl, rfl, .refl _⟩
      exact ⟨(deeper.insert divides outside (show Lexeme.blockMappingStart ≠ .value by decide)).1, rfl⟩
    · exact ⟨marked, rfl⟩

/-! ### Tokens one by one -/

/-- A mark after which the open key of the current depth is closed. -/
private theorem closing {lexeme : Lexeme} {s₁ : Scanner} (h : s.Orderly) (closed : s.closeKey = .ok s')
    (trims : s'.Trims s₁) (colon : lexeme = .value → s.cursor.head = ':') : (s₁.take lexeme 1).Orderly := by
  refine ((h.closeKey closed).1.trim trims).take fun isColon => ?_
  rw [mark, trims.cursor, (closeKey_trims closed).1.cursor]
  exact Cursor.mark_lt_next (colon isColon)

private theorem streamEnd (h : s.Orderly) (made : s.streamEnd = .ok s') : s'.Orderly := by
  obtain ⟨s₁, closed, made⟩ := except_bind_eq_ok_iff.1 made
  cases made
  have ended : Orderly { s₁ with keyAllowed := false, openKeys := [] } :=
    ((h.unwind (-1)).closeKey closed).1.trim ⟨rfl, rfl, rfl, List.nil_sublist _⟩
  exact (ended.push (by decide)).trim ⟨rfl, rfl, rfl, .refl _⟩

private theorem betweenDocuments (h : s.Orderly) (made : s.betweenDocuments = .ok s') :
    s'.Orderly ∧ s'.cursor = s.cursor := by
  obtain ⟨s₁, closed, made⟩ := except_bind_eq_ok_iff.1 made
  cases made
  refine ⟨((h.unwind (-1)).closeKey closed).1.trim ⟨rfl, rfl, rfl, .refl _⟩, ?_⟩
  exact (closeKey_trims closed).1.cursor.trans (cursor_unwind (-1))

private theorem flowStart (h : s.Orderly) (noColon : lexeme ≠ .value) (made : s.flowStart lexeme = .ok s') :
    s'.Orderly := by
  obtain ⟨s₁, opened, made⟩ := except_bind_eq_ok_iff.1 made
  cases made
  have orderly := h.openKey opened
  refine take (s := { s₁ with depth := s₁.depth + 1, keyAllowed := true }) ?_ fun colon => absurd colon noColon
  refine orderly.move rfl (le_refl _) (.refl _) fun k mem => ?_
  have := (orderly.keys k mem).1
  show k.1 ≤ s₁.depth + 1
  omega

private theorem flowEnd (h : s.Orderly) (noColon : lexeme ≠ .value) (made : s.flowEnd lexeme = .ok s') :
    s'.Orderly := by
  obtain ⟨s₁, closed, made⟩ := except_bind_eq_ok_iff.1 made
  cases made
  obtain ⟨orderly, outside⟩ := h.closeKey closed
  refine take (s := { s₁ with depth := s₁.depth - 1, keyAllowed := false }) ?_ fun colon => absurd colon noColon
  refine orderly.move rfl (le_refl _) (.refl _) fun k mem => ?_
  have := outside k mem
  show k.1 ≤ s₁.depth - 1
  omega

private theorem flowEntry (h : s.Orderly) (made : s.flowEntry = .ok s') : s'.Orderly := by
  obtain ⟨s₁, closed, made⟩ := except_bind_eq_ok_iff.1 made
  cases made
  exact h.closing closed ⟨rfl, rfl, rfl, .refl _⟩ fun colon => by cases colon

private theorem blockEntry (h : s.Orderly) (made : s.blockEntry = .ok s') : s'.Orderly := by
  obtain ⟨s₁, started, made⟩ := except_bind_eq_ok_iff.1 made
  obtain ⟨s₂, closed, made⟩ := except_bind_eq_ok_iff.1 made
  cases made
  exact (h.blockStart (by decide) started).1.closing closed ⟨rfl, rfl, rfl, .refl _⟩ fun colon => by cases colon

private theorem keyMark (h : s.Orderly) (made : s.keyMark = .ok s') : s'.Orderly := by
  obtain ⟨s₁, started, made⟩ := except_bind_eq_ok_iff.1 made
  obtain ⟨s₂, closed, made⟩ := except_bind_eq_ok_iff.1 made
  cases made
  exact (h.blockStart (by decide) started).1.closing closed ⟨rfl, rfl, rfl, .refl _⟩ fun colon => by cases colon

private theorem valueMark (h : s.Orderly) (colon : s.cursor.head = ':') (made : s.valueMark = .ok s') : s'.Orderly := by
  rw [Scanner.valueMark] at made
  split at made
  · next key found =>
    cases made
    obtain ⟨settled, cursor⟩ := h.settleKey found
    refine settled.take fun _ => ?_
    rw [mark, cursor]
    exact Cursor.mark_lt_next colon
  · obtain ⟨s₁, started, made⟩ := except_bind_eq_ok_iff.1 made
    obtain ⟨s₂, closed, made⟩ := except_bind_eq_ok_iff.1 made
    cases made
    obtain ⟨orderly, cursor⟩ := h.blockStart (by decide) started
    exact orderly.closing closed ⟨rfl, rfl, rfl, .refl _⟩ fun _ => cursor ▸ colon

private theorem cursor_of_openKey (made : s.openKey = .ok s') : s'.cursor = s.cursor := by
  rw [Scanner.openKey] at made
  split at made
  · cases closed : s.closeKey with
    | error e =>
      rw [closed] at made
      cases made
    | ok s₁ =>
      rw [closed] at made
      cases made
      exact (closeKey_trims closed).1.cursor
  · cases made
    rfl

private theorem openToken {read : Cursor → Except Error (Token × Cursor)} (h : s.Orderly)
    (here : ∀ t after, read s.cursor = .ok (t, after) → t.Between s.mark after.mark)
    (made : s.openToken read = .ok s') : s'.Orderly := by
  obtain ⟨s₁, opened, made⟩ := except_bind_eq_ok_iff.1 made
  obtain ⟨⟨t, after⟩, found, made⟩ := except_bind_eq_ok_iff.1 made
  cases made
  have cursor := cursor_of_openKey opened
  rw [cursor] at found
  refine accept (s := { s₁ with keyAllowed := false }) ((h.openKey opened).trim ⟨rfl, rfl, rfl, .refl _⟩) ?_
  have between := here t after found
  rwa [mark, ← cursor] at between

end Orderly

end Scanner

/-! ### Reading tokens -/

private theorem LineTokenAt.between {t : Token} (h : LineTokenAt c t after) : t.Between c.mark after.mark := by
  obtain ⟨-, start, noColon, d, stays, stop, further⟩ := h
  refine ⟨le_of_eq start.symm, ?_, fun colon => absurd colon noColon, ?_⟩
  · rw [start, ← stop]
    exact stays.reaches.mark_le
  · rw [← stop]
    exact further.mark_le

private theorem ScalarAt.between {t : Token} (h : ScalarAt c t after) : t.Between c.mark after.mark := by
  obtain ⟨start, text, style, stop, space, lexeme, spelled, stops, further⟩ := h
  refine ⟨le_of_eq start.symm, ?_, fun colon => ?_, ?_⟩
  · rw [start, ← stops]
    exact spelled.reaches.mark_le
  · rw [lexeme] at colon
    cases colon
  · rw [← stops]
    exact further.reaches.mark_le

namespace Scanner

variable {text : List Char} {s s' : Scanner}

namespace Orderly

private theorem blockScalar {folded : Bool} (h : s.Orderly) (allowed : IsAllowed s.cursor.rest)
    (mark : s.cursor.head ≠ '\x00') (written : Text.isBlank s.cursor.head = false)
    (made : s.blockScalar folded = .ok s') : s'.Orderly := by
  obtain ⟨s₁, closed, made⟩ := except_bind_eq_ok_iff.1 made
  obtain ⟨⟨t, after⟩, found, made⟩ := except_bind_eq_ok_iff.1 made
  cases made
  have cursor := (closeKey_trims closed).1.cursor
  rw [← cursor] at allowed mark written
  refine accept (s := { s₁ with keyAllowed := true }) ((h.closeKey closed).1.trim ⟨rfl, rfl, rfl, .refl _⟩) ?_
  exact (blockScalar_spec allowed mark written found).between

private theorem plainScalar (h : s.Orderly) (made : s.plainScalar = .ok s') : s'.Orderly := by
  obtain ⟨s₁, opened, made⟩ := except_bind_eq_ok_iff.1 made
  cases read : s₁.cursor.plainScalar s₁.inFlow s₁.indent with
  | mk t rest =>
    obtain ⟨broken, after⟩ := rest
    rw [read] at made
    cases made
    refine accept (s := { s₁ with keyAllowed := broken }) ((h.openKey opened).trim ⟨rfl, rfl, rfl, .refl _⟩) ?_
    exact (plainScalar_spec read).between

private theorem of_fetches (h : s.Orderly) (allowed : IsAllowed s.cursor.rest) (fetches : s.Fetches s') :
    s'.Orderly := by
  cases fetches with
  | streamEnd made => exact h.streamEnd made
  | flowStart _ noColon _ made => exact h.flowStart noColon made
  | flowEnd _ noColon _ made => exact h.flowEnd noColon made
  | flowEntry _ made => exact h.flowEntry made
  | property here made => exact h.openToken (fun t after read => (here t after read).between) made
  | quoted here made => exact h.openToken (fun t after read => (here t after read).between) made
  | directive here between =>
    obtain ⟨orderly, cursor⟩ := h.betweenDocuments between
    rw [← cursor] at here
    exact orderly.accept here.between
  | separator _ _ noColon _ _ between =>
    exact (h.betweenDocuments between).1.take fun colon => absurd colon noColon
  | blockEntry _ made => exact h.blockEntry made
  | keyMark _ made => exact h.keyMark made
  | valueMark colon made => exact h.valueMark colon made
  | blockScalar other written made => exact h.blockScalar allowed other written made
  | plainScalar made => exact h.plainScalar made

/-- Reading a token keeps the tokens in order. -/
private theorem fetch (h : s.Orderly) (cuts : s.Cuts text) (made : s.fetch = .ok s') : s'.Orderly := by
  obtain ⟨s₁, closed, fetches⟩ := exists_fetches made
  have reaches := Cursor.reaches_toNextToken s.cursor
  let moved : Scanner := { s with
    cursor := s.cursor.toNextToken.2, keyAllowed := s.keyAllowed || (s.cursor.toNextToken.1 && !s.inFlow) }
  have orderly : moved.Orderly := h.move rfl reaches.mark_le (.refl _) fun k mem => (h.keys k mem).1
  have within : moved.Cuts text := cuts.move rfl reaches (List.Subset.refl _)
  have isCursor : (s₁.unwind s₁.cursor.column).cursor = moved.cursor :=
    (cursor_unwind _).trans (closeStale_trims closed).cursor
  exact ((orderly.trim (closeStale_trims closed)).unwind _).of_fetches (isCursor ▸ within.isAllowed) fetches

/-- However far reading goes, the tokens are in order. -/
private theorem run {fuel : Nat} (h : s.Orderly) (cuts : s.Cuts text) :
    ∃ last, InLine default (s.run fuel).tokens last := by
  have settled {s : Scanner} (h : s.Orderly) : ∃ last, InLine default s.settled last := by
    have whole := h.tokens
    rw [← List.take_append_drop (s.openKeys.foldl (fun least k => min least k.2.number) s.tokens.size)
      s.tokens.toList] at whole
    obtain ⟨last, first, -⟩ := InLine.append_iff.1 whole
    exact ⟨last, first⟩
  induction fuel generalizing s with
  | zero =>
    have tokens : (s.run 0).tokens = s.settled := rfl
    rw [tokens]
    exact settled h
  | succ fuel ih =>
    rw [run_succ]
    split
    · exact ⟨s.mark, h.tokens⟩
    · split
      · exact settled h
      · next next made =>
        obtain ⟨s₁, fetched, closed⟩ := except_bind_eq_ok_iff.1 made
        exact ih ((h.fetch cuts fetched).trim (closeStale_trims closed))
          ((cuts.fetch fetched).keep (closeStale_same closed))

end Orderly

end Scanner

/-- The tokens of a text stand in it one after the other. -/
theorem TokenStream.inLine_ofText {text : List Char} (allowed : IsAllowed text) :
    ∃ last, InLine default (TokenStream.ofText text).tokens last :=
  (Scanner.Orderly.start text).run (Scanner.cuts_start allowed)

end ManifestLens.Yaml
