import ManifestLens.Proofs.Yaml.Blocks
import ManifestLens.Proofs.Yaml.Edges

/-!
# How tokens are cut from a text

The tokens of a text are cut from it one after the other (`Cut`): a scalar is spelled where it stands, an anchor or tag
starts where it says, and all other tokens only pass some characters.  What a step reads is said once, for all kinds of
tokens (`Scanner.Fetches`), and it goes on with this (`Scanner.Cuts.fetch`); that a key mark is put in before tokens
that were read already does not disturb it, since the mark passes nothing.  All tokens start and end within the lines of
the text, and so does what may still become a key (`within_of_mem_ofText`).
-/

namespace ManifestLens.Yaml

variable {after c d stop : Cursor} {fuel : Nat}

/-! ### Tokens in their order -/

/-- An anchor or a tag, which may stand before a node. -/
def Lexeme.isProperty : Lexeme → Bool
  | .anchor _ => true
  | .tag _ _ => true
  | _ => false

def Lexeme.isScalar : Lexeme → Bool
  | .scalar _ _ => true
  | _ => false

/-- A token other than an anchor, a tag or a scalar. -/
def Lexeme.isMark (l : Lexeme) : Bool :=
  !l.isProperty && !l.isScalar

/-- The token is read from one cursor up to another. -/
structure TokenAt (c : Cursor) (t : Token) (d : Cursor) : Prop where
  reaches : Reaches c d
  start : t.lexeme.isProperty = true → t.start = c.mark
  scalar : t.lexeme.isScalar = true → ScalarAt c t d

private theorem TokenAt.mark {t : Token} (reaches : Reaches c d) (isMark : t.lexeme.isMark = true) : TokenAt c t d := by
  simp only [Lexeme.isMark, Bool.and_eq_true, Bool.not_eq_true'] at isMark
  exact ⟨reaches, fun property => by simp [isMark] at property, fun scalar => by simp [isMark] at scalar⟩

theorem Spelled.reaches {text : List Char} {style : ScalarStyle} (h : Spelled c text stop style) : Reaches c stop := by
  cases h with
  | plain _ passes => exact passes.reaches
  | quoted _ _ passes => exact passes.reaches
  | block _ _ heads _ passes => exact (heads.trans passes).reaches

private theorem ScalarAt.tokenAt {t : Token} (h : ScalarAt c t d) : TokenAt c t d := by
  have ⟨_, text, style, stop, space, isScalar, spelled, _, further⟩ := h
  refine ⟨spelled.reaches.trans further.reaches, fun property => ?_, fun _ => h⟩
  rw [isScalar] at property
  cases property

/-- The tokens are cut one after the other from what stands between two cursors. -/
inductive Cut : Cursor → List Token → Cursor → Prop where
  | done (c : Cursor) : Cut c [] c
  | token {c d e f : Cursor} {t : Token} {tokens : List Token} (before : Reaches c d) (here : TokenAt d t e)
      (further : Cut e tokens f) : Cut c (t :: tokens) f

namespace Cut

variable {e f : Cursor} {tokens more : List Token} {t : Token}

theorem reaches (h : Cut c tokens d) : Reaches c d := by
  induction h with
  | done c => exact .refl c
  | token before here _ ih => exact (before.trans here.reaches).trans ih

theorem append_iff : Cut c (tokens ++ more) e ↔ ∃ d, Cut c tokens d ∧ Cut d more e := by
  constructor
  · intro h
    induction tokens generalizing c with
    | nil => exact ⟨c, .done c, h⟩
    | cons t tokens ih =>
      cases h with
      | token before here further =>
        obtain ⟨d, first, second⟩ := ih further
        exact ⟨d, .token before here first, second⟩
  · rintro ⟨d, first, second⟩
    induction first with
    | done => exact second
    | token before here _ ih => exact .token before here (ih second)

private theorem concat (h : Cut c tokens d) (before : Reaches d e) (here : TokenAt e t f) :
    Cut c (tokens ++ [t]) f :=
  append_iff.2 ⟨d, h, .token before here (.done f)⟩

/-- A mark that passes nothing may be put between any two tokens. -/
private theorem insert (h : Cut c (tokens ++ more) e) (isMark : t.lexeme.isMark = true) :
    Cut c (tokens ++ t :: more) e := by
  obtain ⟨d, first, second⟩ := append_iff.1 h
  exact append_iff.2 ⟨d, first, .token (.refl d) (.mark (.refl d) isMark) second⟩

end Cut

/-! ### Steps of the scanner -/

/-- The token starts and ends within the lines of the text. -/
def Token.Within (text : List Char) (t : Token) : Prop :=
  t.start.Within (Text.keptLines text) ∧ t.stop.Within (Text.keptLines text)

namespace Scanner

variable {text : List Char} {s s' : Scanner}

/-- The tokens so far are cut from the text before the cursor.  They are within its lines, and so are the open keys. -/
structure Cuts (text : List Char) (s : Scanner) : Prop where
  allowed : IsAllowed text
  cut : ∃ c, Cut (Cursor.start text) s.tokens.toList c ∧ Reaches c s.cursor
  edges : ∀ t ∈ s.tokens.toList, t.Within text
  keys : ∀ k ∈ s.openKeys, k.2.mark.Within (Text.keptLines text)

/-- The scanner has the same tokens as before and no new open keys, and is at the same place. -/
structure Same (s s' : Scanner) : Prop where
  tokens : s'.tokens = s.tokens
  cursor : s'.cursor = s.cursor
  keys : s'.openKeys ⊆ s.openKeys

private theorem Same.of_eq (tokens : s'.tokens = s.tokens) (cursor : s'.cursor = s.cursor)
    (keys : s'.openKeys = s.openKeys) :
    s.Same s' :=
  ⟨tokens, cursor, keys ▸ List.Subset.refl _⟩

theorem cuts_start {text : List Char} (allowed : IsAllowed text) : (start text).Cuts text where
  allowed := allowed
  cut := ⟨Cursor.start text, .token (.refl _) (.mark (.refl _) rfl) (.done _), .refl _⟩
  edges := List.forall_mem_singleton.2 ⟨.default, .default⟩
  keys := List.forall_mem_nil _

namespace Cuts

/-- The cursor moves on. -/
theorem move (h : s.Cuts text) (tokens : s'.tokens = s.tokens) (reaches : Reaches s.cursor s'.cursor)
    (keys : s'.openKeys ⊆ s.openKeys) : s'.Cuts text := by
  obtain ⟨c, cut, before⟩ := h.cut
  refine ⟨h.allowed, ⟨c, by rwa [tokens], before.trans reaches⟩, ?_, fun k mem => h.keys k (keys mem)⟩
  rw [tokens]
  exact h.edges

theorem keep (h : s.Cuts text) (same : s.Same s') : s'.Cuts text :=
  h.move same.tokens (same.cursor ▸ .refl _) same.keys

private theorem reaches (h : s.Cuts text) : Reaches (Cursor.start text) s.cursor := by
  obtain ⟨c, cut, before⟩ := h.cut
  exact cut.reaches.trans before

theorem isAllowed (h : s.Cuts text) : IsAllowed s.cursor.rest := by
  obtain ⟨passed, passes⟩ := h.reaches
  exact passes.isAllowed h.allowed

end Cuts

/-- The scanner is at a cursor at which a token may start. -/
structure At (text : List Char) (c : Cursor) (s : Scanner) : Prop where
  cuts : s.Cuts text
  cursor : s.cursor = c
  whole : c.Whole text

namespace At

private theorem keep (h : s.At text c) (same : s.Same s') : s'.At text c :=
  ⟨h.cuts.keep same, same.cursor.trans h.cursor, h.whole⟩

private theorem reaches (h : s.At text c) : Reaches (Cursor.start text) c :=
  h.cursor ▸ h.cuts.reaches

/-- The mark of the scanner is within the lines. -/
private theorem mark_within (h : s.At text c) : s.mark.Within (Text.keptLines text) := by
  rw [mark, h.cursor]
  exact h.whole.within

private theorem accept {t : Token} (h : s.At text c) (here : TokenAt c t after) (within : t.Within text) :
    (s.accept (t, after)).Cuts text := by
  obtain ⟨d, cut, before⟩ := h.cuts.cut
  rw [h.cursor] at before
  refine ⟨h.cuts.allowed, ⟨after, ?_, .refl _⟩, ?_, h.cuts.keys⟩
  · rw [Scanner.accept, Array.toList_push]
    exact cut.concat before here
  · rw [Scanner.accept, Array.toList_push]
    exact List.forall_mem_append.2 ⟨h.cuts.edges, List.forall_mem_singleton.2 within⟩

private theorem push (h : s.At text c) (lexeme : Lexeme) (isMark : lexeme.isMark = true) :
    (s.push lexeme).At text c where
  cuts := by
    have accepted := h.accept (t := ⟨lexeme, s.mark, s.mark⟩) (.mark (.refl c) isMark) ⟨h.mark_within, h.mark_within⟩
    rwa [Scanner.accept, ← h.cursor] at accepted
  cursor := h.cursor
  whole := h.whole

/-- A token that is read on its line is within it. -/
private theorem within_of_stays {t : Token} (h : s.At text c) (start : t.start = c.mark) (stays : Stays c d)
    (stop : d.mark = t.stop) : t.Within text := by
  rw [Token.Within, start, ← stop]
  exact ⟨h.whole.within, (h.whole.of_stays h.cuts.allowed stays).within⟩

private theorem within_of_scalarAt {t : Token} (h : s.At text c) (scalar : ScalarAt c t after) : t.Within text := by
  obtain ⟨start, written, style, stop, space, -, spelled, stops, -⟩ := scalar
  rw [Token.Within, start, ← stops]
  exact ⟨h.whole.within, (h.whole.of_spelled h.cuts.allowed h.reaches spelled).within⟩

private theorem take {lexeme : Lexeme} {size : Nat} (h : s.At text c) (isMark : lexeme.isMark = true)
    (stays : Stays c (c.advance size)) : (s.take lexeme size).Cuts text := by
  obtain rfl := h.cursor
  exact h.accept (t := ⟨lexeme, s.mark, (s.cursor.advance size).mark⟩) (.mark stays.reaches isMark)
    (h.within_of_stays rfl stays rfl)

private theorem insert {key : Mark} (h : s.At text c) (lexeme : Lexeme) (isMark : lexeme.isMark = true)
    (within : key.Within (Text.keptLines text)) (number : Nat) : (s.insert number ⟨lexeme, key, key⟩).At text c := by
  obtain ⟨d, cut, before⟩ := h.cuts.cut
  have inserted : (s.insert number ⟨lexeme, key, key⟩).tokens.toList =
      s.tokens.toList.take number ++ ⟨lexeme, key, key⟩ :: s.tokens.toList.drop number := by
    simp [Scanner.insert, List.take_of_length_le]
  refine ⟨⟨h.cuts.allowed, ⟨d, ?_, before⟩, ?_, h.cuts.keys⟩, h.cursor, h.whole⟩
  · rw [← List.take_append_drop number s.tokens.toList] at cut
    rw [inserted]
    exact cut.insert isMark
  · rw [inserted]
    intro t mem
    rcases List.mem_append.1 mem with first | rest
    · exact h.cuts.edges t (List.mem_of_mem_take first)
    · rcases List.mem_cons.1 rest with rfl | rest
      · exact ⟨within, within⟩
      · exact h.cuts.edges t (List.mem_of_mem_drop rest)

end At

/-! ### Keys and indentation -/

theorem closeStale_same (made : s.closeStale = .ok s') : s.Same s' := by
  rw [Scanner.closeStale] at made
  split at made <;> cases made
  exact ⟨rfl, rfl, List.filter_sublist.subset⟩

private theorem closeKey_same (made : s.closeKey = .ok s') : s.Same s' := by
  rw [Scanner.closeKey] at made
  split at made
  · cases made
    exact (.of_eq rfl rfl rfl)
  · split at made <;> cases made
    exact ⟨rfl, rfl, List.filter_sublist.subset⟩

namespace At

private theorem openKey (h : s.At text c) (made : s.openKey = .ok s') : s'.At text c := by
  rw [Scanner.openKey] at made
  split at made
  · cases closed : s.closeKey with
    | error e =>
      rw [closed] at made
      cases made
    | ok s₁ =>
      rw [closed] at made
      cases made
      have here := h.keep (closeKey_same closed)
      refine ⟨⟨here.cuts.allowed, here.cuts.cut, here.cuts.edges, ?_⟩, here.cursor, here.whole⟩
      exact List.forall_mem_append.2 ⟨here.cuts.keys, List.forall_mem_singleton.2 here.mark_within⟩
  · cases made
    exact h

private theorem unwindFrom {column indent : Int} {outer : List Int} (h : s.At text c) :
    (s.unwindFrom column indent outer).At text c := by
  induction outer generalizing s indent with
  | nil => exact h.keep (.of_eq rfl rfl rfl)
  | cons previous outer ih =>
    rw [Scanner.unwindFrom]
    split
    · exact ih (h.push .blockEnd rfl)
    · exact h.keep (.of_eq rfl rfl rfl)

private theorem unwind (h : s.At text c) (column : Int) : (s.unwind column).At text c := by
  rw [Scanner.unwind]
  split
  · exact h
  · exact h.unwindFrom

private theorem blockStart {lexeme : Lexeme} {problem : Problem} (h : s.At text c) (isMark : lexeme.isMark = true)
    (made : s.blockStart lexeme problem = .ok s') : s'.At text c := by
  rw [Scanner.blockStart] at made
  split at made
  · cases made
    exact h
  · split at made
    · cases made
    · split at made
      · next indented =>
        cases made
        rw [indentTo?] at indented
        split at indented <;> cases indented
        refine push ?_ lexeme isMark
        exact h.keep (.of_eq rfl rfl rfl)
      · cases made
        exact h

private theorem settleKey {key : OpenKey} (h : s.At text c) (within : key.mark.Within (Text.keptLines text)) :
    (s.settleKey key).At text c := by
  let closed : Scanner := { s with openKeys := s.openKeys.filter fun k => k.1 != s.depth }
  have kept : closed.At text c := h.keep ⟨rfl, rfl, List.filter_sublist.subset⟩
  have marked := kept.insert .key rfl within key.number
  refine keep (s := if closed.inFlow then closed.insert key.number ⟨.key, key.mark, key.mark⟩ else _) ?_
    (.of_eq rfl rfl rfl)
  split
  · exact marked
  · split
    · next indented =>
      rw [indentTo?] at indented
      split at indented <;> cases indented
      refine insert ?_ .blockMappingStart rfl within key.number
      exact marked.keep (.of_eq rfl rfl rfl)
    · exact marked

end At

end Scanner

/-! ### Reading tokens -/

/-- The token is read from one cursor up to another, and itself ends on the line on which it starts. -/
structure LineTokenAt (c : Cursor) (t : Token) (after : Cursor) : Prop where
  here : TokenAt c t after
  start : t.start = c.mark
  noColon : t.lexeme ≠ .value
  stays : ∃ d, Stays c d ∧ d.mark = t.stop ∧ Reaches d after

namespace Cursor

private theorem peek_zero (c : Cursor) : c.peek 0 = c.head := by
  rw [peek, head, List.head?_eq_getElem?]

variable {task textTask : Task} {since : Mark}

private theorem stays_of_name {ends : Char → Bool} {text : String} (h : c.name task since ends = .ok (text, after)) :
    Stays c after := by
  rw [name] at h
  dsimp only at h
  split at h
  · cases h
  · split at h <;> cases h
    exact .skip (p := isName) (by decide) c

private theorem lineTokenAt_anchorToken {isAlias : Bool} {t : Token} (mark : isBreak c.head = false)
    (h : c.anchorToken isAlias = .ok (t, after)) : LineTokenAt c t after := by
  rw [anchorToken] at h
  obtain ⟨⟨text, d⟩, named, h⟩ := except_bind_eq_ok_iff.1 h
  cases h
  have stays := (Stays.next mark).trans (stays_of_name named)
  refine ⟨⟨stays.reaches, fun _ => rfl, fun scalar => ?_⟩, rfl, ?_, _, stays, rfl, .refl _⟩
  · cases isAlias <;> cases scalar
  · cases isAlias <;> nofun

/-- A mark that is ahead is no break. -/
private theorem isBreak_of_not_bne {a b : Char} (same : ¬(a != b) = true) (other : isBreak b = false) :
    isBreak a = false := by
  rwa [not_not.1 (mt bne_iff_ne.2 same)]

private theorem stays_of_uriBytes {bytes : List UInt8} (h : uriBytes task since fuel c = .ok (bytes, after)) :
    Stays c after := by
  induction fuel generalizing c bytes with
  | zero =>
    cases h
    exact .refl _
  | succ fuel ih =>
    rw [uriBytes] at h
    split at h
    · cases h
      exact .refl _
    · next mark =>
      dsimp only at h
      split at h
      · cases h
      · next digits =>
        obtain ⟨⟨rest, d⟩, more, h⟩ := except_bind_eq_ok_iff.1 h
        cases h
        have first : Stays c c.next := .next (isBreak_of_not_bne mark (by decide))
        have two : Stays c.next (c.next.advance 2) := by
          refine .advance fun k lt => isBreak_eq_false (p := isHex) (by decide) ?_
          have isDigit := List.find?_eq_none.1 digits (c.next.peek k)
          obtain rfl | rfl : k = 0 ∨ k = 1 := by omega
          all_goals simpa using isDigit (by simp)
        exact (first.trans two).trans (ih more)

private theorem stays_of_uriPieces {text : List Char} (h : uriPieces task since fuel c = .ok (text, after)) :
    Stays c after := by
  induction fuel generalizing c text with
  | zero =>
    cases h
    exact .refl _
  | succ fuel ih =>
    have run : Stays c (c.span isUri).2 := .skip (by decide) c
    rw [uriPieces] at h
    dsimp only at h
    split at h
    · cases h
      exact run
    · obtain ⟨⟨bytes, d⟩, escaped, h⟩ := except_bind_eq_ok_iff.1 h
      dsimp only at h
      split at h
      · cases h
      · obtain ⟨⟨rest, e⟩, more, h⟩ := except_bind_eq_ok_iff.1 h
        cases h
        exact (run.trans (stays_of_uriBytes escaped)).trans (ih more)

private theorem stays_of_tagUri {text : String} (h : c.tagUri task textTask since = .ok (text, after)) :
    Stays c after := by
  rw [tagUri] at h
  obtain ⟨⟨pieces, d⟩, read, h⟩ := except_bind_eq_ok_iff.1 h
  dsimp only at h
  split at h <;> cases h
  exact stays_of_uriPieces read

private theorem stays_of_tagHandle {text : String} (h : c.tagHandle task since = .ok (text, after)) :
    Stays c after := by
  rw [tagHandle] at h
  split at h
  · cases h
  · next mark =>
    have first : Stays c c.next := .next (isBreak_of_not_bne mark (by decide))
    split at h
    · cases h
      exact first
    · have run : Stays c.next (c.next.span isName).2 := .skip (by decide) c.next
      dsimp only at h
      split at h
      · cases h
      · next mark =>
        cases h
        exact (first.trans run).trans (.next (isBreak_of_not_bne mark (by decide)))

private theorem lineTokenAt_tagToken {t : Token} (mark : isBreak c.head = false) (h : c.tagToken = .ok (t, after)) :
    LineTokenAt c t after := by
  -- what was read is the tag, whatever its parts are
  have last {handle : Option String} {suffix : String} {d : Cursor} (stays : Stays c d)
      (h : (if isSpaceStop d.head then pure (⟨.tag handle suffix, c.mark, d.mark⟩, d)
        else d.fails .tag c.mark (.expectedSpace d.head)) = Except.ok (t, after)) : LineTokenAt c t after := by
    split at h <;> cases h
    exact ⟨⟨stays.reaches, fun _ => rfl, fun scalar => by cases scalar⟩, rfl, nofun, _, stays, rfl, .refl _⟩
  rw [tagToken] at h
  dsimp only at h
  split at h
  · next bracket =>
    obtain ⟨⟨text, d⟩, read, h⟩ := except_bind_eq_ok_iff.1 h
    have two : Stays c (c.advance 2) := by
      refine .advance fun k lt => ?_
      obtain rfl | rfl : k = 0 ∨ k = 1 := by omega
      · rwa [peek_zero]
      · rw [beq_iff_eq.1 bracket]
        decide
    dsimp only at h
    split at h
    · cases h
    · next bracket =>
      exact last ((two.trans (stays_of_tagUri read)).trans (.next (isBreak_of_not_bne bracket (by decide)))) h
  · split at h
    · exact last (.next mark) h
    · split at h
      · obtain ⟨⟨handle, d⟩, handled, h⟩ := except_bind_eq_ok_iff.1 h
        obtain ⟨⟨text, e⟩, read, h⟩ := except_bind_eq_ok_iff.1 h
        exact last ((stays_of_tagHandle handled).trans (stays_of_tagUri read)) h
      · obtain ⟨_, handled, h⟩ := except_bind_eq_ok_iff.1 h
        cases handled
        obtain ⟨⟨text, e⟩, read, h⟩ := except_bind_eq_ok_iff.1 h
        exact last ((Stays.next mark).trans (stays_of_tagUri read)) h

private theorem stays_of_versionNumber {n : Nat} (h : c.versionNumber since = .ok (n, after)) : Stays c after := by
  rw [versionNumber] at h
  dsimp only at h
  split at h <;> cases h
  exact .skip (p := Char.isDigit) (by decide) c

private theorem stays_of_versionDirective {directive : Directive}
    (h : c.versionDirective since = .ok (directive, after)) :
    Stays c after := by
  rw [versionDirective] at h
  obtain ⟨⟨major, d⟩, first, h⟩ := except_bind_eq_ok_iff.1 h
  dsimp only at h
  split at h
  · cases h
  · next point =>
    obtain ⟨⟨minor, e⟩, second, h⟩ := except_bind_eq_ok_iff.1 h
    dsimp only at h
    split at h <;> cases h
    have start := (Stays.skip (p := (· == ' ')) (by decide) c).trans (stays_of_versionNumber first)
    exact (start.trans (.next (isBreak_of_not_bne point (by decide)))).trans (stays_of_versionNumber second)

private theorem stays_of_handleDirective {directive : Directive}
    (h : c.handleDirective since = .ok (directive, after)) :
    Stays c after := by
  rw [handleDirective] at h
  obtain ⟨⟨handle, d⟩, first, h⟩ := except_bind_eq_ok_iff.1 h
  dsimp only at h
  split at h
  · cases h
  · obtain ⟨⟨text, e⟩, second, h⟩ := except_bind_eq_ok_iff.1 h
    dsimp only at h
    split at h <;> cases h
    have start := (Stays.skip (p := (· == ' ')) (by decide) c).trans (stays_of_tagHandle first)
    exact (start.trans (.skip (by decide) _)).trans (stays_of_tagUri second)

private theorem reaches_skipComment (c : Cursor) : Reaches c c.skipComment := by
  obtain ⟨run, passes, -⟩ := skipComment_passes c
  exact passes.reaches

private theorem reaches_of_endLine (h : c.endLine task since = .ok after) : Reaches c after := by
  rw [endLine] at h
  split at h <;> cases h
  exact (reaches_skipComment c).trans (.lineBreak _)

private theorem lineTokenAt_directiveToken {t : Token} (mark : isBreak c.head = false)
    (h : c.directiveToken = .ok (t, after)) : LineTokenAt c t after := by
  rw [directiveToken] at h
  obtain ⟨⟨text, d⟩, named, h⟩ := except_bind_eq_ok_iff.1 h
  have start := (Stays.next mark).trans (stays_of_name named)
  -- the rest of the line follows what the directive says
  have last {directive : Directive} {e : Cursor} (stays : Stays d e)
      (h : (do
        let rest := if text == "YAML" || text == "TAG" then e else e.skip fun a => !isLineStop a
        let after ← rest.endLine .directive c.mark
        return (⟨.directive directive, c.mark, e.mark⟩, after)) = Except.ok (t, after)) : LineTokenAt c t after := by
    obtain ⟨f, ended, h⟩ := except_bind_eq_ok_iff.1 h
    cases h
    have further : Reaches e after := by
      split at ended
      · exact reaches_of_endLine ended
      · exact (Reaches.skip e _).trans (reaches_of_endLine ended)
    exact ⟨.mark ((start.trans stays).reaches.trans further) rfl, rfl, nofun, e, start.trans stays, rfl, further⟩
  dsimp only at h
  split at h
  · obtain ⟨⟨directive, e⟩, read, h⟩ := except_bind_eq_ok_iff.1 h
    exact last (stays_of_versionDirective read) h
  · split at h
    · obtain ⟨⟨directive, e⟩, read, h⟩ := except_bind_eq_ok_iff.1 h
      exact last (stays_of_handleDirective read) h
    · rw [pure_bind] at h
      exact last (.refl d) h

private theorem skipSpace_succ (broken : Bool) (fuel : Nat) (c : Cursor) :
    skipSpace broken (fuel + 1) c =
      match c.skipComment.lineBreak with
      | ([], after) => (broken, after)
      | (_, after) => skipSpace true fuel after := by
  rfl

private theorem reaches_skipSpace (broken : Bool) (fuel : Nat) (c : Cursor) :
    Reaches c (skipSpace broken fuel c).2 := by
  induction fuel generalizing broken c with
  | zero => exact .refl c
  | succ fuel ih =>
    have line : Reaches c c.skipComment.lineBreak.2 := (reaches_skipComment c).trans (.lineBreak c.skipComment)
    rw [skipSpace_succ]
    generalize c.skipComment.lineBreak = read at line
    obtain ⟨run, after⟩ := read
    cases run with
    | nil => exact line
    | cons a run => exact line.trans (ih true after)

theorem reaches_toNextToken (c : Cursor) : Reaches c c.toNextToken.2 := by
  rw [toNextToken]
  split
  · exact (Reaches.next c).trans (reaches_skipSpace _ _ _)
  · exact reaches_skipSpace _ _ c

end Cursor

/-! ### Steps and runs -/

namespace Scanner

variable {text : List Char} {s s' : Scanner}

private theorem cursor_unwindFrom {column indent : Int} {outer : List Int} :
    (s.unwindFrom column indent outer).cursor = s.cursor := by
  induction outer generalizing s indent with
  | nil => rfl
  | cons previous outer ih =>
    rw [Scanner.unwindFrom]
    split
    · exact ih
    · rfl

theorem cursor_unwind (column : Int) : (s.unwind column).cursor = s.cursor := by
  rw [Scanner.unwind]
  split
  · rfl
  · exact cursor_unwindFrom

namespace At

private theorem betweenDocuments (h : s.At text c) (made : s.betweenDocuments = .ok s') : s'.At text c := by
  obtain ⟨s₁, closed, made⟩ := except_bind_eq_ok_iff.1 made
  cases made
  exact ((h.unwind (-1)).keep (closeKey_same closed)).keep (.of_eq rfl rfl rfl)

private theorem streamEnd (h : s.At text c) (made : s.streamEnd = .ok s') : s'.Cuts text := by
  obtain ⟨s₁, closed, made⟩ := except_bind_eq_ok_iff.1 made
  cases made
  have ended : At text c { s₁ with keyAllowed := false, openKeys := [] } :=
    ((h.unwind (-1)).keep (closeKey_same closed)).keep ⟨rfl, rfl, List.nil_subset _⟩
  exact (ended.push .streamEnd rfl).cuts.keep (.of_eq rfl rfl rfl)

private theorem flowStart {lexeme : Lexeme} (h : s.At text c) (isMark : lexeme.isMark = true)
    (stays : Stays c (c.advance 1)) (made : s.flowStart lexeme = .ok s') : s'.Cuts text := by
  obtain ⟨s₁, opened, made⟩ := except_bind_eq_ok_iff.1 made
  cases made
  exact take ((h.openKey opened).keep (.of_eq rfl rfl rfl)) isMark stays

/-- A mark after which the open key is closed. -/
private theorem closing {lexeme : Lexeme} {s₁ s₂ : Scanner} (h : s.At text c) (closed : s.closeKey = .ok s₁)
    (same : s₁.Same s₂) (isMark : lexeme.isMark = true) (stays : Stays c (c.advance 1)) :
    (s₂.take lexeme 1).Cuts text :=
  ((h.keep (closeKey_same closed)).keep same).take isMark stays

private theorem flowEnd {lexeme : Lexeme} (h : s.At text c) (isMark : lexeme.isMark = true)
    (stays : Stays c (c.advance 1)) (made : s.flowEnd lexeme = .ok s') : s'.Cuts text := by
  obtain ⟨s₁, closed, made⟩ := except_bind_eq_ok_iff.1 made
  cases made
  exact h.closing closed (.of_eq rfl rfl rfl) isMark stays

private theorem flowEntry (h : s.At text c) (stays : Stays c (c.advance 1)) (made : s.flowEntry = .ok s') :
    s'.Cuts text := by
  obtain ⟨s₁, closed, made⟩ := except_bind_eq_ok_iff.1 made
  cases made
  exact h.closing closed (.of_eq rfl rfl rfl) rfl stays

private theorem blockEntry (h : s.At text c) (stays : Stays c (c.advance 1)) (made : s.blockEntry = .ok s') :
    s'.Cuts text := by
  obtain ⟨s₁, started, made⟩ := except_bind_eq_ok_iff.1 made
  obtain ⟨s₂, closed, made⟩ := except_bind_eq_ok_iff.1 made
  cases made
  exact (h.blockStart rfl started).closing closed (.of_eq rfl rfl rfl) rfl stays

private theorem keyMark (h : s.At text c) (stays : Stays c (c.advance 1)) (made : s.keyMark = .ok s') :
    s'.Cuts text := by
  obtain ⟨s₁, started, made⟩ := except_bind_eq_ok_iff.1 made
  obtain ⟨s₂, closed, made⟩ := except_bind_eq_ok_iff.1 made
  cases made
  exact (h.blockStart rfl started).closing closed (.of_eq rfl rfl rfl) rfl stays

private theorem valueMark (h : s.At text c) (stays : Stays c (c.advance 1)) (made : s.valueMark = .ok s') :
    s'.Cuts text := by
  rw [Scanner.valueMark] at made
  split at made
  · next key found =>
    cases made
    obtain ⟨before, after, keys, -⟩ := List.lookup_eq_some_iff.1 found
    exact (h.settleKey (h.cuts.keys (s.depth, key) (by simp [keys]))).take rfl stays
  · obtain ⟨s₁, started, made⟩ := except_bind_eq_ok_iff.1 made
    obtain ⟨s₂, closed, made⟩ := except_bind_eq_ok_iff.1 made
    cases made
    exact (h.blockStart rfl started).closing closed (.of_eq rfl rfl rfl) rfl stays

private theorem openToken {read : Cursor → Except Error (Token × Cursor)} (h : s.At text c)
    (isToken : ∀ t after, read c = .ok (t, after) → TokenAt c t after ∧ t.Within text)
    (made : s.openToken read = .ok s') : s'.Cuts text := by
  obtain ⟨s₁, opened, made⟩ := except_bind_eq_ok_iff.1 made
  obtain ⟨⟨t, after⟩, found, made⟩ := except_bind_eq_ok_iff.1 made
  cases made
  have here := h.openKey opened
  rw [here.cursor] at found
  obtain ⟨token, within⟩ := isToken t after found
  exact accept (here.keep (.of_eq rfl rfl rfl)) token within

private theorem lineToken {t : Token} (h : s.At text c) (here : LineTokenAt c t after) :
    TokenAt c t after ∧ t.Within text := by
  obtain ⟨here, start, -, d, stays, stop, -⟩ := here
  exact ⟨here, h.within_of_stays start stays stop⟩

private theorem scalar {t : Token} {after : Cursor} (h : s.At text c) (here : ScalarAt c t after) :
    TokenAt c t after ∧ t.Within text :=
  ⟨here.tokenAt, h.within_of_scalarAt here⟩

private theorem blockScalar {folded : Bool} (h : s.At text c) (mark : c.head ≠ '\x00')
    (written : Text.isBlank c.head = false) (made : s.blockScalar folded = .ok s') : s'.Cuts text := by
  obtain ⟨s₁, closed, made⟩ := except_bind_eq_ok_iff.1 made
  obtain ⟨⟨t, after⟩, found, made⟩ := except_bind_eq_ok_iff.1 made
  cases made
  have here := h.keep (closeKey_same closed)
  have allowed := here.cuts.isAllowed
  rw [here.cursor] at found allowed
  obtain ⟨token, within⟩ := h.scalar (blockScalar_spec allowed mark written found)
  exact accept (here.keep (.of_eq rfl rfl rfl)) token within

private theorem plainScalar (h : s.At text c) (made : s.plainScalar = .ok s') : s'.Cuts text := by
  obtain ⟨s₁, opened, made⟩ := except_bind_eq_ok_iff.1 made
  have here := h.openKey opened
  rw [here.cursor] at made
  cases read : c.plainScalar s₁.inFlow s₁.indent with
  | mk t rest =>
    obtain ⟨broken, after⟩ := rest
    rw [read] at made
    cases made
    obtain ⟨token, within⟩ := h.scalar (plainScalar_spec read)
    exact accept (here.keep (.of_eq rfl here.cursor.symm rfl)) token within

end At

/-- No token starts with a line feed. -/
private theorem head_of_fetch (made : s.fetch = .ok s') : s.cursor.toNextToken.2.head ≠ '\n' := by
  rw [Scanner.fetch] at made
  generalize s.cursor.toNextToken = gap at made ⊢
  obtain ⟨broken, cursor⟩ := gap
  obtain ⟨s₁, closed, made⟩ := except_bind_eq_ok_iff.1 made
  intro feed
  have ahead : (s₁.unwind s₁.cursor.column).cursor.head = '\n' := by
    rw [cursor_unwind, (closeStale_same closed).cursor, feed]
  have noPlain : (s₁.unwind s₁.cursor.column).atPlain = false := by
    rw [atPlain, ahead]
    simp [isGap, isSpaceStop, isLineStop, isBreak]
  dsimp only at made
  rw [ahead, noPlain] at made
  simp at made

/-- What is read where a token starts: a case for each kind of token, with what is known of the characters there. -/
inductive Fetches (s : Scanner) : Scanner → Prop
  | streamEnd {s' : Scanner} (made : s.streamEnd = .ok s') : Fetches s s'
  | flowStart {s' : Scanner} {lexeme : Lexeme} (isMark : lexeme.isMark = true) (noColon : lexeme ≠ .value)
      (other : isBreak s.cursor.head = false) (made : s.flowStart lexeme = .ok s') : Fetches s s'
  | flowEnd {s' : Scanner} {lexeme : Lexeme} (isMark : lexeme.isMark = true) (noColon : lexeme ≠ .value)
      (other : isBreak s.cursor.head = false) (made : s.flowEnd lexeme = .ok s') : Fetches s s'
  | flowEntry {s' : Scanner} (other : isBreak s.cursor.head = false) (made : s.flowEntry = .ok s') : Fetches s s'
  | property {s' : Scanner} {read : Cursor → Except Error (Token × Cursor)}
      (here : ∀ t after, read s.cursor = .ok (t, after) → LineTokenAt s.cursor t after)
      (made : s.openToken read = .ok s') : Fetches s s'
  | quoted {s' : Scanner} {read : Cursor → Except Error (Token × Cursor)}
      (here : ∀ t after, read s.cursor = .ok (t, after) → ScalarAt s.cursor t after)
      (made : s.openToken read = .ok s') : Fetches s s'
  | directive {s' : Scanner} {t : Token} {after : Cursor} (here : LineTokenAt s.cursor t after)
      (between : s.betweenDocuments = .ok s') : Fetches s (s'.accept (t, after))
  | separator {s' : Scanner} {lexeme : Lexeme} (mark : List Char) (isMark : lexeme.isMark = true)
      (noColon : lexeme ≠ .value) (ahead : s.cursor.startsWith mark = true) (plain : mark.any isBreak = false)
      (between : s.betweenDocuments = .ok s') : Fetches s (s'.take lexeme mark.length)
  | blockEntry {s' : Scanner} (other : isBreak s.cursor.head = false) (made : s.blockEntry = .ok s') : Fetches s s'
  | keyMark {s' : Scanner} (other : isBreak s.cursor.head = false) (made : s.keyMark = .ok s') : Fetches s s'
  | valueMark {s' : Scanner} (colon : s.cursor.head = ':') (made : s.valueMark = .ok s') : Fetches s s'
  | blockScalar {s' : Scanner} {folded : Bool} (other : s.cursor.head ≠ '\x00')
      (written : Text.isBlank s.cursor.head = false) (made : s.blockScalar folded = .ok s') : Fetches s s'
  | plainScalar {s' : Scanner} (made : s.plainScalar = .ok s') : Fetches s s'

/-- A token is read after the space before it is passed and the block collections that end there are closed. -/
theorem exists_fetches (made : s.fetch = .ok s') :
    ∃ s₁, closeStale { s with
        cursor := s.cursor.toNextToken.2
        keyAllowed := s.keyAllowed || (s.cursor.toNextToken.1 && !s.inFlow) } = .ok s₁ ∧
      (s₁.unwind s₁.cursor.column).Fetches s' := by
  obtain ⟨s₁, closed, made⟩ := except_bind_eq_ok_iff.1 made
  refine ⟨s₁, closed, ?_⟩
  generalize s₁.unwind s₁.cursor.column = s₂ at made ⊢
  have known {a : Char} (isHead : s₂.cursor.head = a) (other : isBreak a = false) : isBreak s₂.cursor.head = false := by
    rwa [isHead]
  dsimp only at made
  split at made
  · exact .streamEnd made
  · next mark => exact .flowStart rfl (by decide) (known mark (by decide)) made
  · next mark => exact .flowStart rfl (by decide) (known mark (by decide)) made
  · next mark => exact .flowEnd rfl (by decide) (known mark (by decide)) made
  · next mark => exact .flowEnd rfl (by decide) (known mark (by decide)) made
  · next mark => exact .flowEntry (known mark (by decide)) made
  · next mark => exact .property (fun _ _ => Cursor.lineTokenAt_anchorToken (known mark (by decide))) made
  · next mark => exact .property (fun _ _ => Cursor.lineTokenAt_anchorToken (known mark (by decide))) made
  · next mark => exact .property (fun _ _ => Cursor.lineTokenAt_tagToken (known mark (by decide))) made
  · next quote => exact .quoted (fun _ _ => quotedScalar_spec false quote) made
  · next quote => exact .quoted (fun _ _ => quotedScalar_spec true quote) made
  · have ahead {a : Char} {p : Bool} (mark : (s₂.cursor.head == a && p) = true) : s₂.cursor.head = a :=
      beq_iff_eq.1 (Bool.and_eq_true_iff.1 mark).1
    rcases ite_eq_iff.1 made with ⟨mark, made⟩ | ⟨_, made⟩
    · obtain ⟨s₃, between, made⟩ := except_bind_eq_ok_iff.1 made
      obtain ⟨⟨t, after⟩, read, made⟩ := except_bind_eq_ok_iff.1 made
      cases made
      exact .directive (Cursor.lineTokenAt_directiveToken (known (ahead mark) (by decide)) read) between
    rcases ite_eq_iff.1 made with ⟨mark, made⟩ | ⟨_, made⟩
    · obtain ⟨s₃, between, made⟩ := except_bind_eq_ok_iff.1 made
      cases made
      simp only [Bool.and_eq_true] at mark
      exact .separator "---".toList rfl (by decide) mark.1.2 (by decide) between
    rcases ite_eq_iff.1 made with ⟨mark, made⟩ | ⟨_, made⟩
    · obtain ⟨s₃, between, made⟩ := except_bind_eq_ok_iff.1 made
      cases made
      simp only [Bool.and_eq_true] at mark
      exact .separator "...".toList rfl (by decide) mark.1.2 (by decide) between
    rcases ite_eq_iff.1 made with ⟨mark, made⟩ | ⟨_, made⟩
    · exact .blockEntry (known (ahead mark) (by decide)) made
    rcases ite_eq_iff.1 made with ⟨mark, made⟩ | ⟨_, made⟩
    · exact .keyMark (known (ahead mark) (by decide)) made
    rcases ite_eq_iff.1 made with ⟨mark, made⟩ | ⟨_, made⟩
    · exact .valueMark (ahead mark) made
    rcases ite_eq_iff.1 made with ⟨mark, made⟩ | ⟨_, made⟩
    · exact .blockScalar (by rw [ahead mark]; decide) (by rw [ahead mark]; decide) made
    rcases ite_eq_iff.1 made with ⟨mark, made⟩ | ⟨_, made⟩
    · exact .blockScalar (by rw [ahead mark]; decide) (by rw [ahead mark]; decide) made
    rcases ite_eq_iff.1 made with ⟨_, made⟩ | ⟨_, made⟩
    · exact .plainScalar made
    · cases made

private theorem Fetches.cuts (h : s.Fetches s') (here : s.At text c) : s'.Cuts text := by
  obtain rfl := here.cursor
  cases h with
  | streamEnd made => exact here.streamEnd made
  | flowStart isMark _ other made => exact here.flowStart isMark (.next other) made
  | flowEnd isMark _ other made => exact here.flowEnd isMark (.next other) made
  | flowEntry other made => exact here.flowEntry (.next other) made
  | property isToken made => exact here.openToken (fun t after read => here.lineToken (isToken t after read)) made
  | quoted isToken made => exact here.openToken (fun t after read => here.scalar (isToken t after read)) made
  | directive isToken between =>
    obtain ⟨token, within⟩ := here.lineToken isToken
    exact (here.betweenDocuments between).accept token within
  | separator _ isMark _ ahead plain between =>
    exact (here.betweenDocuments between).take isMark (.of_startsWith ahead plain)
  | blockEntry other made => exact here.blockEntry (.next other) made
  | keyMark other made => exact here.keyMark (.next other) made
  | valueMark colon made => exact here.valueMark (.next (by rw [colon]; decide)) made
  | blockScalar other written made => exact here.blockScalar other written made
  | plainScalar made => exact here.plainScalar made

/-- Reading a token goes on with cutting the text. -/
theorem Cuts.fetch (h : s.Cuts text) (made : s.fetch = .ok s') : s'.Cuts text := by
  obtain ⟨s₁, closed, fetches⟩ := exists_fetches made
  have same := closeStale_same closed
  have moved : Cuts text { s with
      cursor := s.cursor.toNextToken.2, keyAllowed := s.keyAllowed || (s.cursor.toNextToken.1 && !s.inFlow) } :=
    h.move rfl (Cursor.reaches_toNextToken s.cursor) (List.Subset.refl _)
  have here : s₁.At text s.cursor.toNextToken.2 :=
    ⟨moved.keep same, same.cursor, .of_head moved.reaches h.allowed (head_of_fetch made)⟩
  exact fetches.cuts (here.unwind _)

theorem run_succ (fuel : Nat) (s : Scanner) :
    s.run (fuel + 1) =
      if s.finished then ⟨s.tokens.toList, none⟩
      else
        match s.fetch.bind closeStale with
        | .error e => ⟨s.settled, some e⟩
        | .ok next => next.run fuel := by
  rfl

/-- What was read so far is cut from the text and within its lines, however far reading goes. -/
private theorem Cuts.run (h : s.Cuts text) :
    (∃ c, Cut (Cursor.start text) (s.run fuel).tokens c) ∧ ∀ t ∈ (s.run fuel).tokens, t.Within text := by
  have settled {s : Scanner} (h : s.Cuts text) :
      (∃ c, Cut (Cursor.start text) s.settled c) ∧ ∀ t ∈ s.settled, t.Within text := by
    obtain ⟨c, cut, -⟩ := h.cut
    rw [← List.take_append_drop (s.openKeys.foldl (fun least k => min least k.2.number) s.tokens.size)
      s.tokens.toList] at cut
    obtain ⟨d, first, -⟩ := Cut.append_iff.1 cut
    exact ⟨⟨d, first⟩, fun t mem => h.edges t (List.mem_of_mem_take mem)⟩
  induction fuel generalizing s with
  | zero => exact settled h
  | succ fuel ih =>
    rw [run_succ]
    split
    · obtain ⟨c, cut, -⟩ := h.cut
      exact ⟨⟨c, cut⟩, h.edges⟩
    · split
      · exact settled h
      · next next made =>
        obtain ⟨s₁, fetched, closed⟩ := except_bind_eq_ok_iff.1 made
        exact ih ((h.fetch fetched).keep (closeStale_same closed))

end Scanner

/-- The tokens of a text are cut from it. -/
theorem cut_ofText {text : List Char} (allowed : IsAllowed text) :
    ∃ c, Cut (Cursor.start text) (TokenStream.ofText text).tokens c :=
  (Scanner.cuts_start allowed).run.1

/-- The tokens of a text are within its lines. -/
theorem within_of_mem_ofText {text : List Char} (allowed : IsAllowed text) :
    ∀ t ∈ (TokenStream.ofText text).tokens, t.Within text :=
  (Scanner.cuts_start allowed).run.2

end ManifestLens.Yaml
