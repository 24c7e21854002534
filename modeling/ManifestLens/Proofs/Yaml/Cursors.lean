import ManifestLens.Proofs.Text.Lines
import ManifestLens.Yaml.Token.Stream

/-!
# Cursors and the lines of their text

Reading moves a cursor over the characters of a text one by one (`Passes`).  What a mark says can be told from the
lines of the text: its line is the number of the lines before it, and its column counts the characters before it on its
own line, but for byte order marks (`OnLine`).  Between two cursors on one line stands what was passed between them
(`OnLine.of_line_eq`).
-/

namespace ManifestLens.Yaml

variable {a : Char} {c d : Cursor} {current pending rest : List Char}

/-! ### Passing characters -/

/-- Between two cursors of a text, the given characters are passed. -/
inductive Passes : Cursor → List Char → Cursor → Prop where
  | here (c : Cursor) : Passes c [] c
  | char {c d : Cursor} {a : Char} {rest passed : List Char} (ahead : c.rest = a :: rest)
      (further : Passes c.next passed d) : Passes c (a :: passed) d

/-- From one cursor, another is reached by passing characters. -/
def Reaches (c d : Cursor) : Prop :=
  ∃ passed, Passes c passed d

/-- The character ends a line, given the character that follows it. -/
def endsLine (a next : Char) : Bool :=
  a == '\n' || a == '\x85' || a == '\u2028' || a == '\u2029' || (a == '\r' && next != '\n')

theorem Mark.after_of_endsLine {m : Mark} {next : Char} (h : endsLine a next = true) :
    m.after a next = ⟨m.index + 1, m.line + 1, 0⟩ :=
  if_pos h

theorem Mark.after_of_not_endsLine {m : Mark} {next : Char} (h : ¬endsLine a next = true) :
    m.after a next = ⟨m.index + 1, m.line, m.column + [a].countP (· != '\ufeff')⟩ := by
  refine (if_neg h).trans ?_
  by_cases mark : a = '\ufeff'
  · subst mark
    rfl
  · simp [mark]

namespace Cursor

theorem next_of_rest (ahead : c.rest = a :: rest) : c.next = ⟨c.mark.after a (rest.head?.getD '\x00'), rest⟩ := by
  rw [next, ahead]

theorem next_of_nil (done : c.rest = []) : c.next = c := by
  rw [next, done]

private theorem rest_next (ahead : c.rest = a :: rest) : c.next.rest = rest := by
  rw [next_of_rest ahead]

private theorem line_le_next (c : Cursor) : c.mark.line ≤ c.next.mark.line := by
  cases ahead : c.rest with
  | nil => rw [next_of_nil ahead]
  | cons a rest =>
    rw [next_of_rest ahead]
    by_cases ends : endsLine a (rest.head?.getD '\x00') = true
    · rw [Mark.after_of_endsLine ends]
      exact Nat.le_succ _
    · rw [Mark.after_of_not_endsLine ends]

end Cursor

namespace Passes

variable {e : Cursor} {passed more : List Char}

theorem trans (h : Passes c passed d) (further : Passes d more e) : Passes c (passed ++ more) e := by
  induction h with
  | here => exact further
  | char ahead _ ih => exact .char ahead (ih further)

/-- What is passed is what the text goes on with. -/
theorem rest_eq (h : Passes c passed d) : c.rest = passed ++ d.rest := by
  induction h with
  | here => rfl
  | char ahead _ ih => rw [ahead, List.cons_append, ← ih, Cursor.rest_next ahead]

theorem line_le (h : Passes c passed d) : c.mark.line ≤ d.mark.line := by
  induction h with
  | here => exact Nat.le_refl _
  | char _ _ ih => exact Nat.le_trans (Cursor.line_le_next _) ih

theorem single (ahead : c.rest = a :: rest) : Passes c [a] c.next :=
  .char ahead (.here _)

theorem advance (c : Cursor) (n : Nat) : Passes c (c.rest.take n) (c.advance n) := by
  induction n generalizing c with
  | zero =>
    rw [List.take_zero]
    exact .here c
  | succ n ih =>
    have further := ih c.next
    rw [Cursor.advance]
    cases ahead : c.rest with
    | nil =>
      rw [Cursor.next_of_nil ahead, ahead, List.take_nil] at further
      rwa [List.take_nil, Cursor.next_of_nil ahead]
    | cons a rest =>
      rw [Cursor.rest_next ahead] at further
      exact .char ahead further

theorem next (c : Cursor) : Passes c (c.rest.take 1) c.next :=
  advance c 1

/-- Where no break is passed, the cursor stays on its line. -/
theorem mark_of_noBreak (h : Passes c passed d) (plain : passed.any isBreak = false) :
    d.mark.line = c.mark.line ∧ d.mark.column = c.mark.column + passed.countP (· != '\ufeff') := by
  induction h with
  | here => exact ⟨rfl, rfl⟩
  | @char c d a rest passed ahead _ ih =>
    obtain ⟨first, others⟩ := Bool.or_eq_false_iff.1 plain
    have inside : ¬endsLine a (rest.head?.getD '\x00') = true := by
      simp only [isBreak, Bool.or_eq_false_iff] at first
      simp [endsLine, first]
    obtain ⟨line, column⟩ := ih others
    rw [Cursor.next_of_rest ahead, Mark.after_of_not_endsLine inside] at line column
    rw [List.countP_cons, Nat.add_comm (passed.countP _), ← Nat.add_assoc]
    refine ⟨line, column.trans ?_⟩
    rw [List.countP_singleton]

/-- A run of characters of a class is passed, up to a character of another class or the end of the text. -/
theorem span {p : Char → Bool} {run : List Char} (h : c.span p = (run, d)) :
    Passes c run d ∧ run.all p = true ∧ (d.rest = [] ∨ p d.head = false) := by
  cases h
  have prefixed : c.rest.take (c.rest.takeWhile p).length = c.rest.takeWhile p :=
    (List.prefix_iff_eq_take.1 (List.takeWhile_prefix p)).symm
  have run := advance c (c.rest.takeWhile p).length
  rw [prefixed] at run
  refine ⟨run, List.all_takeWhile, ?_⟩
  have rest : (c.advance (c.rest.takeWhile p).length).rest = c.rest.dropWhile p :=
    List.append_cancel_left (run.rest_eq.symm.trans List.takeWhile_append_dropWhile.symm)
  rw [Cursor.head, rest]
  cases left : c.rest.dropWhile p with
  | nil => exact .inl rfl
  | cons a others =>
    have := List.head?_dropWhile_not p c.rest
    rw [left] at this
    exact .inr (by simpa using this)

theorem skip (c : Cursor) (p : Char → Bool) : ∃ run, Passes c run (c.skip p) ∧ run.all p = true ∧
    ((c.skip p).rest = [] ∨ p (c.skip p).head = false) :=
  ⟨_, span rfl⟩

theorem reaches (h : Passes c passed d) : Reaches c d :=
  ⟨passed, h⟩

end Passes

namespace Reaches

variable {e : Cursor}

theorem refl (c : Cursor) : Reaches c c :=
  (Passes.here c).reaches

theorem trans (h : Reaches c d) (further : Reaches d e) : Reaches c e := by
  obtain ⟨passed, first⟩ := h
  obtain ⟨more, second⟩ := further
  exact (first.trans second).reaches

theorem next (c : Cursor) : Reaches c c.next :=
  (Passes.next c).reaches

theorem advance (c : Cursor) (n : Nat) : Reaches c (c.advance n) :=
  (Passes.advance c n).reaches

theorem skip (c : Cursor) (p : Char → Bool) : Reaches c (c.skip p) := by
  obtain ⟨run, passes, -⟩ := Passes.skip c p
  exact passes.reaches

theorem line_le (h : Reaches c d) : c.mark.line ≤ d.mark.line := by
  obtain ⟨passed, passes⟩ := h
  exact passes.line_le

end Reaches

/-! ### Line breaks -/

private theorem Cursor.head_of_rest (ahead : c.rest = a :: rest) : c.head = a := by
  rw [head, ahead]
  rfl

theorem Cursor.exists_rest (h : c.head ≠ '\x00') : ∃ rest, c.rest = c.head :: rest := by
  cases ahead : c.rest with
  | nil => exact absurd (by rw [head, ahead]; rfl) h
  | cons a rest => exact ⟨rest, by rw [head_of_rest ahead]⟩

theorem Cursor.lineBreak_of_not_isBreak (h : isBreak c.head = false) : c.lineBreak = ([], c) := by
  simp only [isBreak, Bool.or_eq_false_iff, beq_eq_false_iff_ne] at h
  simp [lineBreak, h]

/-- A line break is passed as a whole, and the next line starts after it. -/
theorem Passes.lineBreak {read : List Char} (h : isBreak c.head = true) (isRead : c.lineBreak = (read, d)) :
    ∃ passed a, Passes c (passed ++ [a]) d ∧ (passed ++ [a]).all isBreak = true ∧ read.all isBreak = true ∧
      d.mark.line = c.mark.line + 1 ∧ d.mark.column = 0 := by
  obtain ⟨rest, ahead⟩ := Cursor.exists_rest (c := c) (by rintro none; rw [none] at h; cases h)
  have isOne := h
  simp only [isBreak, Bool.or_eq_true, beq_iff_eq] at isOne
  by_cases pair : c.startsWith ['\r', '\n'] = true
  · obtain ⟨others, two⟩ := List.isPrefixOf_iff_prefix.1 pair
    have first : c.rest = '\r' :: '\n' :: others := two.symm
    have second := Cursor.rest_next first
    have after : c.lineBreak = (['\n'], c.next.next) := by
      simp [Cursor.lineBreak, Cursor.head_of_rest first, pair, Cursor.advance]
    have middle : c.next.mark.line = c.mark.line := by
      rw [Cursor.next_of_rest first, Mark.after_of_not_endsLine (by simp [endsLine])]
    rw [after] at isRead
    cases isRead
    refine ⟨['\r'], '\n', .char first (.single second), by decide, by decide, ?_, ?_⟩ <;>
      rw [Cursor.next_of_rest second, Mark.after_of_endsLine rfl]
    rw [middle]
  · have ends : endsLine c.head (rest.head?.getD '\x00') = true := by
      rcases isOne with (((cr | lf) | nel) | ls) | ps
      · have apart : rest.head?.getD '\x00' ≠ '\n' := by
          intro next
          cases rest with
          | nil => cases next
          | cons a rest =>
            rw [List.head?_cons, Option.getD_some] at next
            rw [Cursor.startsWith, ahead, cr, next] at pair
            exact pair (by simp [List.isPrefixOf])
        simp [endsLine, cr, apart]
      all_goals simp [endsLine, *]
    have after : ∃ read, c.lineBreak = (read, c.next) ∧ read.all isBreak = true := by
      rcases isOne with (((cr | lf) | nel) | ls) | ps <;> simp [Cursor.lineBreak, isBreak, *]
    obtain ⟨_, after, breaks⟩ := after
    rw [after] at isRead
    cases isRead
    refine ⟨[], c.head, .single ahead, by simpa using h, breaks, ?_, ?_⟩ <;>
      rw [Cursor.next_of_rest ahead, Mark.after_of_endsLine ends]

theorem Reaches.lineBreak (c : Cursor) : Reaches c c.lineBreak.2 := by
  by_cases h : isBreak c.head = true
  · obtain ⟨passed, a, passes, -⟩ := Passes.lineBreak h (Prod.eta _).symm
    exact passes.reaches
  · rw [Cursor.lineBreak_of_not_isBreak (Bool.eq_false_iff.2 h)]
    exact .refl c

/-! ### Lines -/

/-- A text that may be read. -/
def IsAllowed (text : List Char) : Prop :=
  ∀ a ∈ text, isAllowed a = true

theorem isAllowed_of_firstForbidden {index : Nat} {text : List Char} (h : firstForbidden index text = none) :
    IsAllowed text := by
  induction text generalizing index with
  | nil => exact List.forall_mem_nil _
  | cons a text ih =>
    rw [firstForbidden] at h
    split at h
    · next allowed => exact List.forall_mem_cons.2 ⟨allowed, ih h⟩
    · cases h

theorem Passes.isAllowed {passed : List Char} (h : Passes c passed d) (allowed : IsAllowed c.rest) :
    IsAllowed d.rest := by
  intro a mem
  exact allowed a (h.rest_eq ▸ List.mem_append_right passed mem)

/-- A text that may be read ends where no character is ahead. -/
theorem Cursor.rest_eq_nil (allowed : IsAllowed c.rest) (h : c.head = '\x00') : c.rest = [] := by
  cases ahead : c.rest with
  | nil => rfl
  | cons a rest =>
    rw [head_of_rest ahead] at h
    have isAllowed := allowed a (ahead ▸ List.mem_cons_self)
    rw [h] at isAllowed
    cases isAllowed

/-- A line goes on up to a break or the end of the text. -/
theorem Passes.lineStop {line : List Char} (allowed : IsAllowed c.rest)
    (h : c.span (fun a => !isLineStop a) = (line, d)) :
    Passes c line d ∧ line.any isBreak = false ∧ (isBreak d.head = true ∨ isBreak d.head = false ∧ d.rest = []) := by
  obtain ⟨run, inLine, ends⟩ := span h
  refine ⟨run, ?_, ?_⟩
  · rw [List.any_eq_false]
    intro a mem
    have inside := List.all_eq_true.1 inLine a mem
    simp only [isLineStop, Bool.not_eq_true', Bool.or_eq_false_iff] at inside
    simp [inside]
  · by_cases isBreak : isBreak d.head = true
    · exact .inl isBreak
    · refine .inr ⟨Bool.eq_false_iff.2 isBreak, ends.elim id fun stop => ?_⟩
      simp only [isLineStop, Bool.not_eq_false', Bool.or_eq_true, beq_iff_eq] at stop
      exact d.rest_eq_nil (run.isAllowed allowed) (stop.resolve_right isBreak)

/-- In a text that may be read, lines end where breaks are. -/
theorem isLineEnd_eq_isBreak (h : isAllowed a = true) : Text.isLineEnd a = isBreak a := by
  rw [Bool.eq_iff_iff]
  simp only [isAllowed, Text.isLineEnd, isBreak, Bool.or_eq_true, Bool.and_eq_true, decide_eq_true_eq, beq_iff_eq,
    ← Char.toNat_inj, Char.reduceToNat] at h ⊢
  omega

private theorem isBreak_of_endsLine {next : Char} (h : endsLine a next = true) : isBreak a = true := by
  simp only [endsLine, Bool.or_eq_true, Bool.and_eq_true] at h
  rcases h with (((lf | nel) | ls) | ps) | ⟨cr, _⟩ <;> simp [isBreak, *]

private theorem isLineEnd_eq_endsLine {next : Char} (h : isAllowed a = true) (apart : ¬(a = '\r' ∧ next = '\n')) :
    Text.isLineEnd a = endsLine a next := by
  rw [isLineEnd_eq_isBreak h, isBreak, endsLine]
  by_cases cr : a = '\r'
  · have : next ≠ '\n' := fun lf => apart ⟨cr, lf⟩
    simp [cr, this]
  · have : (a == '\r') = false := beq_false_of_ne cr
    simp [this]

/-- A line of a text goes on up to the character that ends it. -/
private theorem linesFrom_cons (allowed : isAllowed a = true) (pending rest : List Char) :
    Text.linesFrom pending (a :: rest) =
      if endsLine a (rest.head?.getD '\x00') = true then (a :: pending).reverse :: Text.linesFrom [] rest
      else Text.linesFrom (a :: pending) rest := by
  by_cases pair : ∃ others, a = '\r' ∧ rest = '\n' :: others
  · obtain ⟨others, rfl, rfl⟩ := pair
    rw [if_neg (by simp [endsLine]), Text.linesFrom, Text.linesFrom, if_pos (by decide)]
    rintro _ ⟨⟩
  · have apart : ¬(a = '\r' ∧ rest.head?.getD '\x00' = '\n') := by
      rintro ⟨cr, lf⟩
      cases rest with
      | nil => cases lf
      | cons b others => exact pair ⟨others, cr, by rw [← show b = '\n' from lf]⟩
    rw [← isLineEnd_eq_endsLine allowed apart, Text.linesFrom]
    intro others cr lf
    exact pair ⟨others, cr, lf⟩

/-- The line ends with a break. -/
def IsEnded (line : List Char) : Prop :=
  (Text.dropBreak line).length < line.length

private theorem isEnded_concat (ends : Text.isLineEnd a = true) (start : List Char) : IsEnded (start ++ [a]) := by
  have dropped : Text.dropBreak (start ++ [a]) = Text.dropBreak start := by
    rw [Text.dropBreak, List.reverse_concat, List.dropWhile_cons_of_pos ends]
    rfl
  have shorter := (List.dropWhile_suffix Text.isLineEnd (l := start.reverse)).length_le
  rw [IsEnded, dropped, Text.dropBreak, List.length_reverse, List.length_append, List.length_singleton]
  rw [List.length_reverse] at shorter
  omega

/-- A cursor of a text is after the given lines, and after the given start of its own line, which has no break unless
the cursor is inside of it. -/
structure OnLine (text : List Char) (c : Cursor) (done : List (List Char)) (current : List Char) : Prop where
  lines : Text.keptLines text = done ++ Text.linesFrom current.reverse c.rest
  number : done.length = c.mark.line
  column : current.countP (· != '\ufeff') = c.mark.column
  ended : ∀ line ∈ done, IsEnded line
  plain : current.any Text.isLineEnd = false ∨ c.head = '\n' ∧ ∃ start, current = start ++ ['\r']

namespace OnLine

variable {text passed : List Char} {done : List (List Char)}

theorem start (text : List Char) : OnLine text (Cursor.start text) [] [] :=
  ⟨rfl, rfl, rfl, List.forall_mem_nil _, .inl rfl⟩

private theorem text_eq (h : OnLine text c done current) : text = done.flatten ++ (current ++ c.rest) := by
  rw [← Text.flatten_keptLines text, h.lines, List.flatten_append, Text.flatten_linesFrom, List.reverse_reverse]

theorem allowed_rest (h : OnLine text c done current) (allowed : IsAllowed text) : IsAllowed c.rest := by
  intro a mem
  refine allowed a ?_
  rw [h.text_eq]
  exact List.mem_append_right _ (List.mem_append_right _ mem)

/-- One character further on, the cursor is on the same line or at the start of the next. -/
private theorem exists_next (h : OnLine text c done current) (allowed : IsAllowed text) (ahead : c.rest = a :: rest) :
    ∃ more start, OnLine text c.next (done ++ more) start ∧ current ++ [a] = more.flatten ++ start := by
  have lines := h.lines
  have isAllowed := h.allowed_rest allowed a (ahead ▸ List.mem_cons_self)
  rw [ahead, linesFrom_cons isAllowed] at lines
  by_cases ends : endsLine a (rest.head?.getD '\x00') = true
  · rw [if_pos ends] at lines
    have isEnd : Text.isLineEnd a = true := by
      rw [isLineEnd_eq_isBreak isAllowed]
      exact isBreak_of_endsLine ends
    refine ⟨[current ++ [a]], [], ⟨?_, ?_, ?_, ?_, .inl rfl⟩, by simp⟩
    · rw [Cursor.next_of_rest ahead, lines, List.reverse_cons, List.reverse_reverse, List.append_assoc]
      rfl
    · rw [Cursor.next_of_rest ahead, Mark.after_of_endsLine ends, List.length_append, h.number]
      rfl
    · rw [Cursor.next_of_rest ahead, Mark.after_of_endsLine ends]
      rfl
    · exact List.forall_mem_append.2 ⟨h.ended, List.forall_mem_singleton.2 (isEnded_concat isEnd current)⟩
  · rw [if_neg ends] at lines
    refine ⟨[], current ++ [a], ⟨?_, ?_, ?_, ?_, ?_⟩, rfl⟩
    · rw [Cursor.next_of_rest ahead, lines, List.append_nil, List.reverse_append]
      rfl
    · rw [Cursor.next_of_rest ahead, Mark.after_of_not_endsLine ends, List.append_nil, h.number]
    · rw [Cursor.next_of_rest ahead, Mark.after_of_not_endsLine ends, List.countP_append, h.column]
    · rw [List.append_nil]
      exact h.ended
    · by_cases pair : a = '\r' ∧ rest.head?.getD '\x00' = '\n'
      · refine .inr ⟨?_, current, by rw [pair.1]⟩
        rw [Cursor.head, Cursor.rest_next ahead, pair.2]
      · rw [← isLineEnd_eq_endsLine isAllowed pair] at ends
        -- a break that the cursor was inside of would end here
        have before : current.any Text.isLineEnd = false := h.plain.resolve_right fun inside => by
          rw [Cursor.head_of_rest ahead] at inside
          exact ends (by rw [inside.1]; decide)
        refine .inl ?_
        rw [List.any_append, before, List.any_cons, List.any_nil, Bool.eq_false_iff.2 ends]
        rfl

/-- Further on, the cursor is after more lines, which with the start of its own line hold what was passed. -/
theorem exists_of_passes (h : OnLine text c done current) (allowed : IsAllowed text) (passes : Passes c passed d) :
    ∃ more start, OnLine text d (done ++ more) start ∧ current ++ passed = more.flatten ++ start := by
  induction passes generalizing done current with
  | here => exact ⟨[], current, by rwa [List.append_nil], List.append_nil _⟩
  | @char c d a rest passed ahead _ ih =>
    obtain ⟨first, start, next, split⟩ := h.exists_next allowed ahead
    obtain ⟨more, start', further, split'⟩ := ih next
    refine ⟨first ++ more, start', by rwa [← List.append_assoc], ?_⟩
    rw [List.append_cons, split, List.append_assoc, split', List.flatten_append, List.append_assoc]

/-- Between two cursors on one line stands what was passed between them. -/
theorem of_line_eq (h : OnLine text c done current) (allowed : IsAllowed text) (passes : Passes c passed d)
    (same : d.mark.line = c.mark.line) : OnLine text d done (current ++ passed) := by
  obtain ⟨more, start, further, split⟩ := h.exists_of_passes allowed passes
  have none : more = [] := by
    have := further.number
    rw [same, ← h.number, List.length_append] at this
    exact List.eq_nil_of_length_eq_zero (by omega)
  subst none
  rw [List.append_nil] at further
  rwa [split]

/-- After a break that is passed up to the first column, a line starts. -/
theorem exists_of_break (h : OnLine text c done current) (allowed : IsAllowed text) (passes : Passes c passed d)
    (last : passed.getLast? = some a) (ends : isBreak a = true) (first : d.mark.column = 0) :
    ∃ more, OnLine text d (done ++ more) [] ∧ current ++ passed = more.flatten := by
  obtain ⟨more, start, further, split⟩ := h.exists_of_passes allowed passes
  have marks := further.column
  rw [first, List.countP_eq_zero] at marks
  -- the start of a line would hold the break
  have none : start = [] := by
    by_contra nonempty
    have same := congrArg List.getLast? split
    rw [List.getLast?_append, List.getLast?_append, last, List.getLast?_eq_some_getLast nonempty, Option.some_or,
      Option.some_or] at same
    have isMark := marks _ (List.getLast_mem nonempty)
    rw [← Option.some.inj same] at isMark
    simp only [bne_iff_ne, ne_eq, Decidable.not_not] at isMark
    rw [isMark] at ends
    cases ends
  subst none
  exact ⟨more, further, by rw [split, List.append_nil]⟩

end OnLine

/-! ### The lines of a file -/

private theorem exists_linesFrom (some : pending ≠ [] ∨ rest ≠ []) :
    ∃ more others, Text.linesFrom pending rest = (pending.reverse ++ more) :: others := by
  fun_induction Text.linesFrom pending rest with
  | case1 pending empty => simp_all
  | case2 pending nonempty => exact ⟨[], [], by simp⟩
  | case3 pending rest => exact ⟨['\r', '\n'], Text.linesFrom [] rest, by simp⟩
  | case4 pending a rest => exact ⟨[a], Text.linesFrom [] rest, by simp⟩
  | case5 pending a rest _ _ ih =>
    obtain ⟨more, others, same⟩ := ih (.inl (List.cons_ne_nil a pending))
    exact ⟨a :: more, others, by rw [same]; simp⟩

/-- The line of a cursor starts with what is before the cursor. -/
theorem OnLine.exists_line {text : List Char} {done : List (List Char)} (h : OnLine text c done current)
    (some : current ≠ [] ∨ c.rest ≠ []) : ∃ more, (Text.keptLines text)[c.mark.line]? = .some (current ++ more) := by
  have written : current.reverse ≠ [] ∨ c.rest ≠ [] := some.imp_left (by simpa using ·)
  obtain ⟨more, others, same⟩ := exists_linesFrom written
  refine ⟨more, ?_⟩
  rw [h.lines, same, ← h.number, List.getElem?_append_right (Nat.le_refl _), Nat.sub_self, List.reverse_reverse]
  rfl

/-- Leaving the break out takes nothing from a start of the line that does not reach up to the break. -/
theorem exists_dropBreak (inside : Text.isLineEnd a = false) (start more : List Char) :
    ∃ others, Text.dropBreak (start ++ [a] ++ more) = start ++ [a] ++ others := by
  rw [Text.dropBreak, List.reverse_append, List.dropWhile_append]
  split
  · refine ⟨[], ?_⟩
    rw [List.reverse_append, List.reverse_singleton, List.singleton_append,
      List.dropWhile_cons_of_neg (by simp [inside])]
    simp
  · exact ⟨(more.reverse.dropWhile Text.isLineEnd).reverse, by simp⟩

theorem OnLine.exists_line_of_file {text : String} {done : List (List Char)} (h : OnLine text.toList c done current)
    {start : List Char} (isLast : current = start ++ [a]) (inside : Text.isLineEnd a = false) (keepBreaks : Bool) :
    ∃ more, ((Text.lines text keepBreaks).map String.toList)[c.mark.line]? = some (current ++ more) := by
  obtain ⟨more, line⟩ := h.exists_line (.inl (by simp [isLast]))
  cases keepBreaks with
  | true => exact ⟨more, by simp [Text.lines, line]⟩
  | false =>
    obtain ⟨others, cut⟩ := exists_dropBreak inside start more
    exact ⟨others, by simp [Text.lines, line, isLast, ← cut]⟩

end ManifestLens.Yaml
