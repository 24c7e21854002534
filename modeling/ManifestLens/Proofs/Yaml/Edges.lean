import ManifestLens.Proofs.Yaml.Spelling

/-!
# Where tokens start and end

A carriage return and a line feed are one break, so the cursor between the two is on a line but after its text.  No
token starts or ends there.  Wherever else a cursor is (`Cursor.Whole`), its mark is within the lines of the text: not
after the text of its line, and all lines before are ended (`Cursor.Whole.within`).
-/

namespace ManifestLens.Yaml

/-! ### Staying on a line -/

/-- From one cursor, another is reached on the same line. -/
def Stays (c d : Cursor) : Prop :=
  ∃ run, Passes c run d ∧ run.any isBreak = false

/-- The characters that are breaks. -/
def breaks : List Char :=
  ['\r', '\n', '\x85', '\u2028', '\u2029']

/-- A class of characters has no breaks in it. -/
theorem isBreak_eq_false {p : Char → Bool} (none : breaks.any p = false) {a : Char}
    (h : p a = true) : isBreak a = false := by
  rw [Bool.eq_false_iff]
  intro isOne
  have mem : a ∈ breaks := by
    simpa [isBreak, breaks, or_assoc] using isOne
  exact List.any_eq_false.1 none a mem h

namespace Stays

variable {c d e : Cursor}

theorem reaches (h : Stays c d) : Reaches c d := by
  obtain ⟨run, passes, -⟩ := h
  exact passes.reaches

theorem refl (c : Cursor) : Stays c c :=
  ⟨[], .here c, rfl⟩

theorem trans (h : Stays c d) (further : Stays d e) : Stays c e := by
  obtain ⟨run, first, plain⟩ := h
  obtain ⟨more, second, plain'⟩ := further
  exact ⟨run ++ more, first.trans second, by rw [List.any_append, plain, plain', Bool.or_false]⟩

theorem advance {n : Nat} (h : ∀ k < n, isBreak (c.peek k) = false) : Stays c (c.advance n) := by
  refine ⟨_, .advance c n, List.any_eq_false.2 fun a mem => ?_⟩
  obtain ⟨k, lt, isChar⟩ := List.mem_take_iff_getElem.1 mem
  have ahead : c.peek k = a := by
    rw [Cursor.peek, List.getElem?_eq_getElem (by omega), Option.getD_some, isChar]
  rw [← ahead, h k (by omega)]
  exact Bool.false_ne_true

theorem next (h : isBreak c.head = false) : Stays c c.next := by
  refine advance (n := 1) fun k lt => ?_
  obtain rfl : k = 0 := by omega
  rwa [Cursor.peek, ← List.head?_eq_getElem?]

theorem skip {p : Char → Bool} (none : breaks.any p = false) (c : Cursor) :
    Stays c (c.skip p) := by
  obtain ⟨run, passes, all, -⟩ := Passes.skip c p
  refine ⟨run, passes, List.any_eq_false.2 fun a mem => ?_⟩
  rw [isBreak_eq_false none (List.all_eq_true.1 all a mem)]
  exact Bool.false_ne_true

/-- A text without breaks is passed on its line. -/
theorem of_startsWith {text : List Char} (ahead : c.startsWith text = true) (plain : text.any isBreak = false) :
    Stays c (c.advance text.length) :=
  ⟨text, .run (List.isPrefixOf_iff_prefix.1 ahead), plain⟩

end Stays

/-! ### Places within lines -/

/-- The mark is within the lines: not after the text of its own, and all lines before it are ended. -/
structure Mark.Within (lines : List (List Char)) (m : Mark) : Prop where
  column : m.column ≤ (Text.dropBreak ((lines[m.line]?).getD [])).length
  ended : ∀ n < m.line, ∃ line, lines[n]? = some line ∧ IsEnded line

theorem Mark.Within.default {lines : List (List Char)} : (default : Mark).Within lines :=
  ⟨Nat.zero_le _, fun _ lt => absurd lt (Nat.not_lt_zero _)⟩

/-- The cursor is not inside a break. -/
def Cursor.Whole (text : List Char) (c : Cursor) : Prop :=
  ∃ done current, OnLine text c done current ∧ current.any Text.isLineEnd = false

namespace Cursor.Whole

variable {text passed : List Char} {c d : Cursor}

/-- A cursor is inside a break only if a line feed is ahead. -/
theorem of_head (reaches : Reaches (Cursor.start text) c) (allowed : IsAllowed text) (h : c.head ≠ '\n') :
    c.Whole text := by
  obtain ⟨passed, passes⟩ := reaches
  obtain ⟨done, current, onLine, -⟩ := (OnLine.start text).exists_of_passes allowed passes
  exact ⟨_, current, onLine, onLine.plain.resolve_right fun inside => h inside.1⟩

/-- After the end of the text nothing is ahead. -/
private theorem of_rest (reaches : Reaches (Cursor.start text) c) (allowed : IsAllowed text) (h : c.rest = []) :
    c.Whole text := by
  refine of_head reaches allowed ?_
  rw [Cursor.head, h]
  decide

/-- A cursor is inside a break only after a carriage return. -/
private theorem of_passes (whole : c.Whole text) (allowed : IsAllowed text) (passes : Passes c passed d)
    (last : ∀ a, passed.getLast? = some a → a ≠ '\r') : d.Whole text := by
  obtain ⟨done, current, onLine, plain⟩ := whole
  obtain ⟨more, start, further, split⟩ := onLine.exists_of_passes allowed passes
  refine ⟨_, start, further, further.plain.elim id ?_⟩
  rintro ⟨-, before, rfl⟩
  -- the last character before the cursor is the carriage return, whether it was passed or not
  have same := congrArg List.getLast? split
  rw [← List.append_assoc, List.getLast?_concat, List.getLast?_append] at same
  cases isLast : passed.getLast? with
  | some a =>
    rw [isLast, Option.some_or] at same
    exact absurd (Option.some.inj same) (last a isLast)
  | none =>
    rw [isLast, Option.none_or] at same
    have ends := List.any_eq_false.1 plain '\r' (List.mem_of_getLast? same)
    exact absurd (by decide) ends

theorem of_stays (whole : c.Whole text) (allowed : IsAllowed text) (stays : Stays c d) : d.Whole text := by
  obtain ⟨run, passes, plain⟩ := stays
  refine whole.of_passes allowed passes fun a isLast cr => ?_
  have inside := List.any_eq_false.1 plain a (List.mem_of_getLast? isLast)
  rw [cr] at inside
  exact inside (by decide)

private theorem of_startsLine (reaches : Reaches (Cursor.start text) c) (allowed : IsAllowed text)
    (passes : Passes c passed d) (h : StartsLine passed d) : d.Whole text := by
  obtain ⟨before, leads⟩ := reaches
  obtain ⟨done, current, onLine, -⟩ := (OnLine.start text).exists_of_passes allowed leads
  obtain ⟨a, isLast, isBreak, column⟩ := h
  obtain ⟨more, further, -⟩ := onLine.exists_of_break allowed passes isLast isBreak column
  exact ⟨_, [], further, rfl⟩

/-- A scalar does not end inside a break. -/
theorem of_spelled {written : List Char} {style : ScalarStyle} (whole : c.Whole text) (allowed : IsAllowed text)
    (reaches : Reaches (Cursor.start text) c) (h : Spelled c written d style) : d.Whole text := by
  cases h with
  | plain _ passes _ last =>
    refine whole.of_passes allowed passes fun a isLast cr => ?_
    have gap := last a isLast
    rw [cr] at gap
    cases gap
  | quoted double _ passes =>
    refine whole.of_passes allowed passes fun a isLast cr => ?_
    rw [List.getLast?_concat, Option.some.injEq, cr] at isLast
    cases double <;> cases isLast
  | @block mark header body start _ _ heads below passes _ ends =>
    have reachesStart := reaches.trans heads.reaches
    rcases ends with rfl | starts | ⟨done, -⟩
    · cases passes
      rcases below with done | ⟨-, starts⟩
      · exact of_rest reachesStart allowed done
      · exact of_startsLine reaches allowed heads starts
    · exact of_startsLine reachesStart allowed passes starts
    · exact of_rest (reachesStart.trans passes.reaches) allowed done

/-- Outside of breaks, the mark of a cursor is within the lines of its text. -/
theorem within (h : c.Whole text) : c.mark.Within (Text.keptLines text) := by
  obtain ⟨done, current, onLine, plain⟩ := h
  constructor
  · rw [← onLine.column]
    refine List.countP_le_length.trans ?_
    rcases List.eq_nil_or_concat current with rfl | ⟨start, a, isLast⟩
    · exact Nat.zero_le _
    · rw [List.concat_eq_append] at isLast
      subst isLast
      obtain ⟨more, line⟩ := onLine.exists_line (.inl (by simp))
      have inside : Text.isLineEnd a = false := by
        rw [List.any_append, Bool.or_eq_false_iff] at plain
        simpa using plain.2
      obtain ⟨others, cut⟩ := exists_dropBreak inside start more
      rw [line, Option.getD_some, cut]
      exact (List.prefix_append _ others).length_le
  · intro n lt
    rw [← onLine.number] at lt
    refine ⟨done[n], ?_, onLine.ended _ (List.getElem_mem lt)⟩
    rw [onLine.lines, List.getElem?_append_left lt, List.getElem?_eq_getElem lt]

end Cursor.Whole

end ManifestLens.Yaml
