import ManifestLens.Text.Lines
import Mathlib.Data.List.TakeWhile

/-!
# Lines with their breaks

The lines of a text join back to it (`flatten_keptLines`), and each ends with a break or with the text (`Broken`).
Joined by line feeds, lines can still be told apart: a line is cut off by its break, and a line that ends with a
carriage return is not followed by one that starts with a line feed.  So different lines are joined to different texts
(`Broken.eq_of_intercalate`).
-/

namespace ManifestLens.Text

/-- No character of the text ends a line. -/
def IsPlain (text : List Char) : Prop :=
  ∀ c ∈ text, isLineEnd c = false

/-- Lines as a text is cut into them: a break ends each of them, but for the last one, which may end without.  Lines
between which a carriage return and a line feed would meet are one line. -/
inductive Broken : List (List Char) → Prop
  | nil : Broken []
  | last {body : List Char} (some : body ≠ []) (plain : IsPlain body) : Broken [body]
  | pair {body : List Char} {rest : List (List Char)} (plain : IsPlain body) (others : Broken rest) :
      Broken ((body ++ ['\r', '\n']) :: rest)
  | single {body : List Char} {c : Char} {rest : List (List Char)} (plain : IsPlain body) (ends : isLineEnd c = true)
      (apart : c = '\r' → rest.flatten.head? ≠ some '\n') (others : Broken rest) : Broken ((body ++ [c]) :: rest)

/-! ### The lines of a text -/

theorem flatten_linesFrom (pending text : List Char) : (linesFrom pending text).flatten = pending.reverse ++ text := by
  fun_induction linesFrom pending text with
  | case1 pending empty => simp_all
  | case2 pending some => simp
  | case3 pending rest ih => simp [ih]
  | case4 pending c rest _ ends ih => simp [ih]
  | case5 pending c rest _ inside ih => simp [ih]

/-- The lines of a text join back to it. -/
theorem flatten_keptLines (text : List Char) : (keptLines text).flatten = text := by
  rw [keptLines, flatten_linesFrom, List.reverse_nil, List.nil_append]

private theorem IsPlain.reverse {text : List Char} (h : IsPlain text) : IsPlain text.reverse :=
  fun c mem => h c (List.mem_reverse.1 mem)

private theorem broken_linesFrom {pending : List Char} (plain : IsPlain pending) (text : List Char) :
    Broken (linesFrom pending text) := by
  fun_induction linesFrom pending text with
  | case1 pending empty => exact .nil
  | case2 pending some => exact .last (by simpa using some) plain.reverse
  | case3 pending rest ih =>
    rw [List.reverse_cons, List.reverse_cons, List.append_assoc]
    exact .pair plain.reverse (ih fun _ mem => absurd mem List.not_mem_nil)
  | case4 pending c rest apart ends ih =>
    rw [List.reverse_cons]
    refine .single plain.reverse ends ?_ (ih fun _ mem => absurd mem List.not_mem_nil)
    rintro rfl
    rw [flatten_linesFrom, List.reverse_nil, List.nil_append]
    -- a line feed here would have been taken with the carriage return
    intro next
    obtain ⟨tail, rfl⟩ := List.head?_eq_some_iff.1 next
    exact apart tail rfl rfl
  | case5 pending c rest _ inside ih =>
    refine ih (List.forall_mem_cons.2 ⟨?_, plain⟩)
    simpa using inside

theorem broken_keptLines (text : List Char) : Broken (keptLines text) :=
  broken_linesFrom (fun _ mem => absurd mem List.not_mem_nil) text

/-! ### Lines among others -/

namespace Broken

variable {lines : List (List Char)}

private theorem tail {line : List Char} (h : Broken (line :: lines)) : Broken lines := by
  cases h with
  | last => exact .nil
  | pair _ others => exact others
  | single _ _ _ others => exact others

theorem drop (h : Broken lines) (n : Nat) : Broken (lines.drop n) := by
  induction n generalizing lines with
  | zero => exact h
  | succ n ih =>
    cases lines with
    | nil => exact .nil
    | cons line lines => exact ih h.tail

/-- A line is not empty. -/
private theorem ne_nil {line : List Char} (h : Broken (line :: lines)) : line ≠ [] := by
  cases h with
  | last some => exact some
  | pair => simp
  | single => simp

private theorem head?_flatten_take (h : Broken lines) (n : Nat) {c : Char}
    (starts : (lines.take n).flatten.head? = some c) : lines.flatten.head? = some c := by
  cases h with
  | nil => simp at starts
  | _ =>
    cases n with
    | zero => simp at starts
    | succ n => simp_all [List.head?_append]

theorem take (h : Broken lines) (n : Nat) : Broken (lines.take n) := by
  induction h generalizing n with
  | nil => simpa using Broken.nil
  | last some plain =>
    cases n with
    | zero => exact .nil
    | succ n => simpa using Broken.last some plain
  | pair plain others ih =>
    cases n with
    | zero => exact .nil
    | succ n => exact .pair plain (ih n)
  | single plain ends apart others ih =>
    cases n with
    | zero => exact .nil
    | succ n => exact .single plain ends (fun cr next => apart cr (others.head?_flatten_take n next)) (ih n)

end Broken

/-! ### Joined lines -/

/-- What follows a line when lines are joined by line feeds. -/
def continued : List (List Char) → List Char
  | [] => []
  | line :: rest => '\n' :: ['\n'].intercalate (line :: rest)

private theorem intercalate_cons (line : List Char) (rest : List (List Char)) :
    ['\n'].intercalate (line :: rest) = line ++ continued rest := by
  cases rest <;> simp [continued, List.intercalate]

private theorem intercalate_of_continued {a b : List (List Char)} (h : continued a = continued b) :
    ['\n'].intercalate a = ['\n'].intercalate b := by
  cases a with
  | nil =>
    cases b with
    | nil => rfl
    | cons => cases h
  | cons =>
    cases b with
    | nil => cases h
    | cons => exact (List.cons.inj h).2

/-- The first break of a text tells where its first line ends. -/
private theorem split_at_break {a b s t : List Char} {x y : Char} (ha : IsPlain a) (hb : IsPlain b)
    (hx : isLineEnd x = true) (hy : isLineEnd y = true) (h : a ++ x :: s = b ++ y :: t) : a = b ∧ x = y ∧ s = t := by
  induction a generalizing b with
  | nil =>
    cases b with
    | nil =>
      obtain ⟨rfl, rfl⟩ := List.cons.inj h
      exact ⟨rfl, rfl, rfl⟩
    | cons c b =>
      obtain ⟨rfl, _⟩ := List.cons.inj h
      rw [hb x List.mem_cons_self] at hx
      cases hx
  | cons c a ih =>
    obtain ⟨hc, ha⟩ := List.forall_mem_cons.1 ha
    cases b with
    | nil =>
      obtain ⟨rfl, _⟩ := List.cons.inj h
      rw [hc] at hy
      cases hy
    | cons d b =>
      obtain ⟨rfl, same⟩ := List.cons.inj h
      obtain ⟨rfl, rfl, rfl⟩ := ih ha (List.forall_mem_cons.1 hb).2 same
      exact ⟨rfl, rfl, rfl⟩

/-- No break is in a text without one. -/
private theorem plain_ne_break {a b s : List Char} {x : Char} (ha : IsPlain a) (hx : isLineEnd x = true) :
    a ≠ b ++ x :: s := by
  rintro rfl
  rw [ha x (by simp)] at hx
  cases hx

namespace Broken

/-- A carriage return with a line feed after it is not a carriage return, the line feed that joins, and a line. -/
private theorem continued_ne {a b : List (List Char)} (hb : Broken b) (apart : b.flatten.head? ≠ some '\n') :
    '\n' :: continued a ≠ continued b := by
  cases b with
  | nil => exact nofun
  | cons line b =>
    intro h
    rw [continued, intercalate_cons] at h
    have h := (List.cons.inj h).2
    obtain ⟨c, line, rfl⟩ := List.exists_cons_of_ne_nil hb.ne_nil
    cases a with
    | nil => cases h
    | cons =>
      obtain ⟨rfl, _⟩ := List.cons.inj h
      exact apart rfl

/-- Lines that are joined to the same text are the same. -/
theorem eq_of_intercalate {a b : List (List Char)} (ha : Broken a) (hb : Broken b)
    (h : ['\n'].intercalate a = ['\n'].intercalate b) : a = b := by
  have cr : isLineEnd '\r' = true := by decide
  induction ha generalizing b with
  | nil =>
    cases b with
    | nil => rfl
    | cons line b =>
      rw [intercalate_cons] at h
      exact absurd (List.append_eq_nil_iff.1 h.symm).1 hb.ne_nil
  | last some plain =>
    rw [intercalate_cons, continued, List.append_nil] at h
    cases hb with
    | nil => exact absurd h some
    | last => simpa [List.intercalate] using h
    | pair _ others =>
      rw [intercalate_cons, List.append_assoc] at h
      exact absurd h (plain_ne_break plain cr)
    | single _ ends _ others =>
      rw [intercalate_cons, List.append_assoc] at h
      exact absurd h (plain_ne_break plain ends)
  | pair plain others ih =>
    rw [intercalate_cons, List.append_assoc] at h
    cases hb with
    | nil => simp at h
    | last some' plain' =>
      rw [intercalate_cons, continued, List.append_nil] at h
      exact absurd h.symm (plain_ne_break plain' cr)
    | pair plain' others' =>
      rw [intercalate_cons, List.append_assoc] at h
      obtain ⟨rfl, _, after⟩ := split_at_break plain plain' cr cr h
      rw [ih others' (intercalate_of_continued (List.cons.inj after).2)]
    | single plain' ends apart others' =>
      rw [intercalate_cons, List.append_assoc] at h
      obtain ⟨rfl, rfl, after⟩ := split_at_break plain plain' cr ends h
      exact absurd after (others'.continued_ne (apart rfl))
  | single plain ends apart others ih =>
    rw [intercalate_cons, List.append_assoc] at h
    cases hb with
    | nil => simp at h
    | last some' plain' =>
      rw [intercalate_cons, continued, List.append_nil] at h
      exact absurd h.symm (plain_ne_break plain' ends)
    | pair plain' others' =>
      rw [intercalate_cons, List.append_assoc] at h
      obtain ⟨rfl, rfl, after⟩ := split_at_break plain plain' ends cr h
      exact absurd after.symm (others.continued_ne (apart rfl))
    | single plain' ends' apart' others' =>
      rw [intercalate_cons, List.append_assoc] at h
      obtain ⟨rfl, rfl, after⟩ := split_at_break plain plain' ends ends' h
      rw [ih others' (intercalate_of_continued after)]

end Broken

end ManifestLens.Text
