import ManifestLens.Proofs.Expression.Braces

/-!
# Trailing commas

What a trailing comma is can be told from the lines alone: a comma outside of literals after which only blanks stand up
to a closing brace outside of literals, on whatever line (`IsTrailingComma`).  Commas and braces are tokens of their own
wherever they stand outside of literals (`Located.exists_isMark`), and between a token and the next there are only
blanks (`Located.blank_between`), so the remarks of the classifier are those on trailing commas
(`remark_eq_trailingComma_iff`).
-/

namespace ManifestLens.Expression

open Text (isBlank isWord)

variable {c : Char} {p : Nat × Nat} {base column line offset previousLine : Int} {texts : List (List Char)}

/-! ### Places in lines -/

/-- A place in lines comes before another.  Places are given by the number of their line and their column. -/
def Precedes (p q : Nat × Nat) : Prop :=
  p.1 < q.1 ∨ p.1 = q.1 ∧ p.2 < q.2

/-- The character at a place in lines. -/
def charAt? (texts : List (List Char)) (p : Nat × Nat) : Option Char :=
  texts[p.1]?.bind (·[p.2]?)

/-- A column of a line is outside of its literals. -/
def IsOutside (line : List Char) (column : Nat) : Prop :=
  ∀ start quote inside rest, IsLiteral line start quote inside rest →
    column < start.length ∨ start.length + inside.length + 2 ≤ column

/-- The character stands at the place, outside of literals. -/
def HasOutside (texts : List (List Char)) (p : Nat × Nat) (c : Char) : Prop :=
  charAt? texts p = some c ∧ ∀ text, texts[p.1]? = some text → IsOutside text p.2

/-- At the place there is a comma, and the next character that is no blank is a closing brace, both outside of
literals. -/
def IsTrailingComma (texts : List (List Char)) (p : Nat × Nat) : Prop :=
  HasOutside texts p ',' ∧ ∃ q, HasOutside texts q '\x7d' ∧ Precedes p q ∧
    ∀ r c, Precedes p r → Precedes r q → charAt? texts r = some c → isBlank c = true

private theorem charAt?_eq_some_iff :
    charAt? texts p = some c ↔ ∃ text, texts[p.1]? = some text ∧ text[p.2]? = some c := by
  rw [charAt?, Option.bind_eq_some_iff]

/-! ### What tokens are made of -/

/-- A token is a word, punctuation or a quote, or the inside of a literal. -/
inductive Token.Fits (t : Token) : Prop where
  | word (kind : t.kind = .unset) (isWord : ∀ c ∈ t.text, isWord c = true)
  | arrow (kind : t.kind = .operator) (text : t.text = ['-', '>'])
  | mark {c : Char} (kind : t.kind = .operator) (text : t.text = [c]) (noWord : isWord c = false)
      (noBlank : isBlank c = false)
  | inside (kind : t.kind = .string)

private theorem isBlank_of_isOperator (h : isOperator c = true) : isBlank c = false := by
  have noBlanks : operators.all (fun c => !isBlank c) = true := by decide
  simpa using List.all_eq_true.1 noBlanks c (isOperator_iff.1 h)

private theorem isBlank_of_isQuote (h : isQuote c = true) : isBlank c = false := by
  have noPlain := isPlain_of_isQuote h
  simp only [isPlain, Bool.or_eq_false_iff] at noPlain
  exact noPlain.1.1

private theorem isBlank_of_isWord (h : isWord c = true) : isBlank c = false := by
  have noWords : (List.range' 0x09 5 ++ List.range' 0x1C 5 ++ List.range' 0x2000 11 ++
      [0x85, 0xA0, 0x1680, 0x2028, 0x2029, 0x202F, 0x205F, 0x3000]).all (fun n => !isWord (Char.ofNat n)) = true := by
    decide +kernel
  rw [Bool.eq_false_iff]
  intro blank
  have code : c.toNat ∈ List.range' 0x09 5 ++ List.range' 0x1C 5 ++ List.range' 0x2000 11 ++
      [0x85, 0xA0, 0x1680, 0x2028, 0x2029, 0x202F, 0x205F, 0x3000] := by
    simp only [isBlank, Bool.or_eq_true, Bool.and_eq_true, decide_eq_true_eq, beq_iff_eq] at blank
    simp only [List.mem_append, List.mem_range'_1, List.mem_cons, List.not_mem_nil, or_false]
    omega
  have noWord := List.all_eq_true.1 noWords _ code
  rw [Char.ofNat_toNat, h] at noWord
  cases noWord

private theorem fits_of_mem_lineTokens {previous : Position} {found : List Lexeme}
    (fits : ∀ lexeme ∈ found, lexeme.Fits) : ∀ t ∈ lineTokens line base previous column found, t.Fits := by
  induction found generalizing previous column with
  | nil => exact List.forall_mem_nil _
  | cons lexeme found ih =>
    obtain ⟨here, later⟩ := List.forall_mem_cons.1 fits
    cases lexeme with
    | blank text => exact ih later
    | word text => exact List.forall_mem_cons.2 ⟨.word rfl here.2, ih later⟩
    | operator text =>
      refine List.forall_mem_cons.2 ⟨?_, ih later⟩
      rcases here with rfl | ⟨c, rfl, isOp, noWord⟩
      · exact .arrow rfl rfl
      · exact .mark rfl rfl noWord (isBlank_of_isOperator isOp)
    | quoted quote text =>
      have noWord := (isWord_isOperator_of_isQuote here.1).1
      have noBlank := isBlank_of_isQuote here.1
      refine List.forall_mem_cons.2 ⟨.mark rfl rfl noWord noBlank, List.forall_mem_append.2 ⟨?_, ?_⟩⟩
      · cases text with
        | nil => exact List.forall_mem_nil _
        | cons c text => exact List.forall_mem_singleton.2 (.inside rfl)
      · exact List.forall_mem_cons.2 ⟨.mark rfl rfl noWord noBlank, ih later⟩

private theorem fits_of_mem_tokensFrom {tokens : List Token}
    (h : tokensFrom line previousLine offset base texts = .ok tokens) :
    ∀ t ∈ tokens, t.Fits := by
  refine tokensFrom_induction (List.forall_mem_nil _) (fun _ ih => ih) (fun _ _ _ _ hfound ih => ?_) h
  exact List.forall_mem_append.2 ⟨fits_of_mem_lineTokens (fits_of_mem_lexemes hfound), ih⟩

/-! ### Tokens at their places -/

/-- The place in lines at which a token of theirs stands. -/
def spot (texts : List (List Char)) (line offset base : Int) (t : Token) : Nat × Nat :=
  ((t.place.line - line).toNat,
    (t.place.character - shift texts offset base (t.place.line - line).toNat).toNat)

private theorem spot_eq {t : Token} {n k : Nat} (h : t.place = ⟨line + n, shift texts offset base n + k⟩) :
    spot texts line offset base t = (n, k) := by
  have number : (line + (n : Int) - line).toNat = n := by omega
  rw [spot, h, Prod.mk.injEq]
  dsimp only
  rw [number]
  exact ⟨rfl, by omega⟩

/-- The token stands in the lines at the place. -/
structure Located (texts : List (List Char)) (p : Nat × Nat) (t : Token) : Prop where
  nonempty : t.text ≠ []
  stands : ∃ text, texts[p.1]? = some text ∧ Stands text p.2 t ∧ t.text <+: text.drop p.2

private theorem Located.charAt?_eq {t : Token} (located : Located texts p t) : charAt? texts p = t.text.head? := by
  obtain ⟨text, hn, _, more, whole⟩ := located.stands
  rw [charAt?, hn, Option.bind_some, ← Nat.add_zero p.2, ← List.getElem?_drop, ← whole, ← List.head?_eq_getElem?,
    List.head?_append_of_ne_nil _ located.nonempty]

/-- A character that is a token of its own wherever it stands outside of literals. -/
def isAlone (c : Char) : Bool :=
  !isBlank c && !isWord c && !isQuote c && c != '-' && c != '>'

section

variable {tokens : List Token}

private theorem map_spot (h : lex texts line offset base = .ok tokens) :
    tokens.map (fun t => (spot texts line offset base t, t.text)) =
      (spansOfLines texts).map fun m => ((m.1, m.2.1), m.2.2) := by
  have placed := congrArg (List.map fun p : Position × List Char =>
    (spot texts line offset base ⟨⟨0, 0⟩, p.1, [], .unset⟩, p.2)) (map_place_text_tokensFrom h)
  rw [List.map_map, List.map_map] at placed
  refine placed.trans (List.map_congr_left fun m _ => ?_)
  rw [Function.comp_apply, spot_eq rfl]

private theorem place_eq_spot (h : lex texts line offset base = .ok tokens) {t : Token} (mem : t ∈ tokens) :
    t.place = ⟨line + (spot texts line offset base t).1,
      shift texts offset base (spot texts line offset base t).1 + (spot texts line offset base t).2⟩ ∧
    Located texts (spot texts line offset base t) t := by
  obtain ⟨n, k, text, hn, place, stands⟩ := exists_stands_of_mem_tokensFrom h t mem
  have own := List.mem_map_of_mem (f := fun t => (spot texts line offset base t, t.text)) mem
  rw [map_spot h, spot_eq place] at own
  rw [spot_eq place]
  obtain ⟨⟨_, _, _⟩, isSpan, same⟩ := List.mem_map.1 own
  simp only [Prod.mk.injEq] at same
  obtain ⟨⟨rfl, rfl⟩, rfl⟩ := same
  obtain ⟨whole, hwhole, isSpan⟩ := mem_spansOfLines_iff.1 isSpan
  rw [hn] at hwhole
  cases hwhole
  obtain ⟨_, nonempty, isPrefix⟩ := (tiles_of_tokensFrom h text (List.mem_of_getElem? hn)).text_of_mem _ isSpan
  exact ⟨place, nonempty, text, hn, stands, isPrefix⟩

private theorem pairwise_spot (h : lex texts line offset base = .ok tokens) :
    tokens.Pairwise fun s t =>
      (spot texts line offset base s).1 < (spot texts line offset base t).1 ∨
        (spot texts line offset base s).1 = (spot texts line offset base t).1 ∧
          (spot texts line offset base s).2 + s.text.length ≤ (spot texts line offset base t).2 := by
  have ordered : ((spansOfLines texts).map fun m => ((m.1, m.2.1), m.2.2)).Pairwise fun l m =>
      l.1.1 < m.1.1 ∨ l.1.1 = m.1.1 ∧ l.1.2 + l.2.length ≤ m.1.2 :=
    List.pairwise_map.2 (pairwise_spansOfLines (tiles_of_tokensFrom h))
  rw [← map_spot h] at ordered
  exact List.pairwise_map.1 ordered

private theorem exists_covering (h : lex texts line offset base = .ok tokens) (hc : charAt? texts p = some c)
    (noBlank : isBlank c = false) :
    ∃ t ∈ tokens, ∃ k, spot texts line offset base t = (p.1, k) ∧ k ≤ p.2 ∧ t.text[p.2 - k]? = some c := by
  obtain ⟨text, hn, hc⟩ := charAt?_eq_some_iff.1 hc
  have tiles := tiles_of_tokensFrom h text (List.mem_of_getElem? hn)
  rcases tiles.covers hc with blank | ⟨⟨k, piece⟩, isSpan, starts, ends⟩
  · rw [noBlank] at blank
    cases blank
  · dsimp only at starts ends
    obtain ⟨more, whole⟩ := isPrefix_drop_of_mem_spans isSpan
    have own := List.mem_map_of_mem (f := fun m : Nat × Nat × List Char => ((m.1, m.2.1), m.2.2))
      (mem_spansOfLines_iff.2 ⟨text, hn, isSpan⟩)
    rw [← map_spot h] at own
    obtain ⟨t, mem, same⟩ := List.mem_map.1 own
    obtain ⟨atPlace, rfl⟩ := Prod.mk.inj same
    refine ⟨t, mem, k, atPlace, by omega, ?_⟩
    have within : (t.text ++ more)[p.2 - k]? = t.text[p.2 - k]? := List.getElem?_append_left (by omega)
    rw [← within, whole, List.getElem?_drop, ← hc]
    congr 1
    omega

/-- A token that is a character of its own stands outside of literals. -/
private theorem Located.hasOutside_of_isMark {t : Token} (located : Located texts p t) (noQuote : isQuote c = false)
    (isMark : t.isMark [c] = true) : HasOutside texts p c := by
  have first := located.charAt?_eq
  obtain ⟨text, hn, stands, -⟩ := located.stands
  simp only [Token.isMark, Bool.and_eq_true, beq_iff_eq] at isMark
  rw [isMark.1] at first
  refine ⟨first, ?_⟩
  rintro other hother start quote inside rest literal
  rw [hn] at hother
  cases hother
  cases stands with
  | inside _ _ kind =>
    rw [isMark.2] at kind
    cases kind
  | @closing _ _ _ mark closed _ isQ _ =>
    rw [isMark.1] at isQ
    cases isQ
    rw [closed.isQuote] at noQuote
    cases noQuote
  | outside eq isReadable atStart _ =>
    have := literal.length_le ⟨_, eq.symm⟩ isReadable
    have notOpening : p.2 ≠ start.length := by
      intro same
      rw [charAt?, hn, Option.bind_some, same, literal.eq, List.getElem?_append_right (Nat.le_refl _),
        Nat.sub_self] at first
      cases first
      rw [literal.isQuote] at noQuote
      cases noQuote
    omega

/-- Outside of literals, a character of its own is told by the line. -/
private theorem Located.isMark_iff {t : Token} (located : Located texts p t) (fits : t.Fits)
    (alone : isAlone c = true) :
    t.isMark [c] = true ↔ HasOutside texts p c := by
  simp only [isAlone, Bool.and_eq_true, Bool.not_eq_true', bne_iff_ne] at alone
  obtain ⟨⟨⟨⟨noBlank, noWord⟩, noQuote⟩, noDash⟩, noArrow⟩ := alone
  refine ⟨located.hasOutside_of_isMark noQuote, ?_⟩
  rintro ⟨hc, outside⟩
  have first := located.charAt?_eq
  rw [hc] at first
  have starts : c ∈ t.text := List.mem_of_mem_head? first.symm
  obtain ⟨text, hn, stands, -⟩ := located.stands
  cases fits with
  | word _ isWord =>
    rw [isWord c starts] at noWord
    cases noWord
  | arrow _ text =>
    rw [text] at starts
    simp [noDash, noArrow] at starts
  | mark kind text _ _ =>
    rw [text] at starts
    obtain rfl := List.mem_singleton.1 starts
    simp [Token.isMark, kind, text]
  | inside kind =>
    cases stands with
    | outside _ _ _ noText => exact absurd kind noText
    | closing _ _ _ noText => exact absurd kind noText
    | inside literal afterQuote _ =>
      have := outside text hn _ _ _ _ literal
      omega

/-- A character of its own is a token wherever it stands outside of literals. -/
theorem exists_isMark (h : lex texts line offset base = .ok tokens) (alone : isAlone c = true)
    (out : HasOutside texts p c) : ∃ t ∈ tokens, spot texts line offset base t = p ∧ t.isMark [c] = true := by
  have isAlone := alone
  simp only [Expression.isAlone, Bool.and_eq_true, Bool.not_eq_true', bne_iff_ne] at alone
  obtain ⟨⟨⟨⟨noBlank, noWord⟩, noQuote⟩, noDash⟩, noArrow⟩ := alone
  obtain ⟨t, mem, k, atPlace, starts, hc⟩ := exists_covering h out.1 noBlank
  have located := (place_eq_spot h mem).2
  rw [atPlace] at located
  have fits := fits_of_mem_tokensFrom h t mem
  have holds : c ∈ t.text := List.mem_of_getElem? hc
  suffices same : k = p.2 by
    subst same
    exact ⟨t, mem, atPlace, (located.isMark_iff fits isAlone).2 out⟩
  cases fits with
  | word _ isWord =>
    rw [isWord c holds] at noWord
    cases noWord
  | arrow _ text =>
    rw [text] at holds
    simp [noDash, noArrow] at holds
  | mark _ text _ _ =>
    have := (List.getElem?_eq_some_iff.1 hc).1
    rw [text, List.length_singleton] at this
    omega
  | inside kind =>
    obtain ⟨text, hn, stands, -⟩ := located.stands
    have within := (List.getElem?_eq_some_iff.1 hc).1
    cases stands with
    | outside _ _ _ noText => exact absurd kind noText
    | closing _ _ _ noText => exact absurd kind noText
    | inside literal afterQuote _ =>
      have := out.2 text hn _ _ _ _ literal
      dsimp only at afterQuote
      omega

/-- Between a token of one character and the next token there are only blanks. -/
theorem blank_between {before rest : List Token} {t next : Token}
    (h : lex texts line offset base = .ok (before ++ t :: next :: rest)) (size : t.text.length = 1) {r : Nat × Nat}
    (afterToken : Precedes (spot texts line offset base t) r)
    (beforeNext : Precedes r (spot texts line offset base next)) (hc : charAt? texts r = some c) :
    isBlank c = true := by
  by_contra noBlank
  obtain ⟨u, mem, k, atPlace, starts, inText⟩ := exists_covering h hc (Bool.not_eq_true _ ▸ noBlank)
  have within := (List.getElem?_eq_some_iff.1 inText).1
  have ordered := pairwise_spot h
  simp only [List.pairwise_append, List.pairwise_cons] at ordered
  obtain ⟨-, ⟨tFirst, nextFirst, -⟩, beforeFirst⟩ := ordered
  simp only [Precedes] at afterToken beforeNext
  simp only [List.mem_append, List.mem_cons] at mem
  rcases mem with mem | rfl | rfl | mem
  · have := beforeFirst u mem t List.mem_cons_self
    rw [atPlace] at this
    dsimp only at this
    omega
  · rw [atPlace] at afterToken
    dsimp only at afterToken
    omega
  · rw [atPlace] at beforeNext
    dsimp only at beforeNext
    omega
  · have := nextFirst u mem
    rw [atPlace] at this
    dsimp only at this
    omega

/-- At a token, or just before it, there is a character that is no blank: the inside of a literal comes after its
quote. -/
private theorem Located.exists_nonblank {q : Nat × Nat} {t : Token} (located : Located texts q t) (fits : t.Fits) :
    ∃ r c, charAt? texts r = some c ∧ isBlank c = false ∧ (r = q ∨ isQuote c = true ∧ q = (r.1, r.2 + 1)) := by
  obtain ⟨text, hn, stands, -⟩ := located.stands
  obtain ⟨c, others, split⟩ := List.exists_cons_of_ne_nil located.nonempty
  have first := located.charAt?_eq
  rw [split, List.head?_cons] at first
  cases fits with
  | word _ isWord => exact ⟨q, c, first, isBlank_of_isWord (isWord c (split ▸ List.mem_cons_self)), .inl rfl⟩
  | arrow _ isArrow =>
    rw [split] at isArrow
    cases isArrow
    exact ⟨q, _, first, rfl, .inl rfl⟩
  | mark _ isMark _ noBlank =>
    rw [split] at isMark
    cases isMark
    exact ⟨q, _, first, noBlank, .inl rfl⟩
  | inside kind =>
    cases stands with
    | outside _ _ _ noText => exact absurd kind noText
    | closing _ _ _ noText => exact absurd kind noText
    | @inside start _ quote literal afterQuote _ =>
      refine ⟨(q.1, start.length), quote, charAt?_eq_some_iff.2 ⟨text, hn, ?_⟩, isBlank_of_isQuote literal.isQuote,
        .inr ⟨literal.isQuote, by rw [← afterQuote]⟩⟩
      rw [literal.eq, List.getElem?_append_right (Nat.le_refl _), Nat.sub_self]
      rfl

/-- A token that only blanks separate from an earlier one is the next token after it. -/
private theorem next_of_blank_between {before rest : List Token} {t later : Token}
    (h : lex texts line offset base = .ok (before ++ t :: rest)) (mem : later ∈ rest) {mark : Char}
    (hmark : charAt? texts (spot texts line offset base t) = some mark) (noQuote : isQuote mark = false)
    (blanks : ∀ r c, Precedes (spot texts line offset base t) r → Precedes r (spot texts line offset base later) →
      charAt? texts r = some c → isBlank c = true) : rest.head? = some later := by
  have isToken {u : Token} (mem : u ∈ t :: rest) : u ∈ before ++ t :: rest := List.mem_append_right before mem
  have ordered := (List.pairwise_append.1 (pairwise_spot h)).2.1
  have pos {u : Token} (mem : u ∈ t :: rest) : 0 < u.text.length :=
    List.length_pos_of_ne_nil (place_eq_spot h (isToken mem)).2.nonempty
  cases rest with
  | nil => cases mem
  | cons next rest =>
    rcases List.mem_cons.1 mem with rfl | mem
    · rfl
    -- otherwise a character that is no blank stands at the next token
    · simp only [List.pairwise_cons] at ordered
      have first := ordered.1 next List.mem_cons_self
      have second := ordered.2.1 later mem
      have size := pos List.mem_cons_self
      have nextSize := pos (List.mem_cons_of_mem t List.mem_cons_self)
      have nextMem := isToken (List.mem_cons_of_mem t List.mem_cons_self)
      obtain ⟨r, c, hc, noBlank, near⟩ :=
        (place_eq_spot h nextMem).2.exists_nonblank (fits_of_mem_tokensFrom h next nextMem)
      have notHere : r ≠ spot texts line offset base t ∨ r = spot texts line offset base next := by
        rcases near with here | ⟨isQ, -⟩
        · exact .inr here
        · refine .inl fun same => ?_
          rw [same, hmark] at hc
          cases hc
          rw [isQ] at noQuote
          cases noQuote
      have between : Precedes (spot texts line offset base t) r ∧ Precedes r (spot texts line offset base later) := by
        simp only [Precedes, Prod.ext_iff, ne_eq] at near notHere ⊢
        omega
      rw [blanks r c between.1 between.2 hc] at noBlank
      cases noBlank

/-! ### Remarks -/

private theorem operatorRemark_eq_some_iff (t : Token) (next : Option Token) :
    operatorRemark t next = some trailingComma ↔ t.isMark [','] = true ∧ isMark? next ['\x7d'] = true := by
  rw [operatorRemark]
  split <;> simp_all

private theorem operatorRemark_eq_some_iff_isTrailingComma {before rest : List Token} {t : Token}
    (h : lex texts line offset base = .ok (before ++ t :: rest)) :
    operatorRemark t rest.head? = some trailingComma ↔ IsTrailingComma texts (spot texts line offset base t) := by
  have isMark_iff {u : Token} (mem : u ∈ t :: rest) {c : Char} (alone : isAlone c = true) :
      u.isMark [c] = true ↔ HasOutside texts (spot texts line offset base u) c := by
    have mem : u ∈ before ++ t :: rest := List.mem_append_right before mem
    exact (place_eq_spot h mem).2.isMark_iff (fits_of_mem_tokensFrom h u mem) alone
  have ordered := List.pairwise_append.1 (pairwise_spot h)
  have first := (List.pairwise_cons.1 ordered.2.1).1
  rw [operatorRemark_eq_some_iff, IsTrailingComma, isMark_iff List.mem_cons_self (by decide)]
  refine and_congr_right fun comma => ?_
  have size : t.text.length = 1 := by
    have isMark := (isMark_iff List.mem_cons_self (by decide)).2 comma
    simp only [Token.isMark, Bool.and_eq_true, beq_iff_eq] at isMark
    rw [isMark.1]
    rfl
  constructor
  · intro closes
    cases rest with
    | nil => cases closes
    | cons next rest =>
      have brace := (isMark_iff (List.mem_cons_of_mem t List.mem_cons_self) (by decide)).1 closes
      refine ⟨_, brace, ?_, fun r c => blank_between h size⟩
      have := first next List.mem_cons_self
      rw [Precedes]
      omega
  · rintro ⟨q, brace, after, blanks⟩
    obtain ⟨closing, mem, rfl, closes⟩ := exists_isMark h (by decide) brace
    have later : closing ∈ rest := by
      rw [Precedes] at after
      rcases List.mem_append.1 mem with mem | mem
      · have := ordered.2.2 closing mem t List.mem_cons_self
        omega
      · rcases List.mem_cons.1 mem with rfl | mem
        · omega
        · exact mem
    rw [next_of_blank_between h later comma.1 (by decide) blanks]
    exact closes

end

/-- The remark of a token only depends on the token after it. -/
private theorem remark_classified (base : Int) (o : Openings) (t : Token) (rest : List Token) :
    (t.classified base o rest).remark = operatorRemark t rest.head? := by
  rw [Token.classified]
  split
  · rfl
  · next noOperator => simp [Token.highlight, operatorRemark, Token.isMark, noOperator]

private theorem place_classified (base : Int) (o : Openings) (t : Token) (rest : List Token) :
    (t.classified base o rest).place = ⟨t.place.line + base, t.place.character⟩ := by
  rw [Token.classified]
  split <;> rfl

private theorem mem_classify_iff {o : Openings} {tokens : List Token} {node : ManifestLens.Token} :
    node ∈ classify base o tokens ↔
      ∃ before t rest, tokens = before ++ t :: rest ∧ node = t.classified base (o.afterAll before) rest := by
  constructor
  · intro mem
    induction tokens generalizing o with
    | nil => cases mem
    | cons t tokens ih =>
      rw [classify_cons] at mem
      rcases List.mem_cons.1 mem with rfl | mem
      · exact ⟨[], t, tokens, rfl, rfl⟩
      · obtain ⟨before, u, rest, rfl, same⟩ := ih mem
        exact ⟨t :: before, u, rest, rfl, same⟩
  · rintro ⟨before, t, rest, rfl, rfl⟩
    exact List.mem_of_getElem? (getElem?_classify base o before t rest)

private theorem nodup_place_of_lex {tokens : List Token} (h : lex texts line offset base = .ok tokens) :
    (tokens.map (·.place)).Nodup := by
  refine List.pairwise_map.2 ((pairwise_spot h).imp_of_mem fun {s t} mem _ after same => ?_)
  have pos := List.length_pos_of_ne_nil (place_eq_spot h mem).2.nonempty
  simp only [spot, same] at after
  omega

/-- The only remark on highlighted tokens is the one on trailing commas.  Each highlighted token has it exactly if it
stands for a trailing comma, each trailing comma has a highlighted token, of length one, and no two highlighted tokens
have the same place. -/
theorem remark_eq_trailingComma_iff {texts : List (List Char)} {origin line offset base : Int}
    {nodes : List ManifestLens.Token} (h : highlight texts origin line offset base = .ok nodes) :
    (∀ node ∈ nodes, ∃ n k : Nat, (charAt? texts (n, k)).isSome = true ∧
      node.place = ⟨line + n + origin, shift texts offset base n + k⟩ ∧
      (IsTrailingComma texts (n, k) ∧ node.remark = some ⟨"Trailing commas are unsupported.", .error⟩ ∨
        ¬IsTrailingComma texts (n, k) ∧ node.remark = none)) ∧
    (∀ n k : Nat, IsTrailingComma texts (n, k) → ∃ node ∈ nodes,
      node.place = ⟨line + n + origin, shift texts offset base n + k⟩ ∧ node.length = 1) ∧
    (nodes.map (·.place)).Nodup := by
  rw [highlight] at h
  cases lexed : lex texts line offset base with
  | error bad => rw [lexed] at h; cases h
  | ok tokens =>
    rw [lexed] at h
    cases h
    refine ⟨fun node mem => ?_, fun n k trailing => ?_, ?_⟩
    · obtain ⟨before, t, rest, rfl, rfl⟩ := mem_classify_iff.1 mem
      obtain ⟨place, located⟩ := place_eq_spot lexed (List.mem_append_right before List.mem_cons_self)
      refine ⟨(spot texts line offset base t).1, (spot texts line offset base t).2, ?_, ?_, ?_⟩
      · rw [located.charAt?_eq, List.isSome_head?]
        simpa using located.nonempty
      · rw [place_classified, place]
      · rw [remark_classified, ← operatorRemark_eq_some_iff_isTrailingComma lexed, operatorRemark]
        split <;> simp [trailingComma]
    · obtain ⟨t, mem, atPlace, isMark⟩ := exists_isMark lexed (by decide) trailing.1
      obtain ⟨before, rest, rfl⟩ := List.append_of_mem mem
      simp only [Token.isMark, Bool.and_eq_true, beq_iff_eq] at isMark
      refine ⟨_, mem_classify_iff.2 ⟨before, t, rest, rfl, rfl⟩, ?_, ?_⟩
      · rw [place_classified, (place_eq_spot lexed mem).1, atPlace]
      · rw [Token.classified, if_pos isMark.2, Token.highlight, isMark.1]
        rfl
    · have moved := map_classify origin (·.place) (fun t => ⟨t.place.line + origin, t.place.character⟩)
        (fun _ _ _ => rfl) .none tokens
      have injective : Function.Injective fun p : Position => (⟨p.line + origin, p.character⟩ : Position) := by
        rintro ⟨line, column⟩ ⟨otherLine, otherColumn⟩ same
        simpa using same
      have nodup := (nodup_place_of_lex lexed).map injective
      rw [List.map_map] at nodup
      exact moved ▸ nodup

/-- Two maps, of which the outer ends with a comma and blank lines; its key holds a comma and a brace. -/
private def trailingLines : List (List Char) :=
  ["\x7b',\x7d': \x7b'a': 1\x7d,", "", "  \x7d"].map String.toList

theorem remark_eq_trailingComma_iff_trailingLines : ∃ nodes, highlight trailingLines 1 2 0 5 = .ok nodes ∧
    nodes.filterMap (fun node => node.remark.map fun remark => (node.place, remark)) =
      [(⟨3, 20⟩, ⟨"Trailing commas are unsupported.", .error⟩)] ∧
    ∀ node ∈ nodes, ∃ n k : Nat, (charAt? trailingLines (n, k)).isSome = true ∧
      node.place = ⟨2 + n + 1, shift trailingLines 0 5 n + k⟩ ∧
      (IsTrailingComma trailingLines (n, k) ∧ node.remark = some ⟨"Trailing commas are unsupported.", .error⟩ ∨
        ¬IsTrailingComma trailingLines (n, k) ∧ node.remark = none) := by
  have remarks : ((highlight trailingLines 1 2 0 5).toOption.map fun nodes =>
      nodes.filterMap fun node => node.remark.map fun remark => (node.place, remark)) =
        some [(⟨3, 20⟩, ⟨"Trailing commas are unsupported.", .error⟩)] := by
    decide +kernel
  cases h : highlight trailingLines 1 2 0 5 with
  | error rest =>
    rw [h] at remarks
    cases remarks
  | ok nodes =>
    rw [h] at remarks
    exact ⟨nodes, rfl, Option.some.inj remarks, (remark_eq_trailingComma_iff h).1⟩

end ManifestLens.Expression
