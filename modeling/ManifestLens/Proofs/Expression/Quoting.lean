import ManifestLens.Proofs.Expression.Literals

/-!
# Classification respects quotes

The lexer emits quotes in pairs, with at most one text between the two, and no quotes otherwise (`Paired`).  So the
classifier, which only counts quotes, has no quote open at words and operators and exactly one at texts, whatever the
literals before hold.  Hence a highlighted token is a text or a property exactly if its token is the inside of a
literal, and outside of literals the kind of a token is told by its own text and the token after it
(`shows_highlight`).
-/

namespace ManifestLens.Expression

open Text (isWord isDecimal)

variable {t : Token} {quote : Char} {rest tokens : List Token}

/-! ### Quotes come in pairs -/

/-- Tokens among which quotes come in pairs of one kind, with at most one text between the two. -/
inductive Paired : List Token → Prop where
  | nil : Paired []
  | word {t : Token} {rest : List Token} (kind : t.kind = .unset) (isWord : t.text.all isWord = true)
      (others : Paired rest) : Paired (t :: rest)
  | operator {t : Token} {rest : List Token} (kind : t.kind = .operator) (noWord : t.text.all isWord = false)
      (noQuote : ∀ quote, isQuote quote = true → t.text ≠ [quote]) (others : Paired rest) : Paired (t :: rest)
  | empty {opening closing : Token} {rest : List Token} {quote : Char} (isQ : isQuote quote = true)
      (opens : opening.kind = .operator ∧ opening.text = [quote])
      (closes : closing.kind = .operator ∧ closing.text = [quote]) (others : Paired rest) :
      Paired (opening :: closing :: rest)
  | literal {opening inside closing : Token} {rest : List Token} {quote : Char} (isQ : isQuote quote = true)
      (opens : opening.kind = .operator ∧ opening.text = [quote]) (kind : inside.kind = .string)
      (closes : closing.kind = .operator ∧ closing.text = [quote]) (others : Paired rest) :
      Paired (opening :: inside :: closing :: rest)

theorem isWord_isOperator_of_isQuote (isQ : isQuote quote = true) :
    isWord quote = false ∧ isOperator quote = false := by
  have noPlain := isPlain_of_isQuote isQ
  simp only [isPlain, Bool.or_eq_false_iff] at noPlain
  exact ⟨noPlain.1.2, noPlain.2⟩

private theorem paired_lineTokens {line base column : Int} {previous : Position} {found : List Lexeme}
    (fits : ∀ lexeme ∈ found, lexeme.Fits) (others : Paired rest) :
    Paired (lineTokens line base previous column found ++ rest) := by
  induction found generalizing previous column with
  | nil => exact others
  | cons lexeme found ih =>
    obtain ⟨here, later⟩ := List.forall_mem_cons.1 fits
    cases lexeme with
    | blank text => exact ih later
    | word text => exact .word rfl (List.all_eq_true.2 here.2) (ih later)
    | operator text =>
      rcases here with rfl | ⟨c, rfl, isOp, noWord⟩
      · exact .operator rfl (show ['-', '>'].all isWord = false by decide) (by simp) (ih later)
      · refine .operator rfl (by simp [noWord]) (fun quote isQ same => ?_) (ih later)
        cases same
        rw [(isWord_isOperator_of_isQuote isQ).2] at isOp
        cases isOp
    | quoted quote text =>
      cases text with
      | nil => exact .empty here.1 ⟨rfl, rfl⟩ ⟨rfl, rfl⟩ (ih later)
      | cons c text => exact .literal here.1 ⟨rfl, rfl⟩ rfl ⟨rfl, rfl⟩ (ih later)

/-- The tokens of lines have their quotes in pairs. -/
theorem paired_of_tokensFrom {line previousLine offset base : Int} {texts : List (List Char)}
    (h : tokensFrom line previousLine offset base texts = .ok tokens) : Paired tokens := by
  refine tokensFrom_induction .nil (fun _ ih => ih) (fun _ _ _ _ hfound ih => ?_) h
  exact paired_lineTokens (fits_of_mem_lexemes hfound) ih

/-- The first of the tokens is no inside of a literal, so its text tells whether it is an operator. -/
private theorem Paired.isMark?_head_iff (h : Paired tokens) {mark : Char} (noWord : isWord mark = false) :
    isMark? tokens.head? [mark] = true ↔ tokens.head?.map (·.text) = some [mark] := by
  cases h with
  | nil => simp [isMark?]
  | @word t rest kind isWord others =>
    have ne : t.text ≠ [mark] := by
      intro same
      rw [same] at isWord
      simp [noWord] at isWord
    simp [isMark?, Token.isMark, ne]
  | operator kind noWord noQuote others => simp [isMark?, Token.isMark, kind]
  | empty isQ opens closes others => simp [isMark?, Token.isMark, opens.1]
  | literal isQ opens kind closes others => simp [isMark?, Token.isMark, opens.1]

/-! ### Quotes and the classifier -/

/-- No quote is open. -/
def Openings.IsClosed (o : Openings) : Prop :=
  o.double = false ∧ o.single = false

private theorem Openings.IsClosed.after_operator {o : Openings} (closed : o.IsClosed)
    (noQuote : ∀ quote, isQuote quote = true → t.text ≠ [quote]) : (o.after t).IsClosed := by
  have noDouble : t.isMark ['"'] = false := by simp [Token.isMark, noQuote '"' rfl]
  have noSingle : t.isMark ['\''] = false := by simp [Token.isMark, noQuote '\'' rfl]
  unfold Openings.after
  rw [noDouble, noSingle]
  split
  · exact closed
  · split <;> exact closed

private theorem Openings.after_quote (o : Openings) (isQ : isQuote quote = true)
    (mark : t.kind = .operator ∧ t.text = [quote]) :
    o.after t = if quote = '"' then { o with double := !o.double } else { o with single := !o.single } := by
  simp only [isQuote, Bool.or_eq_true, beq_iff_eq] at isQ
  rcases isQ with rfl | rfl <;> simp [Openings.after, Token.isMark, mark.1, mark.2]

/-- The opening quote of a literal opens one quote, and the closing quote closes it. -/
private theorem Openings.IsClosed.between_quotes {o : Openings} (closed : o.IsClosed) {opening closing : Token}
    (isQ : isQuote quote = true) (opens : opening.kind = .operator ∧ opening.text = [quote])
    (closes : closing.kind = .operator ∧ closing.text = [quote]) :
    ((o.after opening).double || (o.after opening).single) = true ∧ ((o.after opening).after closing).IsClosed := by
  rw [Openings.after_quote _ isQ opens, Openings.after_quote _ isQ closes]
  obtain ⟨double, single⟩ := closed
  split <;> simp [Openings.IsClosed, double, single]

/-! ### Kinds of tokens -/

/-- The tokens, each with the token after it. -/
def withNext : List Token → List (Token × Option Token)
  | [] => []
  | t :: rest => (t, rest.head?) :: withNext rest

private theorem map_fst_withNext (tokens : List Token) : (withNext tokens).map Prod.fst = tokens := by
  induction tokens with
  | nil => rfl
  | cons t rest ih => rw [withNext, List.map_cons, ih]

/-- The kind of a token outside of literals, given the token after it.  Punctuation and quotes are all tokens but
words. -/
def plainKind (t : Token) (next : Option Token) : TokenKind :=
  if t.text.all isWord = false then .operator
  else if t.text ∈ keywords then .keyword
  else if next.map (·.text) = some ['('] then .function
  else if t.text.head?.any isDecimal then .number
  else .variable

theorem plainKind_ne (t : Token) (next : Option Token) :
    ¬(plainKind t next = .string ∨ plainKind t next = .property) := by
  unfold plainKind
  split_ifs <;> simp

/-- Where no quote is open, the classifier goes by the word and the token after it. -/
private theorem wordKind_eq_plainKind {o : Openings} (closed : o.IsClosed) (isWord : t.text.all isWord = true)
    (others : Paired rest) (afterNext : Option Token) : wordKind o t rest.head? afterNext = plainKind t rest.head? := by
  have call := others.isMark?_head_iff (show Text.isWord '(' = false by decide)
  have noQuote : ¬(o.double || o.single) = true := by simp [closed.1, closed.2]
  have noOperator : ¬t.text.all Text.isWord = false := by rw [isWord]; simp
  rw [wordKind, plainKind, if_neg noQuote, if_neg noOperator]
  simp only [List.contains_iff_mem, call]
  cases t.text <;> rfl

/-- What the classifier makes of a token: insides of literals are texts or properties, and all others are what they are
outside of literals. -/
def Suits (p : Token × Option Token) (kind : TokenKind) : Prop :=
  p.1.kind = .string ∧ (kind = .string ∨ kind = .property) ∨ p.1.kind ≠ .string ∧ kind = plainKind p.1 p.2

private theorem suits_operator (kind : t.kind = .operator) (noWord : t.text.all isWord = false) (next : Option Token) :
    Suits (t, next) .operator :=
  .inr ⟨by simp [kind], by rw [plainKind, if_pos noWord]⟩

private theorem suits_quote (isQ : isQuote quote = true) (mark : t.kind = .operator ∧ t.text = [quote])
    (next : Option Token) : Suits (t, next) .operator :=
  suits_operator mark.1 (by simp [mark.2, (isWord_isOperator_of_isQuote isQ).1]) next

/-- If no quote is open at the start, the classifier makes of each token what suits it. -/
theorem Paired.forall₂_classify (h : Paired tokens) {o : Openings} (closed : o.IsClosed) (base : Int) :
    List.Forall₂ (fun p node => ∃ kind remark, node = p.1.highlight base kind remark ∧ Suits p kind) (withNext tokens)
      (classify base o tokens) := by
  induction h generalizing o with
  | nil => exact .nil
  | word kind isWord others ih =>
    rw [classify, if_neg (by simp [kind])]
    refine .cons ⟨_, none, rfl, .inr ⟨by simp [kind], ?_⟩⟩ (ih closed)
    exact wordKind_eq_plainKind closed isWord others _
  | operator kind noWord noQuote others ih =>
    rw [classify, if_pos (by simp [kind])]
    exact .cons ⟨.operator, _, rfl, suits_operator kind noWord _⟩ (ih (closed.after_operator noQuote))
  | empty isQ opens closes others ih =>
    obtain ⟨-, closedAgain⟩ := closed.between_quotes isQ opens closes
    rw [classify, if_pos (by simp [opens.1]), classify, if_pos (by simp [closes.1])]
    refine .cons ⟨.operator, _, rfl, suits_quote isQ opens _⟩ ?_
    exact .cons ⟨.operator, _, rfl, suits_quote isQ closes _⟩ (ih closedAgain)
  | literal isQ opens kind closes others ih =>
    obtain ⟨quoteOpen, closedAgain⟩ := closed.between_quotes isQ opens closes
    rw [classify, if_pos (by simp [opens.1]), classify, if_neg (by simp [kind]), classify,
      if_pos (by simp [closes.1])]
    refine .cons ⟨.operator, _, rfl, suits_quote isQ opens _⟩ (.cons ⟨_, none, rfl, .inl ⟨kind, ?_⟩⟩ ?_)
    · rw [wordKind, if_pos quoteOpen]
      split <;> simp
    · exact .cons ⟨.operator, _, rfl, suits_quote isQ closes _⟩ (ih closedAgain)

/-- What the highlighted token of a token is, given the token after it. -/
structure Shows (texts : List (List Char)) (origin line offset base : Int) (p : Token × Option Token)
    (node : ManifestLens.Token) : Prop where
  delta : node.delta = p.1.delta
  length : node.length = p.1.text.length
  place : node.place = ⟨p.1.place.line + origin, p.1.place.character⟩
  text_iff : node.kind = .string ∨ node.kind = .property ↔ p.1.IsInside texts line offset base
  plain : ¬p.1.IsInside texts line offset base → node.kind = plainKind p.1 p.2

/-- The highlighted tokens of an expression are its tokens, one by one: at their places, texts or properties exactly if
they are the insides of quoted literals, and otherwise of the kind that their text and the token after them tell. -/
theorem shows_highlight {texts : List (List Char)} {origin line offset base : Int}
    {nodes : List ManifestLens.Token} (h : highlight texts origin line offset base = .ok nodes) :
    ∃ tokens, lex texts line offset base = .ok tokens ∧
      List.Forall₂ (Shows texts origin line offset base) (withNext tokens) nodes := by
  rw [highlight] at h
  cases lexed : lex texts line offset base with
  | error bad => rw [lexed] at h; cases h
  | ok tokens =>
    rw [lexed] at h
    cases h
    refine ⟨tokens, rfl, ?_⟩
    have isToken : ∀ p ∈ withNext tokens, p.1 ∈ tokens := by
      intro p mem
      rw [← map_fst_withNext tokens]
      exact List.mem_map_of_mem mem
    have classified := (paired_of_tokensFrom lexed).forall₂_classify (o := .none) ⟨rfl, rfl⟩ origin
    refine ((List.forall₂_and_left _ _).2 ⟨isToken, classified⟩).imp ?_
    rintro p _ ⟨mem, kind, remark, rfl, suits⟩
    have inside := kind_eq_string_iff lexed mem
    refine ⟨rfl, rfl, rfl, ?_, fun outside => ?_⟩
    · rcases suits with ⟨isText, same⟩ | ⟨noText, rfl⟩
      · exact iff_of_true same (inside.1 isText)
      · exact iff_of_false (plainKind_ne p.1 p.2) fun within => noText (inside.2 within)
    · rcases suits with ⟨isText, _⟩ | ⟨_, same⟩
      · exact absurd (inside.1 isText) outside
      · exact same

/-- A map over two lines; its keys hold a keyword, a parenthesis and quotes of the other kind. -/
private def quotedKeys : List (List Char) :=
  ["\x7b'has(\"': all(x),", "  \"it's\": f(1)\x7d"].map String.toList

theorem shows_highlight_quotedKeys : ∃ nodes, highlight quotedKeys 2 1 0 5 = .ok nodes ∧
    nodes.map (·.kind) = [.operator, .operator, .property, .operator, .operator, .keyword, .operator, .variable,
      .operator, .operator, .operator, .property, .operator, .operator, .function, .operator, .number, .operator,
      .operator] ∧
    ∃ tokens, lex quotedKeys 1 0 5 = .ok tokens ∧ List.Forall₂ (Shows quotedKeys 2 1 0 5) (withNext tokens) nodes := by
  have kinds : ((highlight quotedKeys 2 1 0 5).toOption.map fun nodes => nodes.map (·.kind)) =
      some [.operator, .operator, .property, .operator, .operator, .keyword, .operator, .variable, .operator, .operator,
        .operator, .property, .operator, .operator, .function, .operator, .number, .operator, .operator] := by
    decide +kernel
  cases h : highlight quotedKeys 2 1 0 5 with
  | error rest =>
    rw [h] at kinds
    cases kinds
  | ok nodes =>
    rw [h] at kinds
    exact ⟨nodes, rfl, Option.some.inj kinds, shows_highlight h⟩

end ManifestLens.Expression
