import ManifestLens.Proofs.Expression.Quoting

/-!
# Keys of maps

The classifier has one flag for all maps that are open, so it goes by the last brace before a token (`EndsInMap`) and
not by how many braces are open.  The inside of a literal with a colon after it is a property exactly if that brace
opens a map.  For a key inside of an open map this means that no other map stands before it in the same map
(`kind_eq_property_iff`): the keys after a nested map are texts.
-/

namespace ManifestLens.Expression

/-! ### What is open at a token -/

/-- What is open after tokens. -/
def Openings.afterAll (o : Openings) (tokens : List Token) : Openings :=
  tokens.foldl Openings.after o

private theorem Openings.after_of_ne {o : Openings} {t : Token} (h : t.kind ≠ .operator) : o.after t = o := by
  simp [Openings.after, Token.isMark, h]

/-- What the classifier makes of a token, given what is open before it and the tokens after it. -/
def Token.classified (base : Int) (o : Openings) (t : Token) (rest : List Token) : ManifestLens.Token :=
  if t.kind = .operator then t.highlight base .operator (operatorRemark t rest.head?)
  else t.highlight base (wordKind o t rest.head? rest.tail.head?) none

theorem classify_cons (base : Int) (o : Openings) (t : Token) (rest : List Token) :
    classify base o (t :: rest) = t.classified base o rest :: classify base (o.after t) rest := by
  rw [classify, Token.classified]
  by_cases isOp : t.kind = .operator
  · rw [if_pos (beq_iff_eq.2 isOp), if_pos isOp]
  · rw [if_neg (fun h => isOp (beq_iff_eq.1 h)), if_neg isOp, Openings.after_of_ne isOp]

/-- Each token is classified by what is open after the tokens before it. -/
theorem getElem?_classify (base : Int) (o : Openings) (before : List Token) (t : Token) (rest : List Token) :
    (classify base o (before ++ t :: rest))[before.length]? = some (t.classified base (o.afterAll before) rest) := by
  induction before generalizing o with
  | nil =>
    rw [List.nil_append, classify_cons]
    rfl
  | cons first before ih =>
    rw [List.cons_append, classify_cons, List.length_cons, List.getElem?_cons_succ, ih]
    rfl

private theorem length_classify (base : Int) (o : Openings) (tokens : List Token) :
    (classify base o tokens).length = tokens.length := by
  induction tokens generalizing o with
  | nil => rfl
  | cons t tokens ih => rw [classify_cons, List.length_cons, List.length_cons, ih]

/-! ### Braces -/

def Token.opensMap (t : Token) : Bool :=
  t.isMark ['\x7b']

def Token.closesMap (t : Token) : Bool :=
  t.isMark ['\x7d']

def Token.isBrace (t : Token) : Bool :=
  t.opensMap || t.closesMap

private theorem Token.opensMap_of_closesMap {t : Token} (h : t.closesMap = true) : t.opensMap = false := by
  simp only [closesMap, isMark, Bool.and_eq_true, beq_iff_eq] at h
  simp [opensMap, isMark, h.1]

private theorem Token.closesMap_of_opensMap {t : Token} (h : t.opensMap = true) : t.closesMap = false := by
  simp only [opensMap, isMark, Bool.and_eq_true, beq_iff_eq] at h
  simp [closesMap, isMark, h.1]

/-- The last brace among the tokens opens a map. -/
def EndsInMap (tokens : List Token) : Prop :=
  ∃ outer brace within, tokens = outer ++ brace :: within ∧ brace.opensMap = true ∧ ∀ t ∈ within, t.isBrace = false

namespace Openings

/-- A brace sets the flag, and no other token changes it. -/
private theorem brace_after (o : Openings) (t : Token) :
    (o.after t).brace = if t.isBrace then t.opensMap else o.brace := by
  unfold Openings.after
  split
  case isTrue opens => simp [Token.isBrace, Token.opensMap, opens]
  case isFalse noOpening =>
    have notOpens : t.opensMap = false := by simpa [Token.opensMap] using noOpening
    split
    case isTrue closes => simp [Token.isBrace, Token.closesMap, closes, notOpens]
    case isFalse noClosing =>
      have noBrace : t.isBrace = false := by simpa [Token.isBrace, Token.closesMap, notOpens] using noClosing
      rw [noBrace]
      split
      · rfl
      · split <;> rfl

private theorem afterAll_append (o : Openings) (a b : List Token) : o.afterAll (a ++ b) = (o.afterAll a).afterAll b :=
  List.foldl_append

private theorem brace_afterAll_of_noBrace (o : Openings) {tokens : List Token} (h : ∀ t ∈ tokens, t.isBrace = false) :
    (o.afterAll tokens).brace = o.brace := by
  induction tokens generalizing o with
  | nil => rfl
  | cons t tokens ih =>
    obtain ⟨here, later⟩ := List.forall_mem_cons.1 h
    show ((o.after t).afterAll tokens).brace = o.brace
    rw [ih (o.after t) later, brace_after, here]
    rfl

/-- The flag tells whether the last brace opens a map. -/
private theorem brace_afterAll_iff (tokens : List Token) : (none.afterAll tokens).brace = true ↔ EndsInMap tokens := by
  constructor
  · intro flag
    induction tokens using List.reverseRecOn with
    | nil => cases flag
    | append_singleton tokens t ih =>
      rw [afterAll_append] at flag
      change ((none.afterAll tokens).after t).brace = true at flag
      rw [brace_after] at flag
      split at flag
      · exact ⟨tokens, t, [], rfl, flag, List.forall_mem_nil _⟩
      · next noBrace =>
        obtain ⟨outer, brace, within, rfl, opens, noBraces⟩ := ih flag
        refine ⟨outer, brace, within ++ [t], by simp, opens, List.forall_mem_append.2 ⟨noBraces, ?_⟩⟩
        rw [List.forall_mem_singleton]
        simpa using noBrace
  · rintro ⟨outer, brace, within, rfl, opens, noBraces⟩
    rw [afterAll_append]
    show ((((none.afterAll outer).after brace).afterAll within).brace) = true
    rw [brace_afterAll_of_noBrace _ noBraces, brace_after, Token.isBrace, opens]
    rfl

end Openings

/-! ### Maps inside of maps -/

/-- Tokens in which each map that is opened is closed again, and no other map is closed. -/
inductive Nested : List Token → Prop where
  | nil : Nested []
  | plain {t : Token} {rest : List Token} (noBrace : t.isBrace = false) (others : Nested rest) : Nested (t :: rest)
  | map {opening closing : Token} {inside rest : List Token} (opens : opening.opensMap = true) (inner : Nested inside)
      (closes : closing.closesMap = true) (others : Nested rest) : Nested (opening :: inside ++ closing :: rest)

namespace Nested

variable {tokens others : List Token}

private theorem append (h : Nested tokens) (ho : Nested others) : Nested (tokens ++ others) := by
  induction h with
  | nil => exact ho
  | plain noBrace _ ih => exact .plain noBrace ih
  | map opens inner closes _ _ ih =>
    rw [List.append_assoc, List.cons_append]
    exact .map opens inner closes ih

private theorem countP_eq (h : Nested tokens) : tokens.countP Token.opensMap = tokens.countP Token.closesMap := by
  induction h with
  | nil => rfl
  | plain noBrace _ ih =>
    simp only [Token.isBrace, Bool.or_eq_false_iff] at noBrace
    simpa [noBrace] using ih
  | map opens _ closes _ ihInner ihOthers =>
    simp only [List.cons_append, List.countP_cons, List.countP_append, opens, closes,
      Token.closesMap_of_opensMap opens, Token.opensMap_of_closesMap closes, if_true, Bool.false_eq_true, if_false]
    omega

/-- Once a map was closed the flag is not set, whatever is open around it. -/
private theorem brace_afterAll (h : Nested tokens) (o : Openings) :
    (o.afterAll tokens).brace = (o.brace && !tokens.any Token.isBrace) := by
  induction h generalizing o with
  | nil => simp [Openings.afterAll]
  | @plain t rest noBrace _ ih =>
    show ((o.after t).afterAll rest).brace = _
    rw [ih, Openings.brace_after, noBrace, List.any_cons, noBrace]
    rfl
  | @map opening closing inside rest opens _ closes _ _ ih =>
    have hasBrace : (opening :: inside ++ closing :: rest).any Token.isBrace = true := by
      simp [Token.isBrace, opens]
    rw [Openings.afterAll_append, hasBrace]
    show (((o.afterAll (opening :: inside)).after closing).afterAll rest).brace = _
    rw [ih, Openings.brace_after, Token.isBrace, closes, Token.opensMap_of_closesMap closes]
    simp

end Nested

/-- If more maps are opened than closed, one of them is still open, and after its brace all maps are closed again. -/
private theorem exists_nested_of_lt {tokens : List Token}
    (h : tokens.countP Token.closesMap < tokens.countP Token.opensMap) :
    ∃ outer brace within, tokens = outer ++ brace :: within ∧ brace.opensMap = true ∧ Nested within := by
  -- the last token is passed, opens the map, or closes one; then the map around that one is looked for in turn
  induction hn : tokens.length using Nat.strong_induction_on generalizing tokens with
  | h n ih =>
    rcases List.eq_nil_or_concat' tokens with rfl | ⟨front, t, rfl⟩
    · simp at h
    · rw [List.length_append, List.length_singleton] at hn
      simp only [List.countP_append, List.countP_singleton] at h
      by_cases opens : t.opensMap = true
      · exact ⟨front, t, [], rfl, opens, .nil⟩
      · rw [if_neg opens] at h
        by_cases closes : t.closesMap = true
        · rw [if_pos closes] at h
          obtain ⟨outer, brace, inside, rfl, braceOpens, inner⟩ := ih front.length (by omega) (by omega) rfl
          have same := inner.countP_eq
          simp only [List.countP_append, List.countP_cons, braceOpens, Token.closesMap_of_opensMap braceOpens, if_true,
            Bool.false_eq_true, if_false] at h
          rw [List.length_append, List.length_cons] at hn
          obtain ⟨outer, around, before, rfl, aroundOpens, nested⟩ := ih outer.length (by omega) (by omega) rfl
          refine ⟨outer, around, before ++ (brace :: inside ++ [t]), by simp, aroundOpens, ?_⟩
          exact nested.append (.map braceOpens inner closes .nil)
        · rw [if_neg closes] at h
          obtain ⟨outer, brace, within, rfl, braceOpens, nested⟩ := ih front.length (by omega) (by omega) rfl
          have noBrace : t.isBrace = false := by simp [Token.isBrace, opens, closes]
          exact ⟨outer, brace, within ++ [t], by simp, braceOpens, nested.append (.plain noBrace .nil)⟩

/-- In an open map, the last brace opens it exactly if there are no maps in it. -/
private theorem endsInMap_iff_of_nested {outer within : List Token} {brace : Token} (opens : brace.opensMap = true)
    (nested : Nested within) : EndsInMap (outer ++ brace :: within) ↔ ∀ t ∈ within, t.isBrace = false := by
  rw [← Openings.brace_afterAll_iff, Openings.afterAll_append]
  change (((Openings.none.afterAll outer).after brace).afterAll within).brace = true ↔ _
  rw [nested.brace_afterAll, Openings.brace_after, Token.isBrace, opens]
  simp

/-! ### Kinds of keys -/

private theorem wordKind_ne_text {o : Openings} (closed : ¬(o.double || o.single) = true) (t : Token)
    (next afterNext : Option Token) :
    wordKind o t next afterNext ≠ .string ∧ wordKind o t next afterNext ≠ .property := by
  rw [wordKind, if_neg closed]
  split_ifs
  · simp
  · simp
  · cases t.text with
    | nil => simp
    | cons c text =>
      dsimp only
      split <;> simp

private theorem wordKind_eq_property_iff (o : Openings) (t : Token) (next afterNext : Option Token) :
    wordKind o t next afterNext = .property ↔
      (o.double || o.single) = true ∧ isMark? afterNext [':'] = true ∧ o.brace = true := by
  by_cases quote : (o.double || o.single) = true
  · rw [wordKind, if_pos quote]
    split_ifs with key <;> simpa [quote] using key
  · exact iff_of_false (wordKind_ne_text quote t next afterNext).2 fun h => quote h.1

/-- A word is taken for a text or a property exactly if a quote is open. -/
private theorem wordKind_isText_iff (o : Openings) (t : Token) (next afterNext : Option Token) :
    (wordKind o t next afterNext = .string ∨ wordKind o t next afterNext = .property) ↔
      (o.double || o.single) = true := by
  by_cases quote : (o.double || o.single) = true
  · refine iff_of_true ?_ quote
    rw [wordKind, if_pos quote]
    split_ifs <;> simp
  · exact iff_of_false (not_or.2 (wordKind_ne_text quote t next afterNext)) quote

private theorem getElem?_withNext (before : List Token) (t : Token) (rest : List Token) :
    (withNext (before ++ t :: rest))[before.length]? = some (t, rest.head?) := by
  induction before with
  | nil => rfl
  | cons first before ih => rw [List.cons_append, withNext, List.length_cons, List.getElem?_cons_succ, ih]

/-- At a token that is no operator a quote is open exactly if it is the inside of a literal. -/
private theorem Paired.quoteOpen_iff {before rest : List Token} {t : Token} (h : Paired (before ++ t :: rest))
    (noOperator : t.kind ≠ .operator) :
    ((Openings.none.afterAll before).double || (Openings.none.afterAll before).single) = true ↔ t.kind = .string := by
  obtain ⟨-, each⟩ := List.forall₂_iff_get.1 (h.forall₂_classify (o := .none) ⟨rfl, rfl⟩ 0)
  obtain ⟨inTokens, here⟩ := List.getElem?_eq_some_iff.1 (getElem?_withNext before t rest)
  obtain ⟨inNodes, there⟩ := List.getElem?_eq_some_iff.1 (getElem?_classify 0 .none before t rest)
  obtain ⟨kind, remark, made, suits⟩ := each before.length inTokens inNodes
  rw [List.get_eq_getElem, List.get_eq_getElem, here, there, Token.classified, if_neg noOperator] at made
  rw [List.get_eq_getElem, here] at suits
  have same : wordKind (Openings.none.afterAll before) t rest.head? rest.tail.head? = kind :=
    congrArg ManifestLens.Token.kind made
  rw [← wordKind_isText_iff, same]
  rcases suits with ⟨isText, kinds⟩ | ⟨noText, rfl⟩
  · exact iff_of_true kinds isText
  · exact iff_of_false (plainKind_ne t rest.head?) noText

/-- A highlighted token is a property exactly if its token is the inside of a literal, a colon comes directly after the
literal, and the last brace before it opens a map.  So the key of a map is a property exactly if no other map stands
before it in the same map: let more maps be opened than closed before a key, then the last one that is still open is the
map of the key, and what is between its brace and the key has no braces. -/
theorem kind_eq_property_iff {texts : List (List Char)} {origin line offset base : Int}
    {nodes : List ManifestLens.Token} (h : highlight texts origin line offset base = .ok nodes) :
    ∃ tokens, lex texts line offset base = .ok tokens ∧ nodes.length = tokens.length ∧
      ∀ before t rest, tokens = before ++ t :: rest → ∃ node, nodes[before.length]? = some node ∧
        node.place = ⟨t.place.line + origin, t.place.character⟩ ∧ node.length = t.text.length ∧
        (node.kind = .property ↔
          t.IsInside texts line offset base ∧ isMark? rest[1]? [':'] = true ∧ EndsInMap before) ∧
        (t.IsInside texts line offset base → isMark? rest[1]? [':'] = true →
          before.countP Token.closesMap < before.countP Token.opensMap →
          ∃ outer brace within, before = outer ++ brace :: within ∧ brace.opensMap = true ∧ Nested within ∧
            (node.kind = .property ↔ ∀ s ∈ within, s.isBrace = false)) := by
  rw [highlight] at h
  cases lexed : lex texts line offset base with
  | error bad => rw [lexed] at h; cases h
  | ok tokens =>
    rw [lexed] at h
    cases h
    refine ⟨tokens, rfl, length_classify _ _ _, ?_⟩
    rintro before t rest rfl
    have inside := kind_eq_string_iff lexed (List.mem_append_right before List.mem_cons_self)
    have kind : (t.classified origin (Openings.none.afterAll before) rest).kind = .property ↔
        t.IsInside texts line offset base ∧ isMark? rest[1]? [':'] = true ∧ EndsInMap before := by
      have afterNext : rest.tail.head? = rest[1]? := by rw [List.head?_tail]
      rw [← inside, ← Openings.brace_afterAll_iff, Token.classified]
      split
      · next isOp => simp [Token.highlight, isOp]
      · next noOperator =>
        show wordKind _ t rest.head? rest.tail.head? = .property ↔ _
        rw [wordKind_eq_property_iff, afterNext, (paired_of_tokensFrom lexed).quoteOpen_iff noOperator]
    refine ⟨_, getElem?_classify origin .none before t rest, ?_, ?_, kind, ?_⟩
    · rw [Token.classified]
      split <;> rfl
    · rw [Token.classified]
      split <;> rfl
    · intro isKey colon deeper
      obtain ⟨outer, brace, within, rfl, opens, nested⟩ := exists_nested_of_lt deeper
      refine ⟨outer, brace, within, rfl, opens, nested, ?_⟩
      rw [kind, endsInMap_iff_of_nested opens nested]
      exact and_iff_right isKey |>.trans (and_iff_right colon)

/-- A map with a map as its first value and a key after it. -/
private def nestedMap : List (List Char) :=
  ["\x7b'a': \x7b'b': 1\x7d,", "  'c': 2\x7d"].map String.toList

theorem kind_eq_property_iff_nestedMap :
    ∃ nodes tokens, highlight nestedMap 0 0 0 0 = .ok nodes ∧ lex nestedMap 0 0 0 = .ok tokens ∧
      ∀ before t rest, tokens = before ++ t :: rest → t.IsInside nestedMap 0 0 0 → isMark? rest[1]? [':'] = true →
        before.countP Token.closesMap < before.countP Token.opensMap →
        ∃ node, nodes[before.length]? = some node ∧ ∃ outer brace within, before = outer ++ brace :: within ∧
          (node.kind = .property ↔ ∀ s ∈ within, s.isBrace = false) := by
  cases h : highlight nestedMap 0 0 0 0 with
  | error rest =>
    have succeeds : (highlight nestedMap 0 0 0 0).isOk = true := by decide +kernel
    rw [h] at succeeds
    cases succeeds
  | ok nodes =>
    obtain ⟨tokens, lexed, _, each⟩ := kind_eq_property_iff h
    refine ⟨nodes, tokens, rfl, lexed, fun before t rest cut isKey colon deeper => ?_⟩
    obtain ⟨node, atKey, _, _, _, inMap⟩ := each before t rest cut
    obtain ⟨outer, brace, within, split, _, _, kind⟩ := inMap isKey colon deeper
    exact ⟨node, atKey, outer, brace, within, split, kind⟩

/-- The key after a nested map is a text, though one map is open there and a colon comes after it. -/
theorem key_after_nested_map :
    ((highlight nestedMap 0 0 0 0).toOption.map fun nodes => nodes.map (·.kind)) =
        some [.operator, .operator, .property, .operator, .operator, .operator, .operator, .property, .operator,
          .operator, .number, .operator, .operator, .operator, .string, .operator, .operator, .number, .operator] ∧
      ((lex nestedMap 0 0 0).toOption.map fun tokens =>
        ((tokens.take 14).countP Token.closesMap, (tokens.take 14).countP Token.opensMap,
          (tokens.drop 13).map fun t => String.ofList t.text)) =
        some (1, 2, ["'", "c", "'", ":", "2", "\x7d"]) := by
  decide +kernel

end ManifestLens.Expression
