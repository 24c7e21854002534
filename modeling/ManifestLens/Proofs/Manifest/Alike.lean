import ManifestLens.Yaml.Node.Value

/-!
# Values without the text

The text of a file matters for the values of its documents only as something to show in messages.  Two results are
alike (`Alike`) if they are equal, or if both are faults that do not come from the syntax of a text; the value of a
document is alike whatever the text is (`Yaml.alike_valueOf`).
-/

namespace ManifestLens

/-- The error is one in the tokens of a text or their grouping. -/
def Yaml.Error.ofSyntax : Yaml.Error → Bool
  | .fault stage _ _ _ _ => stage == .tokens || stage == .events
  | _ => false

/-- The fault is one in the tokens of a text or their grouping. -/
def Fault.ofSyntax : Fault → Bool
  | .yaml e _ => e.ofSyntax
  | _ => false

/-- Results that are equal, or faults that are not of the syntax of a text. -/
inductive Alike {α : Type} : Except Fault α → Except Fault α → Prop
  | ok (a : α) : Alike (.ok a) (.ok a)
  | error {f g : Fault} (hf : f.ofSyntax = false) (hg : g.ofSyntax = false) : Alike (.error f) (.error g)

namespace Alike

variable {α β : Type} {x y : Except Fault α}

theorem bind (h : Alike x y) {f g : α → Except Fault β} (next : ∀ a, Alike (f a) (g a)) :
    Alike (x >>= f) (y >>= g) := by
  cases h with
  | ok a => exact next a
  | error hf hg => exact .error hf hg

theorem map (h : Alike x y) (f : α → β) : Alike (x.map f) (y.map f) := by
  cases h with
  | ok a => exact .ok (f a)
  | error hf hg => exact .error hf hg

private theorem mapM {f : β → Except Fault α} (h : ∀ b, Alike (f b) (f b)) (items : List β) :
    Alike (items.mapM f) (items.mapM f) := by
  induction items with
  | nil => exact .ok []
  | cons b items ih =>
    rw [List.mapM_cons]
    exact (h b).bind fun a => ih.bind fun others => .ok (a :: others)

end Alike

namespace Yaml

/-! ### Scalars -/

private theorem alike_splitNumeral (text : List Char) : Alike (splitNumeral text) (splitNumeral text) := by
  unfold splitNumeral
  split
  · exact .error rfl rfl
  all_goals exact .ok _

private theorem alike_numberOr {α : Type} (n : Option α) : Alike (numberOr n) (numberOr n) := by
  cases n with
  | none => exact .error rfl rfl
  | some n => exact .ok n

private theorem alike_magnitude (text : List Char) : Alike (magnitude text) (magnitude text) := by
  unfold magnitude
  split
  · exact .error rfl rfl
  · exact .ok 0
  · exact alike_numberOr _
  · exact alike_numberOr _
  · exact alike_numberOr _
  · split
    · exact (Alike.mapM (fun part => alike_numberOr _) _).bind fun parts => .ok _
    · exact alike_numberOr _

private theorem alike_intValue (text : List Char) : Alike (intValue text) (intValue text) :=
  (alike_splitNumeral _).bind fun parts => (alike_magnitude parts.2).bind fun _ => .ok _

private theorem alike_floatValue (text : List Char) : Alike (floatValue text) (floatValue text) := by
  refine (alike_splitNumeral _).bind fun parts => ?_
  dsimp only
  split
  · exact .ok _
  · split
    · exact .ok _
    · split
      · exact (Alike.mapM (fun part => alike_numberOr _) _).bind fun parts => .ok _
      · exact (alike_numberOr _).bind fun x => .ok _

private theorem alike_boolValue (text : List Char) : Alike (boolValue text) (boolValue text) := by
  unfold boolValue
  dsimp only
  split
  · exact .ok _
  · split
    · exact .ok _
    · exact .error rfl rfl

private theorem alike_timestampValue (text : List Char) : Alike (timestampValue text) (timestampValue text) := by
  unfold timestampValue
  split
  · exact .error rfl rfl
  · dsimp only
    split
    · split
      · exact .ok _
      · exact .error rfl rfl
    · split
      · exact .ok _
      · exact .error rfl rfl

variable (s t : List Char)

private theorem alike_binaryValue (start : Mark) (text : List Char) :
    Alike (binaryValue s start text) (binaryValue t start text) := by
  unfold binaryValue
  dsimp only
  split
  · exact .error rfl rfl
  · split
    · exact .ok _
    · split
      · exact .error rfl rfl
      · exact .error rfl rfl

mutual

private theorem alike_scalarText : (node : Node) → Alike (scalarText s node) (scalarText t node)
  | .scalar _ text _ _ => .ok text
  | .sequence _ _ _ _ => .error rfl rfl
  | .mapping _ pairs start _ => alike_scalarTextAmong start pairs

private theorem alike_scalarTextAmong (start : Mark) : (pairs : List (Node × Node)) →
    Alike (scalarTextAmong s start pairs) (scalarTextAmong t start pairs)
  | [] => .error rfl rfl
  | (key, value) :: rest => by
    unfold scalarTextAmong
    split
    · exact alike_scalarText value
    · exact alike_scalarTextAmong start rest

end

private theorem alike_scalarValue (form : Form) (node : Node) :
    Alike (scalarValue s form node) (scalarValue t form node) := by
  refine (alike_scalarText s t node).bind fun text => ?_
  split
  · exact .ok _
  · exact alike_boolValue _
  · exact alike_intValue _
  · exact alike_floatValue _
  · exact alike_binaryValue s t _ _
  · exact alike_timestampValue _
  · exact .ok _

/-! ### Merges -/

/-- A fault in merging is one of values. -/
def Merges {α : Type} (result : Except Error α) : Prop :=
  ∀ e, result = .error e → e.ofSyntax = false

section

variable {α β : Type}

private theorem merges_ok (a : α) : Merges (.ok a) := by
  intro e h
  cases h

private theorem merges_mergeFault (since : Mark) (problem : String → Problem) (found : Node) :
    Merges (mergeFault since problem found : Except Error α) := by
  intro e h
  cases h
  rfl

private theorem Merges.bind {x : Except Error α} {f : α → Except Error β} (h : Merges x) (next : ∀ a, Merges (f a)) :
    Merges (x >>= f) := by
  cases x with
  | ok a => exact next a
  | error e =>
    intro e' same
    cases same
    exact h e rfl

end

mutual

private theorem merges_splitMerges (since : Mark) : (pairs : List (Node × Node)) → Merges (splitMerges since pairs)
  | [] => merges_ok _
  | (key, value) :: rest => by
    unfold splitMerges
    split
    · exact (merges_mergedFrom since value).bind fun _ => (merges_splitMerges since rest).bind fun _ => merges_ok _
    · exact (merges_splitMerges since rest).bind fun _ => merges_ok _

private theorem merges_mergedFrom (since : Mark) : (node : Node) → Merges (mergedFrom since node)
  | .mapping _ pairs start _ => by
    unfold mergedFrom
    exact (merges_splitMerges start pairs).bind fun _ => merges_ok _
  | .sequence _ items _ _ => by
    unfold mergedFrom
    exact (merges_mergedFromItems since items).bind fun _ => merges_ok _
  | .scalar _ _ _ _ => by
    unfold mergedFrom
    exact merges_mergeFault _ _ _

private theorem merges_mergedFromItems (since : Mark) : (items : List Node) → Merges (mergedFromItems since items)
  | [] => by
    unfold mergedFromItems
    exact merges_ok _
  | .mapping _ pairs start _ :: rest => by
    unfold mergedFromItems
    exact (merges_splitMerges start pairs).bind fun _ => (merges_mergedFromItems since rest).bind fun _ => merges_ok _
  | .scalar _ _ _ _ :: _ => by
    unfold mergedFromItems
    exact merges_mergeFault _ _ _
  | .sequence _ _ _ _ :: _ => by
    unfold mergedFromItems
    exact merges_mergeFault _ _ _

end

private theorem merges_mergedPairs (since : Mark) (pairs : List (Node × Node)) : Merges (mergedPairs since pairs) := by
  intro e h
  cases split : splitMerges since pairs with
  | ok r =>
    rw [mergedPairs, split] at h
    cases h
  | error e' =>
    rw [mergedPairs, split] at h
    cases h
    exact merges_splitMerges since pairs e split

/-! ### Levels -/

variable {s t}

private theorem alike_nodeFault {α : Type} (task : Option (Task × Mark)) (problem : Problem) (mark : Mark) :
    Alike (nodeFault s task problem mark : Except Fault α) (nodeFault t task problem mark) :=
  .error rfl rfl

private theorem alike_meet (node : Node) : Alike (meet s node) (meet t node) := by
  unfold meet
  split
  · exact alike_nodeFault ..
  · split
    · exact .ok _
    · exact (alike_scalarValue s t _ node).map _

private theorem alike_meetAll (nodes : List Node) : Alike (meetAll s nodes) (meetAll t nodes) := by
  induction nodes with
  | nil => exact .ok _
  | cons node rest ih => exact (alike_meet node).bind fun _ => ih.bind fun _ => .ok _

private theorem alike_meetPairs (since : Mark) (pairs : List (Node × Node)) :
    Alike (meetPairs s since pairs) (meetPairs t since pairs) := by
  induction pairs with
  | nil => exact .ok _
  | cons pair rest ih =>
    refine (alike_meet pair.1).bind fun first => ?_
    split
    · exact (alike_meet pair.2).bind fun _ => ih.bind fun _ => .ok _
    · exact alike_nodeFault ..

private theorem alike_meetSingles (task : Task) (since : Mark) (nodes : List Node) :
    Alike (meetSingles s task since nodes) (meetSingles t task since nodes) := by
  induction nodes with
  | nil => exact .ok _
  | cons node rest ih =>
    cases node with
    | scalar => exact alike_nodeFault ..
    | sequence => exact alike_nodeFault ..
    | mapping tag pairs start stop =>
      cases pairs with
      | nil => exact alike_nodeFault ..
      | cons pair more =>
        cases more with
        | nil => exact (alike_meetAll _).bind fun _ => ih.bind fun _ => .ok _
        | cons => exact alike_nodeFault ..

private theorem alike_openSingles (task : Task) (node : Node) :
    Alike (openSingles s task node) (openSingles t task node) := by
  cases node with
  | sequence tag items start stop => exact alike_meetSingles task start items
  | scalar => exact alike_nodeFault ..
  | mapping => exact alike_nodeFault ..

private theorem alike_openCollection (node : Node) : Alike (openCollection s node) (openCollection t node) := by
  unfold openCollection
  split
  · cases node with
    | sequence tag items start stop => exact alike_meetAll items
    | scalar => exact alike_nodeFault ..
    | mapping => exact alike_nodeFault ..
  · exact alike_openSingles _ node
  · exact alike_openSingles _ node
  · cases node with
    | scalar => exact alike_nodeFault ..
    | sequence => exact alike_nodeFault ..
    | mapping tag pairs start stop =>
      dsimp only
      have merges := merges_mergedPairs start pairs
      cases merged : mergedPairs start pairs with
      | ok pairs => exact alike_meetPairs start pairs
      | error e => exact .error (merges e merged) (merges e merged)

private theorem alike_openLevel (nodes : List Node) : Alike (openLevel s nodes) (openLevel t nodes) := by
  induction nodes with
  | nil => exact .ok _
  | cons node rest ih => exact (alike_openCollection node).bind fun _ => ih.bind fun _ => .ok _

private theorem alike_openLevels (fuel : Nat) (level : List Node) :
    Alike (openLevels s fuel level) (openLevels t fuel level) := by
  induction fuel generalizing level with
  | zero => exact .ok _
  | succ fuel ih =>
    cases level with
    | nil => exact .ok _
    | cons node rest => exact (alike_openLevel _).bind fun next => ih next

/-- Whatever the text is, a document has the same value, or none for reasons other than the syntax. -/
theorem alike_valueOf (s t : List Char) (root : Node) : Alike (valueOf s root) (valueOf t root) := by
  have checked : Alike (check s root) (check t root) := (alike_meet root).bind fun level => alike_openLevels _ level
  exact checked.bind fun _ => .ok _

end Yaml

end ManifestLens
