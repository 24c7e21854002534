import ManifestLens.Text.Utf8
import ManifestLens.Yaml.Error
import ManifestLens.Yaml.Token
import ManifestLens.Yaml.Token.Space

/-!
# Names, tags and directives

Anchors and aliases have a name.  A tag is written in full between angle brackets, or as a handle and a suffix.
Directives give the version of YAML and the meaning of handles.
-/

namespace ManifestLens.Yaml.Cursor

open ManifestLens.Yaml

/-- An error at the cursor. -/
def fails {α : Type} (c : Cursor) (task : Task) (since : Mark) (problem : Problem) : Except Error α :=
  .error (.fault .tokens (some task) (some since) problem c.mark)

/-- A name, which has to end at a character of a class. -/
def name (c : Cursor) (task : Task) (since : Mark) (ends : Char → Bool) : Except Error (String × Cursor) :=
  let (run, after) := c.span isName
  if run.isEmpty then c.fails task since (.expectedName c.head)
  else if ends after.head then .ok (String.ofList run, after)
  else after.fails task since (.expectedName after.head)

/-- What may follow the name of an anchor or alias. -/
def endsAnchor (c : Char) : Bool :=
  isGap c || "?:,]\x7d%@`".toList.contains c

/-- An anchor or alias, whose mark is ahead. -/
def anchorToken (c : Cursor) (isAlias : Bool) : Except Error (Token × Cursor) := do
  let (text, after) ← c.next.name (if isAlias then .aliasName else .anchorName) c.mark endsAnchor
  return (⟨if isAlias then .aliasOf text else .anchor text, c.mark, after.mark⟩, after)

/-! ### Tags -/

/-- A handle: an exclamation mark, or a name between two. -/
def tagHandle (c : Cursor) (task : Task) (since : Mark) : Except Error (String × Cursor) :=
  if c.head != '!' then c.fails task since (.expectedHandleMark c.head)
  else if c.peek 1 == ' ' then .ok ("!", c.next)
  else
    let (run, after) := c.next.span isName
    if after.head != '!' then after.fails task since (.expectedHandleMark after.head)
    else .ok (String.ofList ('!' :: run ++ ['!']), after.next)

/-- A character that stands for itself in a tag. -/
def isUri (c : Char) : Bool :=
  c.isAlphanum || "-;/?:@&=+$,_.!~*'()[]".toList.contains c

/-- A run of escaped bytes, and the cursor after it. -/
def uriBytes (task : Task) (since : Mark) : (fuel : Nat) → Cursor → Except Error (List UInt8 × Cursor)
  | 0, c => .ok ([], c)
  | fuel + 1, c =>
    if c.head != '%' then .ok ([], c)
    else do
      let c := c.next
      match [c.peek 0, c.peek 1].find? fun a => !isHex a with
      | some bad => c.fails task since (.expectedUriEscape bad)
      | none =>
        let byte := (Text.hexValue [c.peek 0, c.peek 1]).toUInt8
        let (rest, after) ← uriBytes task since fuel (c.advance 2)
        return (byte :: rest, after)

/-- The pieces of a tag's text. -/
def uriPieces (task : Task) (since : Mark) : (fuel : Nat) → Cursor → Except Error (List Char × Cursor)
  | 0, c => .ok ([], c)
  | fuel + 1, c =>
    let (run, after) := c.span isUri
    if after.head != '%' then .ok (run, after)
    else do
      let (bytes, afterBytes) ← uriBytes task since (after.rest.length + 1) after
      match Text.decodeUtf8 bytes with
      | .error reason => after.fails task since (.undecodable reason)
      | .ok text =>
        let (rest, stop) ← uriPieces task since fuel afterBytes
        return (run ++ text ++ rest, stop)

/-- The text of a tag, which may not be empty. -/
def tagUri (c : Cursor) (task textTask : Task) (since : Mark) : Except Error (String × Cursor) := do
  let (text, after) ← uriPieces task since (c.rest.length + 1) c
  if after.mark.index == c.mark.index then c.fails textTask since (.expectedUri c.head)
  else return (String.ofList text, after)

/-- A tag, whose mark is ahead. -/
def tagToken (c : Cursor) : Except Error (Token × Cursor) := do
  let since := c.mark
  let (handle, suffix, after) ←
    if c.peek 1 == '<' then do
      let (text, after) ← (c.advance 2).tagUri .tag .tagText since
      if after.head != '>' then after.fails .tagText since (.expectedTagEnd after.head)
      else pure (none, text, after.next)
    else if isGap (c.peek 1) then pure (none, "!", c.next)
    else do
      let hasHandle := (c.next.rest.takeWhile fun a => !isSpaceStop a).contains '!'
      let (handle, afterHandle) ← if hasHandle then c.tagHandle .tag since else pure ("!", c.next)
      let (text, after) ← afterHandle.tagUri .tag .tagText since
      pure (some handle, text, after)
  if isSpaceStop after.head then return (⟨.tag handle suffix, since, after.mark⟩, after)
  else after.fails .tag since (.expectedSpace after.head)

/-! ### Directives -/

/-- A number of a version. -/
def versionNumber (c : Cursor) (since : Mark) : Except Error (Nat × Cursor) :=
  let (run, after) := c.span Char.isDigit
  if run.isEmpty then c.fails .directive since (.expectedDigit c.head)
  else .ok (Text.decimalValue run, after)

/-- The version that a directive gives. -/
def versionDirective (c : Cursor) (since : Mark) : Except Error (Directive × Cursor) := do
  let (major, afterMajor) ← (c.skip (· == ' ')).versionNumber since
  if afterMajor.head != '.' then afterMajor.fails .directive since (.expectedVersionPoint afterMajor.head)
  else
    let (minor, after) ← afterMajor.next.versionNumber since
    if isSpaceStop after.head then return (.version major minor, after)
    else after.fails .directive since (.expectedVersionEnd after.head)

/-- The handle that a directive gives a meaning. -/
def handleDirective (c : Cursor) (since : Mark) : Except Error (Directive × Cursor) := do
  let (handle, afterHandle) ← (c.skip (· == ' ')).tagHandle .directive since
  if afterHandle.head != ' ' then afterHandle.fails .directive since (.expectedSpace afterHandle.head)
  else
    let (text, after) ← (afterHandle.skip (· == ' ')).tagUri .directive .directiveText since
    if isSpaceStop after.head then return (.handle handle text, after)
    else after.fails .directive since (.expectedSpace after.head)

/-- A directive, whose mark is ahead, with the rest of its line. -/
def directiveToken (c : Cursor) : Except Error (Token × Cursor) := do
  let since := c.mark
  let (text, afterName) ← c.next.name .directive since isSpaceStop
  let (directive, stop) ←
    if text == "YAML" then afterName.versionDirective since
    else if text == "TAG" then afterName.handleDirective since
    else pure (Directive.other text, afterName)
  let rest := if text == "YAML" || text == "TAG" then stop else stop.skip fun a => !isLineStop a
  let after ← rest.endLine .directive since
  return (⟨.directive directive, since, stop.mark⟩, after)

end ManifestLens.Yaml.Cursor
