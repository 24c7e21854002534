import ManifestLens.Yaml.Mark

/-!
# Tokens of YAML texts

The marks, names and scalars into which a YAML text is cut, each with the place where it starts and ends.
-/

namespace ManifestLens.Yaml

/-- How a scalar is written. -/
inductive ScalarStyle where
  | plain | single | double | literal | folded
  deriving DecidableEq, Inhabited

/-- What a directive says. -/
inductive Directive where
  | version (major minor : Nat)
  | handle (name expansion : String)
  | other (name : String)
  deriving DecidableEq, Inhabited

/-- The parts of a YAML text. -/
inductive Lexeme where
  | streamStart
  | streamEnd
  | directive (d : Directive)
  | documentStart
  | documentEnd
  | blockSequenceStart
  | blockMappingStart
  | blockEnd
  | flowSequenceStart
  | flowMappingStart
  | flowSequenceEnd
  | flowMappingEnd
  | key
  | value
  | blockEntry
  | flowEntry
  | aliasOf (name : String)
  | anchor (name : String)
  | tag (handle : Option String) (suffix : String)
  | scalar (text : String) (style : ScalarStyle)
  deriving DecidableEq, Inhabited

/-- How messages name a part. -/
def Lexeme.name : Lexeme → String
  | .streamStart => "<stream start>"
  | .streamEnd => "<stream end>"
  | .directive _ => "<directive>"
  | .documentStart => "<document start>"
  | .documentEnd => "<document end>"
  | .blockSequenceStart => "<block sequence start>"
  | .blockMappingStart => "<block mapping start>"
  | .blockEnd => "<block end>"
  | .flowSequenceStart => "["
  | .flowMappingStart => "\x7b"
  | .flowSequenceEnd => "]"
  | .flowMappingEnd => "\x7d"
  | .key => "?"
  | .value => ":"
  | .blockEntry => "-"
  | .flowEntry => ","
  | .aliasOf _ => "<alias>"
  | .anchor _ => "<anchor>"
  | .tag _ _ => "<tag>"
  | .scalar _ _ => "<scalar>"

/-- A part of a YAML text with its place. -/
structure Token where
  lexeme : Lexeme
  start : Mark
  stop : Mark
  deriving DecidableEq, Inhabited

end ManifestLens.Yaml
