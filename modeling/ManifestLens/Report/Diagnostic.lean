import ManifestLens.Position

/-!
# Diagnostics, logs and index entries

What the analysis of a file tells an editor: faults at a stretch of text, messages for the log, and where the keys of
the file are.
-/

namespace ManifestLens

/-- How grave a diagnostic is. -/
inductive Gravity where
  | error | warning | information
  deriving DecidableEq, Inhabited

/-- The number of a gravity. -/
def Gravity.code : Gravity → Int
  | .error => 1
  | .warning => 2
  | .information => 3

/-- A fault at a stretch of text. -/
structure Diagnostic where
  gravity : Gravity
  range : Range
  message : String
  deriving DecidableEq, Inhabited

/-- The level of a log message. -/
inductive LogLevel where
  | error | warning | info | log | debug
  deriving DecidableEq, Inhabited

/-- The number of a level. -/
def LogLevel.code : LogLevel → Int
  | .error => 1
  | .warning => 2
  | .info => 3
  | .log => 4
  | .debug => 5

/-- A message for the log. -/
structure Log where
  level : LogLevel
  message : String
  deriving DecidableEq, Inhabited

/-- Where a key of a file is, and the version of the block that it is in. -/
structure IndexEntry where
  uri : String
  name : String
  range : Range
  version : Option String
  deriving DecidableEq, Inhabited

end ManifestLens
