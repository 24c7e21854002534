import ManifestLens.Inspect.Walk
import ManifestLens.Text.Digit

/-!
# The command line of the inspector

Two operands, the kind and the name of a resource, and two options: a namespace and the verbosity, which counts how
often it is given.  Long options may be shortened, short ones may be joined, and after a double hyphen all is operands.
-/

namespace ManifestLens.Inspect

/-- The options. -/
inductive Flag where
  | help | scope | verbose
  deriving DecidableEq, Inhabited

/-- The long names of options. -/
def Flag.longNames : List (String × Flag) :=
  [("--help", .help), ("--namespace", .scope), ("--verbose", .verbose)]

/-- The letters of options. -/
def Flag.ofLetter? : Char → Option Flag
  | 'h' => some .help
  | 'n' => some .scope
  | 'v' => some .verbose
  | _ => none

/-- A word of a command line. -/
inductive Word where
  | operand (text : String)
  /-- The double hyphen after which all is operands. -/
  | separator
  /-- An option, possibly with a value in the same word; the value after a letter may be more letters. -/
  | option (flag : Flag) (short : Bool) (value : Option String)
  | unknown
  deriving DecidableEq, Inhabited

namespace Word

/-- The parts before and after the first equals sign. -/
def splitEquals (text : List Char) : List Char × Option String :=
  let name := text.takeWhile (· != '=')
  match text.drop name.length with
  | [] => (name, none)
  | _ :: value => (name, some (String.ofList value))

/-- A negative number: digits with at most one point, which has digits after it. -/
def isNegativeNumber : List Char → Bool
  | '-' :: rest =>
    let whole := rest.takeWhile Text.isDecimal
    match rest.drop whole.length with
    | [] => !whole.isEmpty
    | '.' :: fraction => !fraction.isEmpty && fraction.all Text.isDecimal
    | _ => false
  | _ => false

/-- A word that starts with a hyphen and is no option. -/
def other (text : List Char) : Word :=
  if isNegativeNumber text || text.contains ' ' then .operand (String.ofList text) else .unknown

/-- A long option, by its name or the start of it; nothing if several start so. -/
def long? (text : List Char) : Option Word :=
  let (name, value) := splitEquals text
  match Flag.longNames.lookup (String.ofList name) with
  | some flag => some (.option flag false value)
  | none =>
    match Flag.longNames.filter fun e => name.isPrefixOf e.1.toList with
    | [] => some (other text)
    | [(_, flag)] => some (.option flag false value)
    | _ => none

/-- A short option, which may have a value after its letter or after an equals sign. -/
def short (text : List Char) : Word :=
  match text with
  | ['-', c] =>
    match Flag.ofLetter? c with
    | some flag => .option flag true none
    | none => other text
  | '-' :: c :: rest =>
    match Flag.ofLetter? c, rest with
    | some flag, '=' :: value => .option flag true (some (String.ofList value))
    | some flag, _ => .option flag true (some (String.ofList rest))
    | none, _ => other text
  | _ => other text

/-- The word that an argument is; nothing if it is ambiguous. -/
def of? (argument : String) : Option Word :=
  match argument.toList with
  | '-' :: '-' :: rest => long? ('-' :: '-' :: rest)
  | '-' :: c :: rest => some (short ('-' :: c :: rest))
  | _ => some (.operand argument)

/-- The words that arguments are. -/
def ofAll? : List String → Option (List Word)
  | [] => some []
  | argument :: rest =>
    if argument == "--" then some (.separator :: rest.map .operand)
    else do return (← of? argument) :: (← ofAll? rest)

end Word

/-- What the inspector is asked for. -/
structure Arguments where
  kind : String
  name : String
  scope : String
  verbosity : Nat
  deriving DecidableEq, Inhabited

/-- What a command line asks for. -/
inductive CommandLine where
  | inspect (a : Arguments)
  | help
  | misuse
  deriving DecidableEq, Inhabited

/-- What was read of a command line. -/
structure Progress where
  operands : List String := []
  scope : String := "default"
  verbosity : Nat := 0
  /-- Something was given that is not known. -/
  strange : Bool := false
  /-- An option came after the last operand that is wanted. -/
  closed : Bool := false

namespace Progress

/-- An option is given. -/
def atOption (p : Progress) : Progress :=
  { p with closed := p.closed || p.operands.length ≥ 2 }

/-- What the operands come to. -/
def finish (p : Progress) : CommandLine :=
  match p.operands, p.strange with
  | [kind, name], false => .inspect ⟨kind, name, p.scope, p.verbosity⟩
  | _, _ => .misuse

/-- What a short option with more after its letter comes to: letters without a value, and possibly one that takes the
rest as its value or, where nothing is left, the next word. -/
inductive Letters where
  | done (verbosity : Nat)
  | value (verbosity : Nat) (text : String)
  | wantsValue (verbosity : Nat)
  | help
  | misuse

/-- Reads the letters after a flag that takes no value; `help` is whether help was asked for already. -/
def letters (verbosity : Nat) (help : Bool) : List Char → Letters
  | [] => if help then .help else .done verbosity
  | c :: rest =>
    match Flag.ofLetter? c with
    | some .verbose => letters (verbosity + 1) help rest
    | some .help => letters verbosity true rest
    | some .scope =>
      if help then .help
      else if rest.isEmpty then .wantsValue verbosity
      else .value verbosity (String.ofList rest)
    | none => .misuse

/-- Reads words one after the other. -/
def read (p : Progress) : List Word → CommandLine
  | [] => p.finish
  | .operand text :: rest => read { p with operands := p.operands ++ [text] } rest
  | .separator :: rest => read { p with strange := p.strange || p.closed } rest
  | .unknown :: rest => read { p.atOption with strange := true } rest
  | .option .scope _ (some value) :: rest => read { p.atOption with scope := value } rest
  | .option .scope _ none :: .operand value :: rest => read { p.atOption with scope := value } rest
  | .option .scope _ none :: _ => .misuse
  | .option .verbose _ none :: rest => read { p.atOption with verbosity := p.verbosity + 1 } rest
  | .option .help _ none :: _ => .help
  | .option _ false (some _) :: _ => .misuse
  | .option flag true (some text) :: rest =>
    let first := if flag = .verbose then p.verbosity + 1 else p.verbosity
    if text.isEmpty then .misuse
    else
      match letters first (flag = .help) text.toList with
      | .done verbosity => read { p.atOption with verbosity := verbosity } rest
      | .value verbosity value => read { p.atOption with verbosity := verbosity, scope := value } rest
      | .wantsValue verbosity =>
        match rest with
        | .operand value :: others => read { p.atOption with verbosity := verbosity, scope := value } others
        | _ => .misuse
      | .help => .help
      | .misuse => .misuse

end Progress

/-- What arguments ask for. -/
def CommandLine.ofArguments (arguments : List String) : CommandLine :=
  match Word.ofAll? arguments with
  | some words => Progress.read {} words
  | none => .misuse

/-! ### Running -/

/-- Shows the resource that is asked for and all that it manages. -/
def Arguments.run (a : Arguments) (cluster : Cluster) (verbosity : Nat) : Printing Unit := do
  Printing.say s!"Getting {a.kind}:{a.scope}:{a.name}"
  Printing.say "Workflow Trigger"
  load cluster (if a.verbosity > 0 then a.verbosity else verbosity) depthLimit
    (.map [(.str "kind", .str a.kind), (.str "name", .str a.name), (.str "namespace", .str a.scope)])

/-- The exit code after a command line that asks for nothing. -/
def usageExit : Nat := 2

/-- Runs a command line; `verbosity` counts where it gives none. -/
def CommandLine.run (c : CommandLine) (cluster : Cluster) (verbosity : Nat) : Printing Unit :=
  match c with
  | .inspect a => a.run cluster verbosity
  | .help => throw (.exit 0)
  | .misuse => throw (.exit usageExit)

end ManifestLens.Inspect
