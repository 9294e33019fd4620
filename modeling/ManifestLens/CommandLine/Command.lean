import ManifestLens.CommandLine.Words

/-!
# Commands

The commands of the tool with their parameters, and the options that stand before a command.
-/

namespace ManifestLens

/-- The options before the command. -/
structure GlobalOptions where
  /-- The configuration file that the user names. -/
  config : Option Route := none
  verbosity : Nat := 0
  usesColor : Bool := true
deriving DecidableEq, Repr

/-- A command with what the user asks of it. -/
inductive Command where
  | versions (package : String) (includePre : Option Bool) (limit : Nat) (asJson : Bool)
  | info (package : String) (asJson : Bool)
  | scan (path : Route) (includePre : Option Bool) (isDeep asJson : Bool)
  | complete (file : Route) (line column : Nat) (includePre : Option Bool) (asJson : Bool)
  | hover (file : Route) (line column : Nat)
  | fix (file : Route) (line : Nat) (choice : Option Nat) (keepsCopy isConfirmed : Bool)
deriving DecidableEq, Repr

namespace Command

open Grammar (Values)

/-! ### Parameters -/

def helpOption : Parameter :=
  { name := "help", kind := .switch, replacesCommand := true
    spellings := [("-h", .switches true), ("--help", .switches true)] }

/-- The option that asks for the version of the tool. -/
def versionOption : Parameter :=
  { name := "version", kind := .switch, replacesCommand := true
    spellings := [("--version", .switches true)] }

/-- An option that takes a value. -/
def valueOption (name : String) (kind : ParameterKind) (spellings : List String)
    (default : GivenValue := .nothing) : Parameter :=
  { name, kind, default, spellings := spellings.map fun spelling => (spelling, .takesValue) }

def switchOption (name : String) (spellings : List String) : Parameter :=
  { name, kind := .switch, default := .switch false
    spellings := spellings.map fun spelling => (spelling, .switches true) }

/-- The choice between pre-releases and none. -/
def preOption : Parameter :=
  { name := "pre", kind := .switch
    spellings := [("--pre", .switches true), ("--no-pre", .switches false)] }

def formatOption (format : String) : Parameter :=
  valueOption "format" (.choice [format, "json"]) ["--format", "-f"] (.text format)

def argument (name : String) (kind : ParameterKind) : Parameter := { name, kind }

/-- The file that an editor command works on. -/
def fileArgument : Parameter := argument "FILE" (.path false)

/-- What may stand before a command, which is the first word that is no option. -/
def globalGrammar : Grammar where
  allowsMixing := false
  parameters :=
    [{ valueOption "config" (.path false) ["--config", "-c"] with environmentName := some "TOMBO_CONFIG" },
      { name := "verbose", kind := .count, default := .count 0
        spellings := [("--verbose", .counts), ("-v", .counts)] },
      { name := "color", kind := .switch, default := .switch true, environmentName := some "TOMBO_COLOR"
        spellings := [("--color", .switches true), ("--no-color", .switches false)] },
      versionOption, helpOption]

def globalOptions (values : Values) : GlobalOptions :=
  { config := (values.text? "config").map Route.ofText
    verbosity := (values.number? "verbose").getD 0
    usesColor := (values.switch? "color").getD true }

/-! ### The commands -/

/-- How the words after the name of a command are read. -/
structure Reading where
  parameters : List Parameter
  command : Values → Command

/-- The path that an argument gives. -/
def route (values : Values) (name : String) : Route := .ofText (values.text name)

/-- The number that an argument gives. -/
def number (values : Values) (name : String) : Nat := (values.number? name).getD 0

def isOn (values : Values) (name : String) : Bool := (values.switch? name).getD false

/-- The output is asked for as JSON. -/
def asJson (values : Values) : Bool := values.text? "format" == some "json"

/-- The releases of a package. -/
def versionsReading : Reading where
  parameters :=
    [argument "PACKAGE" .text, preOption,
      valueOption "limit" .positive ["--limit", "-n"] (.text "20"), formatOption "table"]
  command values :=
    .versions (values.text "PACKAGE") (values.switch? "pre") (number values "limit") (asJson values)

/-- The description of a package. -/
def infoReading : Reading where
  parameters := [argument "PACKAGE" .text, formatOption "text"]
  command values := .info (values.text "PACKAGE") (asJson values)

/-- The state of all dependencies of a manifest, or of all manifests in a folder. -/
def scanReading : Reading where
  parameters :=
    [{ argument "PATH" (.path true) with default := .text "pyproject.toml" }, preOption,
      switchOption "recursive" ["--recursive", "-r"], formatOption "table"]
  command values :=
    .scan (route values "PATH") (values.switch? "pre") (isOn values "recursive") (asJson values)

/-- The versions that complete a constraint. -/
def completeReading : Reading where
  parameters :=
    [fileArgument, argument "LINE" .positive, argument "COLUMN" .positive, preOption,
      formatOption "table"]
  command values :=
    .complete (route values "FILE") (number values "LINE") (number values "COLUMN")
      (values.switch? "pre") (asJson values)

/-- What is known of the package under a cursor. -/
def hoverReading : Reading where
  parameters :=
    [fileArgument, argument "LINE" .positive, argument "COLUMN" .positive,
      switchOption "raw" ["--raw"]]
  command values :=
    .hover (route values "FILE") (number values "LINE") (number values "COLUMN")

/-- The quick actions for a line, or one of them applied. -/
def fixReading : Reading where
  parameters :=
    [fileArgument, argument "LINE" .positive, valueOption "apply" .positive ["--apply"],
      { name := "backup", kind := .switch, default := .switch true
        spellings := [("--backup", .switches true), ("--no-backup", .switches false)] },
      switchOption "yes" ["--yes", "-y"]]
  command values :=
    .fix (route values "FILE") (number values "LINE") (values.number? "apply")
      (isOn values "backup") (isOn values "yes")

def readings : List (String × Reading) :=
  [("versions", versionsReading), ("info", infoReading), ("scan", scanReading),
    ("complete", completeReading), ("hover", hoverReading), ("fix", fixReading)]

def reading? (name : String) : Option Reading := (readings.find? (·.1 == name)).map (·.2)

namespace Reading

/-- The parameters of a command and the option that asks for help. -/
def grammar (reading : Reading) : Grammar := { parameters := reading.parameters ++ [helpOption] }

end Reading

/-- What the words of a command line ask for. -/
inductive Request (α : Type) where
  | help
  | version
  | run (task : α)

/-- The request in what has been read by a grammar. -/
def request (grammar : Grammar) (given : Given) (environment : List (String × String))
    (tree : FileTree) : Except UsageError (Request Values) :=
  match grammar.replacement? given with
  | some "version" => .ok .version
  | some _ => .ok .help
  | none => (grammar.settle given environment tree).map .run

/-- The command in the words after its name. -/
def ofWords (reading : Reading) (words : List String) (tree : FileTree) :
    Except UsageError (Request Command) := do
  let given ← reading.grammar.take words
  match ← request reading.grammar given [] tree with
  | .help => return .help
  | .version => return .version
  | .run values =>
      if given.rest.isEmpty then return .run (reading.command values)
      else throw (.unexpectedArguments given.rest)

/-- A first word that cannot be the name of a command is read as an option once more. -/
def looksLikeOption (name : String) : Bool :=
  match name.toList with
  | [] => false
  | c :: _ => !(Text.isWordChar c && c != '_')

/-- The options before the command, how the command is read, and the words after its name. A command line
without words asks for help. -/
def ofLine (words : List String) (environment : List (String × String)) (tree : FileTree) :
    Except UsageError (Request (GlobalOptions × Reading × List String)) := do
  if words.isEmpty then return .help
  let given ← globalGrammar.take words
  match ← request globalGrammar given environment tree with
  | .help => return .help
  | .version => return .version
  | .run values =>
      match given.rest with
      | [] => throw .missingCommand
      | name :: rest =>
          match reading? name with
          | some reading => return .run (globalOptions values, reading, rest)
          | none =>
              if looksLikeOption name then
                match ← request globalGrammar (← globalGrammar.take (name :: rest)) environment tree with
                | .help => return .help
                | .version => return .version
                | .run _ => throw (.noSuchCommand name)
              else throw (.noSuchCommand name)

end Command

end ManifestLens
