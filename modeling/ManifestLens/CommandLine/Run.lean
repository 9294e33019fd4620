import ManifestLens.CommandLine.Edit
import ManifestLens.CommandLine.Scan
import ManifestLens.Config.Basic

/-!
# Runs of the tool

A run reads the options before the command, sets up the log, loads the configuration, reads the words after the
name of the command and performs it. Whatever stops it is told, and the run ends with a code: zero if nothing
went wrong, one after a failure, two after wrong usage.
-/

namespace ManifestLens

namespace Tool

def version : String := "0.1.0.dev0"

def record (level : LogLevel) (message : String) : LogRecord := .of "cli" level message

/-- The threshold of the log that a user asks for by repeating an option. -/
def threshold : Nat → LogLevel
  | 0 => .warning
  | 1 => .info
  | _ => .debug

def setUpLog (verbosity : Nat) : Step Unit := do
  let level := threshold verbosity
  modify fun session => { session with format := ⟨level, decide (1 < verbosity), false⟩ }
  Step.log (record .debug ("Logging initialized at " ++ level.text ++ " level"))

/-- A truth value as the log shows it. -/
def flagText (flag : Bool) : String := if flag then "True" else "False"

/-- Loads the configuration, corrects it and tells of every correction. -/
def readConfig (options : GlobalOptions) : Step Config := do
  let (loaded, records) := Config.load (← get).files options.config
  Step.logAll records
  let config ← Step.orFail loaded
  let (validated, corrections) ← Step.ofExcept (config.validate.mapError .badUrl)
  Step.logAll (corrections.map Config.correctionRecord)
  corrections.forM fun correction =>
    Step.say .warning (correction.option ++ ": " ++ correction.message)
  let source := (options.config.map Route.text <|> config.source).getD "None"
  Step.logAll
    [record .debug ("tombo v" ++ version), record .debug ("Config path: " ++ source),
      record .debug ("Verbosity: " ++ toString options.verbosity ++ " | Color: " ++
        flagText options.usesColor)]
  return validated

def perform (config : Config) : Command → Step Unit
  | .versions package includePre limit asJson =>
      PackageReport.versions config package includePre limit asJson
  | .info package asJson => PackageReport.description config package asJson
  | .scan path includePre isDeep asJson => Scan.run config path includePre isDeep asJson
  | .complete file line column includePre asJson =>
      EditorCommand.complete config file line column includePre asJson
  | .hover file line column => EditorCommand.hover config file line column
  | .fix file line choice keepsCopy isConfirmed =>
      EditorCommand.fix config file line choice keepsCopy isConfirmed

/-- How the tool is used. -/
def helpText : String :=
  "Usage: tombo [OPTIONS] COMMAND [ARGS]...\n\n" ++
  "Commands:\n" ++
  "  versions PACKAGE           List released versions\n" ++
  "  info PACKAGE               Show package details\n" ++
  "  scan [PATH]                Report the state of every dependency\n" ++
  "  complete FILE LINE COLUMN  Version completions at a position\n" ++
  "  hover FILE LINE COLUMN     Hover card for the package at a position\n" ++
  "  fix FILE LINE              List or apply quick actions for a line"

/-- Does what the words of a command line ask for. -/
def obey (words : List String) : Step Unit := do
  let session ← get
  match ← Step.ofUsage (Command.ofLine words session.environment session.files) with
  | .help => Step.echo helpText
  | .version => Step.echo ("tombo " ++ version)
  | .run (options, reading, rest) =>
      setUpLog options.verbosity
      let config ← readConfig options
      match ← Step.ofUsage (Command.ofWords reading rest (← get).files) with
      | .help => Step.echo helpText
      | .version => Step.echo ("tombo " ++ version)
      | .run command => perform config command

/-- Tells of a failure that the tool reports: the message to the user, the details to the log. -/
def tellFailure (failure : Failure) : Step Unit := do
  Step.say .error failure.text
  let details :=
    if failure.details.isEmpty then "<none>" else (Json.object failure.details).inspect
  Step.log { record .debug ("TomboError details: " ++ details) with hasTrace := true }

/-- Tells why a run has stopped, and ends it with a code. -/
def conclude : Stop → Step Nat
  | .exit code => return code
  | .usage error => do
      modify fun session => { session with complaint := "Error: " ++ error.message ++ "\n" }
      return 2
  | .fault (.index error) => do
      tellFailure (.index error)
      return 1
  | .fault (.reported failure) => do
      tellFailure failure
      return 1
  | .fault fault => do
      Step.say .error ("Unexpected error: " ++ fault.text)
      Step.log { record .error "Unhandled exception in CLI" with hasTrace := true }
      return 1
  | .unshowable fault => throw (.unshowable fault)

/-- Runs the tool. A run in which a text cannot be shown has no code. -/
def run (words : List String) (session : Session) : Option Nat × Session :=
  match (obey words).run session with
  | (.ok (), session) => (some 0, session)
  | (.error stop, session) =>
      match (conclude stop).run session with
      | (.ok code, session) => (some code, session)
      | (.error _, session) => (none, session)

end Tool

/-- What a session writes to the log and about wrong usage, with the time at which its records are made. -/
def Session.diagnostics (session : Session) (time : String) : String :=
  session.format.text time session.log ++ session.complaint

end ManifestLens
