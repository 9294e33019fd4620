import ManifestLens.CommandLine.Command
import ManifestLens.Config.Load
import ManifestLens.Console.Screen
import ManifestLens.Files.Operation
import ManifestLens.Json.Writer
import ManifestLens.Service.Call

/-!
# Sessions

A session is one run of the tool: its terminal, its log, the files around it, and the index that answers. The
steps of a run change the session until the run ends or stops.
-/

namespace ManifestLens

/-- What a run works with, and what it leaves behind. -/
structure Session where
  screen : Screen := {}
  log : List LogRecord := []
  files : FileTree := {}
  naming : FileNaming
  environment : List (String × String) := []
  /-- The version of the interpreter that packages are meant for. -/
  python : String
  script : AnswerScript
  /-- The moment that dates are compared with. -/
  today : DateTime
  sent : List SentRequest := []
  waits : List Number := []
  /-- How the log is shown. -/
  format : LogFormat := ⟨.warning, false, false⟩
  /-- What the user is told about wrong usage. -/
  complaint : String := ""

/-- Why a run stops before its end. -/
inductive Stop where
  /-- Everything has been said. -/
  | exit (code : Nat)
  | usage (error : UsageError)
  | fault (fault : Fault)
  /-- A text that had to be shown is no markup. -/
  | unshowable (fault : MarkupFault)

/-- A step of a run. -/
abbrev Step (α : Type) := ExceptT Stop (StateM Session) α

namespace Step

/-- Ends the run with a code. -/
def exit {α : Type} (code : Nat) : Step α := throw (.exit code)

/-- A value, or the fault that stops the run. -/
def ofExcept {α : Type} : Except Fault α → Step α
  | .ok value => return value
  | .error fault => throw (.fault fault)

/-- A value, or the usage error that stops the run. -/
def ofUsage {α : Type} : Except UsageError α → Step α
  | .ok value => return value
  | .error error => throw (.usage error)

/-! ### Output -/

def logAll (records : List LogRecord) : Step Unit :=
  modify fun session => { session with log := session.log ++ records }

def log (record : LogRecord) : Step Unit := logAll [record]

def onScreen (f : Screen → Except MarkupFault Screen) : Step Unit := do
  match f (← get).screen with
  | .ok screen => modify fun session => { session with screen }
  | .error fault => throw (.unshowable fault)

def print (markup : String) : Step Unit := onScreen (·.print markup)

def say (kind : MessageKind) (message : String) : Step Unit := onScreen (·.say kind message)

def showTable (table : Table) : Step Unit := onScreen (·.showTable table)

def echo (text : String) : Step Unit := onScreen fun screen => .ok (screen.putLines [text.toList])

def echoJson (value : Json) : Step Unit := echo value.pretty

def confirm (question : String) (default : Bool) : Step Bool := do
  match (← get).screen.confirm question default with
  | .ok (answer, screen) =>
      modify fun session => { session with screen }
      return answer
  | .error fault => throw (.unshowable fault)

/-- Tells of a failure and ends the run. -/
def fail {α : Type} (message : String) : Step α := do
  say .error message
  exit 1

/-! ### Work -/

/-- A value. A failure that the tool reports is told and ends the run; any other fault stops it. -/
def orFail {α : Type} : Except Fault α → Step α
  | .ok value => return value
  | .error (.index error) => fail (Failure.index error).text
  | .error (.reported failure) => fail failure.text
  | .error fault => throw (.fault fault)

def readFile (route : Route) : Step (Except Fault (List Char)) := do
  return ((← get).files.read route).mapError .reported

/-- The result of some work of a service that is set up for it and closed afterwards. -/
def work {α : Type} (config : Config) (work : FallibleWork α) : Step (Except Fault α) := do
  let session ← get
  match Service.ofConfig config with
  | .error fault => return .error fault
  | .ok service =>
      let start : ServiceRun :=
        { state := { service, script := session.script, today := session.today } }
      let (run, result) := start.execute (ExceptT.mk do
        let result ← work.run
        Work.close
        return result)
      let world := run.state
      set { session with
        script := world.script
        sent := session.sent ++ world.sent
        waits := session.waits ++ world.waits
        log := session.log ++ world.log }
      return result

end Step

end ManifestLens
