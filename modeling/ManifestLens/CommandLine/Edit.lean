import ManifestLens.CommandLine.Session
import ManifestLens.Editor.Request
import ManifestLens.Report.Editor

/-!
# Editor commands

Completions, hover texts and quick actions for a place in a file, with lines and columns counted from one. An
action that is applied replaces the file, after a copy of it has been put aside if that is wanted.
-/

namespace ManifestLens

namespace EditorCommand

/-- The text of a file with its path. A file that cannot be read stops the run. -/
def bufferOf (file : Route) : Step Buffer := do
  let text ← Step.ofExcept (← Step.readFile file)
  return { text, path := some file.text.toList }

def position (buffer : Buffer) (file : Route) (line column : Nat) : Step Position := do
  if buffer.lineCount < line then
    Step.ofUsage (.error (.invalidValue "LINE"
      (file.text ++ " has only " ++ toString buffer.lineCount ++ " line(s)")))
  else return ⟨(line : Int) - 1, (column : Int) - 1⟩

/-! ### Completions -/

/-- The completions for a position that begin with what is typed there. -/
def completions (config : Config) (buffer : Buffer) (position : Position)
    (includePre : Option Bool) : Step (List Suggestion) := do
  Step.logAll (buffer.searchRecords position.line)
  match buffer.completionSite? position with
  | none => return []
  | some site =>
      let items ← Step.orFail
        (← Step.work config (Work.complete buffer position includePre))
      return items.filter fun item => site.typed.isPrefixOf item.label.toList

def completionTable (items : List Suggestion) (line column : Nat) : Table :=
  let record (item : Suggestion) : List (String × Json) :=
    [("Version", .string item.label), ("Insert", .string item.inserted),
      ("Note", .string item.detail)]
  { Table.ofRecords (items.map record) none fun header =>
      { header := header.toList, keepsLines := header = "Version" } with
    title := some ("Completions at " ++ toString line ++ ":" ++ toString column).toList }

/-- Shows the completions for a place. -/
def complete (config : Config) (file : Route) (line column : Nat) (includePre : Option Bool)
    (asJson : Bool) : Step Unit := do
  let buffer ← bufferOf file
  let items ← completions config buffer (← position buffer file line column) includePre
  if asJson then Step.echoJson (.array (items.map Suggestion.toJson))
  else if items.isEmpty then Step.say .warning "No completions at this position"
  else Step.showTable (completionTable items line column)

/-! ### Hover texts -/

/-- Shows what is known of the package at a place. -/
def hover (config : Config) (file : Route) (line column : Nat) : Step Unit := do
  let buffer ← bufferOf file
  let position ← position buffer file line column
  let python := (← get).python
  match ← Step.orFail (← Step.work config (Work.hover buffer position python)) with
  | none => Step.say .warning "No package information at this position"
  | some hover => Step.echo hover.contents

/-! ### Quick actions -/

/-- The table of some actions with their numbers. -/
def actionTable (actions : List QuickAction) : Table :=
  let record (action : QuickAction) (index : Nat) : List (String × Json) :=
    [("#", Json.ofNat (index + 1)),
      ("Action",
        .string (action.title ++ if action.isPreferred then " [dim](preferred)[/dim]" else "")),
      ("Kind", .string action.kind.label)]
  { Table.ofRecords (actions.zipIdx.map fun (action, index) => record action index) none fun header =>
      { header := header.toList, alignment := if header = "#" then .right else .natural } with
    title := some "Quick Actions".toList
    caption := some "Apply one with --apply N".toList }

/-- The files after an action, with the place of the copy that was put aside. -/
def applied (files : FileTree) (naming : FileNaming) (file : Route) (buffer : Buffer)
    (action : QuickAction) (keepsCopy : Bool) : Except Fault (Option Location × FileTree) := do
  let text ← (buffer.withEdits action.edits).mapError fun failure => .badEdit failure.message
  (files.write naming file text keepsCopy).mapError .reported

/-- Applies an action and tells of it. -/
def apply (file : Route) (buffer : Buffer) (action : QuickAction) (keepsCopy : Bool) : Step Unit := do
  let session ← get
  let (copy, files) ← Step.orFail
    (applied session.files session.naming file buffer action keepsCopy)
  set { session with files }
  Step.logAll (copy.map FileTree.backupRecord).toList
  Step.say .success action.title
  match copy with
  | none => return
  | some copy =>
      let path := Location.text copy
      Step.log (.of "commands.edit" .info ("Backup written to " ++ path))
      Step.print ("[dim]Backup: " ++ path ++ "[/dim]")

/-- Lists the actions for a line, or applies the one with a given number. -/
def fix (config : Config) (file : Route) (line : Nat) (choice : Option Nat)
    (keepsCopy isConfirmed : Bool) : Step Unit := do
  let buffer ← bufferOf file
  let position ← position buffer file line 1
  let actions ← Step.orFail (← Step.work config (Work.actions buffer position.line))
  if actions.isEmpty then Step.say .warning ("No actions available on line " ++ toString line)
  else
    match choice with
    | none => Step.showTable (actionTable actions)
    | some number =>
        match actions[number - 1]? with
        | none =>
            Step.ofUsage (.error (.invalidValue "--apply"
              ("there are only " ++ toString actions.length ++ " action(s) on line " ++
                toString line)))
        | some action =>
            let goesAhead ←
              if isConfirmed then pure true else Step.confirm (action.title ++ "?") true
            if goesAhead then apply file buffer action keepsCopy
            else Step.say .warning "No changes made"

end EditorCommand

end ManifestLens
