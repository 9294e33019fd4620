import ManifestLens.CommandLine.Run
import ManifestLens.Files.Tree

/-!
# The program

Around a run: what it needs is read from the system first, and what it leaves behind is written afterwards. The
answers of the index are taken from a folder with one document a package; without such a folder the index
cannot be reached.
-/

open ManifestLens

namespace ManifestLens.Program

/-- The moment, as the system dates a new file. -/
def now : IO DateTime := do
  let (_, path) ← IO.FS.createTempFile
  let modified := (← path.metadata).modified
  IO.FS.removeFile path
  return .ofUnixTime modified.sec.toNat (modified.nsec.toNat / 1000)

/-- The tree with an entry of a folder. Only a manifest is read. -/
def addEntry (tree : FileTree) (text : String) : IO FileTree := do
  let path := (← IO.currentDir) / text
  let location := tree.resolve (.ofText text)
  if ← path.isDir then return tree.addFolder location
  else if FileTree.isManifestName (Location.name location) then
    return tree.addFile location (← IO.FS.readBinFile path).toList
  else return tree.addFile location []

/-- The tree with what a text leads to, if it leads to something: a file, or a folder with all that is in
it. -/
def addPath (tree : FileTree) (text : String) : IO FileTree := do
  let path := (← IO.currentDir) / text
  let route := Route.ofText text
  if text = "" || !(← path.pathExists) then return tree
  else
    let onTheWay := (List.range route.parts.length).foldl (fun (tree : FileTree) count =>
      tree.addFolder (tree.resolve { route with parts := route.parts.take count })) tree
    if ← path.isDir then
      let below ← path.walkDir
      below.toList.foldlM (fun tree entry => addEntry tree entry.toString)
        (onTheWay.addFolder (tree.resolve route))
    else return onTheWay.addFile (tree.resolve route) (← IO.FS.readBinFile path).toList

/-- The variables that a run looks at. -/
def environment : IO (List (String × String)) := do
  let names := Command.globalGrammar.parameters.filterMap (·.environmentName)
  names.filterMapM fun name => do
    return (← IO.getEnv name).map fun value => (name, value)

/-- The files that a run may look at: those that are named, and those that may hold a configuration. -/
def files (words : List String) (environment : List (String × String)) : IO FileTree := do
  let here := (Route.ofText (← IO.currentDir).toString).parts
  let start := ({ workingFolder := here } : FileTree).addFolder here
  let named := words ++ words.filterMap (Grammar.splitValue · |>.2) ++ environment.map (·.2)
  ([Config.ownFile, Config.projectFile] ++ named).foldlM addPath start

/-- The variable that names the folder with the answers of the index. -/
def indexFolder : String := "TOMBO_INDEX_FOLDER"

def index : IO AnswerScript := do
  match ← IO.getEnv indexFolder with
  | none => return .constant ⟨.transportFailed (indexFolder ++ " is not set"), 0⟩
  | some folder =>
      let entries ← ((← IO.currentDir) / folder).readDir
      let rows ← entries.toList.filterMapM fun entry => do
        match Text.cutAt? ".json".toList entry.fileName.toList with
        | some (name, []) =>
            let body := (← IO.FS.readBinFile entry.path).toList
            return some (String.ofList (Text.lower name), [Exchange.mk (.response { status := 200, body }) 0])
        | _ => return none
      return .byPackage rows

/-- Puts a file in the place of what is there, in one step. -/
def save (scratch : String) (location : Location) (content : List UInt8) : IO Unit := do
  let beside := Location.text (location.dropLast ++
    ["." ++ Location.name location ++ "." ++ scratch ++ ".tmp"])
  IO.FS.writeBinFile beside ⟨content.toArray⟩
  IO.FS.rename beside (Location.text location)

/-- Writes the files that are new or different after a run. -/
def saveChanges (before after : FileTree) (scratch : String) : IO Unit :=
  after.entries.forM fun entry => do
    match entry with
    | (location, .file content) =>
        if !before.entries.contains entry then save scratch location content
    | (_, .folder) => return

/-- The common beginning of two outputs. -/
def sharedOutput (a b : Session) : List Char :=
  a.screen.shown.take (Text.commonStart a.screen.shown b.screen.shown)

/-- What a run comes to. If it asks something, the answer is read when the question has been shown: up to the
question a run shows the same whatever the answer is. -/
def result (words : List String) (session : Session) : IO (Option Nat × Session) := do
  let typing (typed : String) : Session :=
    { session with screen := { session.screen with typed := typed.toList } }
  let unanswered := Tool.run words session
  let answered := Tool.run words (typing "\n")
  let output ← IO.getStdout
  let shown := sharedOutput unanswered.2 answered.2
  output.putStr (String.ofList shown)
  output.flush
  let outcome ←
    if unanswered.2.screen.shown = answered.2.screen.shown then pure unanswered
    else pure (Tool.run words (typing (← (← IO.getStdin).getLine)))
  output.putStr (String.ofList (outcome.2.screen.shown.drop shown.length))
  output.flush
  return outcome

end ManifestLens.Program

/-- The command line of the tool. -/
def main (words : List String) : IO UInt32 := do
  let now ← Program.now
  let environment ← Program.environment
  let files ← Program.files words environment
  let scratch := toString (← IO.monoNanosNow)
  let session : Session := {
    naming := ⟨now.stampText, scratch⟩
    files, environment, python := "3.11.2", script := ← Program.index, today := now }
  let (code, session) ← Program.result words session
  Program.saveChanges files session.files scratch
  (← IO.getStderr).putStr (session.diagnostics (now.dateText ++ " " ++ (now.text.drop 11).take 8))
  match code with
  | some code => return code.toUInt32
  | none =>
      (← IO.getStderr).putStr "A text cannot be shown because of the markup in it.\n"
      return 1
