import ManifestLens.Config.Basic
import ManifestLens.Files.Tree
import ManifestLens.Index.Fault
import ManifestLens.Log.Record
import ManifestLens.Toml.Reader

/-!
# Loading a configuration

A configuration is taken from the file that the user names, or else from the tool's own file in the working
folder, or else from the project file there if it has a table for the tool. Without any of them the
defaults hold.
-/

namespace ManifestLens

namespace OptionValue

def ofToml : Toml → OptionValue
  | .string s => .text s
  | .boolean b => .flag b
  | .integer n => .integer n
  | value => .other value.kindName

end OptionValue

namespace Config

/-- The tool's own file. -/
def ownFile : String := "tombo.toml"

def projectFile : String := "pyproject.toml"

def tableName : String := "tombo"

def record (level : LogLevel) (message : String) : LogRecord := .of "config" level message

def document (tree : FileTree) (location : Location) : Except Fault (List (String × Toml)) := do
  let content := match tree.entry? location with
    | some (.file content) => content
    | _ => []
  let text ← (Text.Utf8.decode content).mapError .undecodable
  match Toml.readDocument text with
  | .ok members => return members
  | .error (.tooManyDigits count) => throw (.tooManyDigits count)
  | .error .malformed =>
      throw (.reported (.config
        ("Invalid TOML in " ++ Location.name location ++ ": not a TOML document")
        (some (Location.text location)) none))

/-- The project file has a table for the tool. A file that cannot be read as TOML has none. -/
def hasTable (tree : FileTree) (location : Location) : Except Fault Bool :=
  match document tree location with
  | .error (.reported _) => .ok false
  | .error fault => .error fault
  | .ok members =>
      match Toml.member? "tool" members with
      | some (.table tools) => .ok (Toml.member? tableName tools).isSome
      | _ => .ok false

/-- The file to load, and what the log says of the search. -/
def discover (tree : FileTree) : Option Route → Except Fault (Option Location × LogRecord)
  | some route =>
      let location := tree.resolve route
      if tree.isFile location then
        .ok (some location, record .debug ("Using explicit config: " ++ Location.text location))
      else
        .error (.reported
          (.config ("Configuration file not found: " ++ route.text) (some route.text) none))
  | none => do
      let own := tree.workingFolder ++ [ownFile]
      if tree.isFile own then
        return (some own, record .debug ("Found tombo.toml: " ++ Location.text own))
      let project := tree.workingFolder ++ [projectFile]
      if tree.isFile project then
        if ← hasTable tree project then
          return (some project, record .debug
            ("Found [tool.tombo] in pyproject.toml: " ++ Location.text project))
      return (none, record .debug "No configuration file found")

/-- The value under the tool's name in the file; nothing is an empty table. -/
def toolValue (location : Location) (members : List (String × Toml)) : Except Fault Toml :=
  let ofTable (members : List (String × Toml)) : Toml :=
    (Toml.member? tableName members).getD (.table [])
  if Location.name location = projectFile then
    match Toml.member? "tool" members with
    | none => .ok (.table [])
    | some (.table tools) => .ok (ofTable tools)
    | some value => .error (.noPart ("'" ++ value.kindName ++ "' object has no attribute 'get'"))
  else .ok (ofTable members)

def listing (config : Config) : String := (Json.object config.optionMembers).inspect

def ofFile (tree : FileTree) (location : Location) : Except Fault Config := do
  let path := Location.text location
  match ← toolValue location (← document tree location) with
  | .table table =>
      let config ← (ofTable path (table.map fun (key, value) =>
        (key, OptionValue.ofToml value))).mapError .reported
      return { config with source := some path }
  | _ =>
      throw (.reported (.config "The tombo configuration must be a table" (some path) none))

/-- The configuration that holds for a user who may have named a file, and what the log says. -/
def load (tree : FileTree) (route : Option Route) : Except Fault Config × List LogRecord :=
  match discover tree route with
  | .error fault => (.error fault, [])
  | .ok (none, found) => (.ok {}, [found])
  | .ok (some location, found) =>
      let records := [found,
        record .info ("Loading configuration from " ++ Location.text location)]
      match ofFile tree location with
      | .error fault => (.error fault, records)
      | .ok config =>
          (.ok config, records ++ [record .debug ("Loaded configuration: " ++ config.listing)])

end Config

end ManifestLens
