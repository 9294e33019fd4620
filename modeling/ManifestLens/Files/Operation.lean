import ManifestLens.Error.Basic
import ManifestLens.Files.Tree
import ManifestLens.Log.Record

/-!
# Reading and writing files

Files are read whole and up to a size. They are written through a temporary file beside them, so that a
file is either replaced or left as it is, and may be copied aside before.
-/

namespace ManifestLens

/-- The parts of names that differ from one run to the next. -/
structure FileNaming where
  /-- The time at which a copy is made. -/
  stamp : String
  /-- What makes the name of a temporary file unused. -/
  scratch : String
deriving DecidableEq, Repr

namespace FileTree

/-- The greatest size of a file that is read. -/
def maxSize : Int := 10 * 1024 * 1024

def failure (message path operation : String) : Failure :=
  .file message (some path) (some operation) none

/-- The place of the file that a path leads to. -/
def existingFile (tree : FileTree) (route : Route) : Except Failure Location :=
  match tree.locate? route with
  | none => .error (failure ("File not found: " ++ route.text) route.text "read")
  | some location =>
      if tree.isFile location then .ok (tree.resolve route)
      else .error (failure ("Not a file: " ++ route.text) route.text "read")

/-- The bytes of the file at a place; nothing if no file stands there. -/
def contentAt (tree : FileTree) (location : Location) : List UInt8 :=
  match tree.entry? location with
  | some (.file content) => content
  | _ => []

/-- The text of a file, which may be limited in size. -/
def read (tree : FileTree) (route : Route) (limit : Option Int := some maxSize) :
    Except Failure (List Char) := do
  let location ← tree.existingFile route
  let content := tree.contentAt location
  if let some limit := limit then
    if limit < (content.length : Int) then
      throw (failure ("File too large: " ++ toString content.length ++ " bytes (max " ++
        toString limit ++ ")") (Location.text location) "read")
  match Text.Utf8.decode content with
  | .ok text => return text
  | .error fault =>
      throw (.file ("Failed to read file: " ++ fault.text) (some (Location.text location))
        (some "read") (some fault.text))

/-- Copies a file aside: the place of the copy, and the tree with it. -/
def backup (tree : FileTree) (naming : FileNaming) (route : Route) :
    Except Failure (Location × FileTree) := do
  let location ← tree.existingFile route
  let copy := location.dropLast ++
    [Location.name location ++ "." ++ naming.stamp ++ ".backup"]
  return (copy, tree.put copy (.file (tree.contentAt location)))

/-- What the log says of a copy. -/
def backupRecord (copy : Location) : LogRecord :=
  .of "filesystem" .debug ("Created backup " ++ Location.text copy)

/-- Where a temporary file for a path would stand. -/
def scratchLocation (tree : FileTree) (naming : FileNaming) (route : Route) : Location :=
  tree.resolve route.parent ++ ["." ++ route.name ++ "." ++ naming.scratch ++ ".tmp"]

/-- Where a file with a path ends up when it takes the place of what is there. -/
def target (tree : FileTree) (route : Route) : Except SystemError Location :=
  match tree.follow route.parent with
  | .error error => .error error
  | .ok folder =>
      if route.parts = [] ∨ route.name = ".." then .error .busy
      else if !tree.isFolder folder then .error .notFolder
      else
        let location := folder ++ [route.name]
        if tree.isFolder location then .error .isFolder else .ok location

def replace (tree : FileTree) (naming : FileNaming) (route : Route) (text : List Char) :
    Except Failure FileTree :=
  let scratch := tree.scratchLocation naming route
  let failed (error : SystemError) (paths : List String) : Failure :=
    let cause := error.text paths
    .file ("Atomic write failed: " ++ cause) (some route.text) (some "write") (some cause)
  match tree.walk [] scratch.dropLast with
  | .error error => .error (failed error [Location.text scratch])
  | .ok folder =>
      if !tree.isFolder folder then .error (failed .notFolder [Location.text scratch])
      else
        match tree.target route with
        | .error error => .error (failed error [Location.text scratch, route.text])
        | .ok location => .ok (tree.put location (.file (Text.Utf8.encode text)))

/-- Replaces a file after copying it aside, if that is wanted and there is something to copy: the place of
the copy, and the tree after. -/
def write (tree : FileTree) (naming : FileNaming) (route : Route) (text : List Char)
    (keepsCopy : Bool := true) : Except Failure (Option Location × FileTree) :=
  if keepsCopy && (tree.locate? route).any tree.isFile then do
    let (copy, tree) ← tree.backup naming route
    return (some copy, ← tree.replace naming route text)
  else do
    return (none, ← tree.replace naming route text)

end FileTree

end ManifestLens
