import ManifestLens.Text.Quoting
import ManifestLens.Text.Trim
import ManifestLens.Text.Utf8

/-!
# File trees

Files and folders by their places. Every folder on the way to an entry is an entry itself, apart from the
root, which is always there.
-/

/-!
## Paths

A path as a user writes it: the names to follow, from the root or from the working folder. Empty names and
single dots lead nowhere and are left out.
-/

namespace ManifestLens

/-- A place in the file tree: the names that lead to it from the root. -/
abbrev Location := List String

/-- A path as it is written. -/
structure Route where
  isAbsolute : Bool
  parts : List String
deriving DecidableEq, Repr

namespace Location

def text (location : Location) : String := "/" ++ "/".intercalate location

/-- The name of a place; the root has the empty name. -/
def name (location : Location) : String := location.getLast?.getD ""

end Location

namespace Route

/-- The path that a text writes. -/
def ofText (text : String) : Route :=
  let names := (Text.splitOn '/' text.toList).filter fun part => !(part.isEmpty || part == ['.'])
  ⟨text.toList.head? == some '/', names.map String.ofList⟩

def text (route : Route) : String :=
  let body := "/".intercalate route.parts
  if route.isAbsolute then "/" ++ body else if route.parts.isEmpty then "." else body

/-- The last name of a path; a path without names has the empty one. -/
def name (route : Route) : String := route.parts.getLast?.getD ""

/-- The path without its last name. -/
def parent (route : Route) : Route := { route with parts := route.parts.dropLast }

/-- The place that a path names when it is read by itself: two dots take back the name before them. -/
def resolveFrom (folder : Location) (route : Route) : Location :=
  route.parts.foldl
    (fun location part => if part = ".." then location.dropLast else location ++ [part])
    (if route.isAbsolute then [] else folder)

end Route

end ManifestLens

/-! ## Trees -/

namespace ManifestLens

/-- What stands at a place. -/
inductive FileEntry where
  | file (content : List UInt8)
  | folder
deriving DecidableEq, Repr

/-- Why the system refuses to use a path. -/
inductive SystemError where
  | notFound
  | notFolder
  | isFolder
  | busy
deriving DecidableEq, Repr

namespace SystemError

/-- The error in words, with the paths that it is about. -/
def text (error : SystemError) (paths : List String) : String :=
  let words := match error with
    | .notFound => "[Errno 2] No such file or directory"
    | .notFolder => "[Errno 20] Not a directory"
    | .isFolder => "[Errno 21] Is a directory"
    | .busy => "[Errno 16] Device or resource busy"
  words ++ ": " ++ " -> ".intercalate (paths.map Text.quotedString)

end SystemError

/-- Files and folders, and the folder that relative paths start from. -/
structure FileTree where
  entries : List (Location × FileEntry) := []
  workingFolder : Location := []
deriving DecidableEq, Repr

namespace FileTree

/-- What stands at a place. -/
def entry? (tree : FileTree) (location : Location) : Option FileEntry :=
  if location = [] then some .folder
  else (tree.entries.find? (·.1 == location)).map (·.2)

/-- A folder stands at a place. -/
def isFolder (tree : FileTree) (location : Location) : Bool := tree.entry? location == some .folder

/-- A file stands at a place. -/
def isFile (tree : FileTree) (location : Location) : Bool :=
  match tree.entry? location with
  | some (.file _) => true
  | _ => false

/-- The tree with an entry in place of what stood there. -/
def put (tree : FileTree) (location : Location) (entry : FileEntry) : FileTree :=
  if tree.entries.any (·.1 == location) then
    { tree with
      entries := tree.entries.map fun old => if old.1 = location then (location, entry) else old }
  else { tree with entries := tree.entries ++ [(location, entry)] }

/-- The tree with a folder, and with the folders that lead to it. -/
def addFolder (tree : FileTree) (location : Location) : FileTree :=
  (List.range location.length).foldl (fun tree count =>
    let folder := location.take (count + 1)
    if (tree.entry? folder).isSome then tree else tree.put folder .folder) tree

/-- The tree with a file, and with the folders that lead to it. -/
def addFile (tree : FileTree) (location : Location) (content : List UInt8) : FileTree :=
  (tree.addFolder location.dropLast).put location (.file content)

/-- The place that names lead to, one step after another, from a place. Only a folder can be left. -/
def walk (tree : FileTree) (location : Location) : List String → Except SystemError Location
  | [] => .ok location
  | part :: rest =>
      match tree.entry? location with
      | none => .error .notFound
      | some (.file _) => .error .notFolder
      | some .folder =>
          let next := if part = ".." then location.dropLast else location ++ [part]
          if (tree.entry? next).isSome then tree.walk next rest else .error .notFound

/-- The place that a path leads to. -/
def follow (tree : FileTree) (route : Route) : Except SystemError Location :=
  tree.walk (if route.isAbsolute then [] else tree.workingFolder) route.parts

/-- The place that a path leads to, if something stands there. -/
def locate? (tree : FileTree) (route : Route) : Option Location :=
  match tree.follow route with
  | .ok location => some location
  | .error _ => none

/-- The place that a path names. -/
def resolve (tree : FileTree) (route : Route) : Location := route.resolveFrom tree.workingFolder

end FileTree

end ManifestLens

/-!
## Manifests in a folder

The files of a folder that are manifests by their names, which are compared with regard to case.
-/

namespace ManifestLens

namespace FileTree

/-- Whether a name is what a pattern says, in which a star stands for any text. -/
def matchesPattern : List Char → List Char → Bool
  | [], name => name.isEmpty
  | '*' :: pattern, name =>
      (List.range (name.length + 1)).any fun count => matchesPattern pattern (name.drop count)
  | c :: pattern, d :: name => c == d && matchesPattern pattern name
  | _ :: _, [] => false

/-- The names of manifests. -/
def manifestPatterns : List String := ["pyproject.toml", "*requirements*.txt"]

/-- A name by which a scan of a folder recognises a manifest. -/
def isManifestName (name : String) : Bool :=
  manifestPatterns.any fun pattern => matchesPattern pattern.toList name.toList

/-- A place lies in a folder, or anywhere below it. -/
def liesIn (folder : Location) (isDeep : Bool) (location : Location) : Bool :=
  folder.isPrefixOf location &&
    (if isDeep then folder.length < location.length else location.length == folder.length + 1)

/-- The order of places: name by name. -/
def precedes (a b : Location) : Bool :=
  let key (location : Location) : List (List Nat) := location.map fun part => part.toList.map Char.toNat
  (compare (key a) (key b)).isLE

/-- The files in a folder, or also in those below it, whose names are what a pattern says. -/
def filesLike (tree : FileTree) (folder : Location) (isDeep : Bool) (pattern : String) : List Location :=
  (tree.entries.map (·.1)).filter fun location =>
    tree.isFile location && liesIn folder isDeep location &&
      matchesPattern pattern.toList (Location.name location).toList

/-- The manifests in a folder, or also in those below it, sorted by their places. -/
def manifests (tree : FileTree) (route : Route) (isDeep : Bool) : List Location :=
  let folder := tree.resolve route
  if !tree.isFolder folder then []
  else (manifestPatterns.flatMap (tree.filesLike folder isDeep)).eraseDups.mergeSort precedes

end FileTree

end ManifestLens
