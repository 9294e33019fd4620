import ManifestLens.Manifest.Line
import ManifestLens.Text.Trim

/-!
# Reading a whole manifest

A manifest in TOML is read line by line. Outside arrays a line may be a table header, open an array
under a key, or be an entry of a table; inside an array every line belongs to the array until its
brackets balance. Only arrays and tables that hold dependencies yield any.
-/

namespace ManifestLens

/-- Where the reading of a TOML manifest stands between two lines. -/
structure DocumentState where
  /-- The table that the next line belongs to. -/
  table : Option (List Char)
  /-- The group that the elements of the open array belong to, if they are dependencies. -/
  group : Option Group
  /-- The number of brackets left open. Outside arrays it is not positive. -/
  depth : Int
deriving DecidableEq, Repr

namespace DocumentState

/-- Before the first line: in no table and outside arrays. -/
def start : DocumentState := ⟨none, none, 0⟩

end DocumentState

namespace ManifestReader

/-- The dependencies on a line of an array that holds dependencies. -/
def arrayEntries (reader : ManifestReader) (line : List Char) (number : Nat) (group : Group) :
    List Dependency :=
  mergeEntries
    [arrayDependencies reader.rule line number group,
      parenthesizedDependencies reader.rule line number group]

def tableEntries (reader : ManifestReader) (line : List Char) (number : Nat) (table : List Char) :
    List Dependency :=
  match PoetryTable.ofTable? table with
  | none => []
  | some ⟨group, some package⟩ =>
      (versionKeyDependency? reader.rule line package number group).toList
  | some ⟨group, none⟩ => tableDependencies reader.rule line number group

/-- Reads one line of a TOML manifest: its dependencies, and the state after it. -/
def step (reader : ManifestReader) (state : DocumentState) (number : Nat) (line : List Char) :
    List Dependency × DocumentState :=
  let code := codePart line
  if 0 < state.depth then
    ((state.group.map (reader.arrayEntries line number)).getD [],
      { state with depth := state.depth + bracketBalance none code })
  else
    match tableHeader? line with
    | some header => ([], ⟨some header, none, 0⟩)
    | none =>
        match openedArray? code with
        | some (key, value) =>
            let group := Group.ofTable? state.table (some key)
            ((group.map (reader.arrayEntries line number)).getD [],
              ⟨state.table, group, bracketBalance none value⟩)
        | none =>
            ((state.table.map (reader.tableEntries line number)).getD [],
              ⟨state.table, none, 0⟩)

/-- Reads lines from a state on, the first of them having the given number. -/
def readFrom (reader : ManifestReader) (state : DocumentState) (number : Nat) :
    List (List Char) → List Dependency
  | [] => []
  | line :: rest =>
      let (found, state') := reader.step state number line
      found ++ reader.readFrom state' (number + 1) rest

/-- The dependencies in the lines of a requirements file. -/
def readRequirements (reader : ManifestReader) (number : Nat) :
    List (List Char) → List Dependency
  | [] => []
  | line :: rest =>
      requirementsDependencies reader.rule line number .main ++
        reader.readRequirements (number + 1) rest

/-- Every dependency in the lines of a manifest. -/
def readAll (reader : ManifestReader) (kind : ManifestKind) (lines : List (List Char)) :
    List Dependency :=
  match kind with
  | .requirements => reader.readRequirements 0 lines
  | .pyproject => reader.readFrom .start 0 lines

def readText (reader : ManifestReader) (text : List Char)
    (kind : ManifestKind := .pyproject) : List Dependency :=
  reader.readAll kind (Text.splitLines text)

end ManifestReader

end ManifestLens
