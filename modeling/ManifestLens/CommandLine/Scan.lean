import ManifestLens.CommandLine.Lookup
import ManifestLens.Console.Markup
import ManifestLens.Constraint.Satisfaction
import ManifestLens.Editor.Line
import ManifestLens.Files.Tree
import ManifestLens.Version.Update

/-!
# Scanning manifests

For every dependency of the scanned manifests: the latest release, how far it is from what is written, and
the release that the constraint allows now.
-/

namespace ManifestLens

/-- What a scan finds out about a package. -/
structure ScanFinding where
  latest : Json
  update : UpdateKind
  /-- The newest release that the constraint allows. -/
  resolved : Option String

/-- A dependency with what a scan finds out about it, or why that cannot be told. -/
structure ScanRow where
  file : Route
  dependency : Dependency
  finding : Except String ScanFinding

namespace Scan

/-- The version that a constraint is anchored at: that of its first part. -/
def writtenVersion? (constraint : List Char) : Option (List Char) :=
  let (_, version) := operatorAndVersion (constraint.takeWhile (· != ','))
  if version = [] ∨ version = ['*'] then none else some version

/-- How far it is from a version to what the index calls the latest one. -/
def updateTo (current : Option (List Char)) : Json → Except Fault UpdateKind
  | .null => .ok .unknown
  | .string latest => .ok (.between current (some latest.toList))
  | value =>
      match current with
      | none => .ok .new
      | some current =>
          if (Version.parse? current).isNone then .ok .unknown
          else
            .error (.wrongKind
              ("expected string or bytes-like object, got '" ++ value.kindName ++ "'"))

/-- What is found out about a dependency from the metadata of its package. -/
def findingOf (dependency : Dependency) (metadata : PackageOverview) :
    Except Fault ScanFinding := do
  let kind ← updateTo (writtenVersion? dependency.constraint) metadata.latest
  let resolved ← (Constraint.greatestSatisfying (metadata.versions.map String.toList)
    dependency.constraint).mapError .unordered
  return ⟨metadata.latest, kind, resolved.map String.ofList⟩

def rowOf (results : List (String × Except IndexError PackageOverview))
    (found : Route × Dependency) : Except Fault ScanRow := do
  let (file, dependency) := found
  match results.find? (·.1 == String.ofList dependency.name) with
  | some (_, .ok metadata) => return ⟨file, dependency, .ok (← findingOf dependency metadata)⟩
  | some (_, .error error) => return ⟨file, dependency, .error (Failure.index error).text⟩
  | none => throw (.noPart (Text.quotedString (String.ofList dependency.name)))

/-! ### Rows -/

/-- The line of a row, counted from one. -/
def lineNumber (row : ScanRow) : Nat := row.dependency.line + 1

def rowJson (row : ScanRow) : Json :=
  let outcome : List (String × Json) := match row.finding with
    | .ok finding =>
        [("latest", finding.latest), ("update_type", .string finding.update.label),
          ("resolves_to", Json.ofOption .string finding.resolved), ("error", .null)]
    | .error reason =>
        [("latest", .null), ("update_type", .null), ("resolves_to", .null),
          ("error", .string reason)]
  .object ([("file", .string row.file.text), ("line", Json.ofNat (lineNumber row)),
    ("name", Json.ofChars row.dependency.name), ("group", .string row.dependency.group.label),
    ("constraint", Json.ofChars row.dependency.constraint)] ++ outcome)

def rowRecord (row : ScanRow) : List (String × Json) :=
  let constraint := String.ofList row.dependency.constraint
  let none := "[red]none[/red]"
  let (latest, change, resolved) : Json × String × String := match row.finding with
    | .ok finding =>
        (finding.latest.orElse (.string PackageReport.dash), Color.markLabel finding.update.label,
          finding.resolved.getD none)
    | .error _ => (.string "[red]error[/red]", PackageReport.dash, none)
  [("File", .string row.file.name), ("Line", Json.ofNat (lineNumber row)),
    ("Package", Json.ofChars row.dependency.name), ("Group", .string row.dependency.group.label),
    ("Constraint", .string (if constraint = "" then "[dim]*[/dim]" else constraint)),
    ("Latest", latest), ("Update", .string change), ("Resolves To", .string resolved)]

def column (header : String) : TableColumn :=
  { header := header.toList
    alignment :=
      if header = "Line" then .right
      else if ["Latest", "Update", "Resolves To"].contains header then .center
      else .natural
    keepsLines := header = "Package" }

/-- The table of some rows, which tells the file if there are several. -/
def table (rows : List ScanRow) (showsFile : Bool) : Table :=
  let headers := ["Line", "Package", "Group", "Constraint", "Latest", "Update", "Resolves To"]
  { Table.ofRecords (rows.map rowRecord) (some (if showsFile then "File" :: headers else headers))
      column with
    title := some "Dependency Scan".toList }

/-- The constraint of a row does not track the latest release. -/
def isBehind (row : ScanRow) : Bool :=
  match row.finding with
  | .ok finding => finding.update != .same && finding.update != .unknown
  | .error _ => false

/-! ### The command -/

/-- A scan that may end in a fault. -/
abbrev Attempt (α : Type) := ExceptT Fault (ExceptT Stop (StateM Session)) α

/-- The files to scan: the path itself, or the manifests in the folder that it leads to. -/
def filesToScan (tree : FileTree) (path : Route) (isDeep : Bool) : List Route :=
  if (tree.locate? path).any tree.isFolder then
    (tree.manifests path isDeep).map fun location => ⟨true, location⟩
  else [path]

def dependenciesIn (file : Route) : Attempt (List (Route × Dependency)) := do
  let reader := ManifestReader.standard
  let text ← ExceptT.mk (Step.readFile file)
  let kind := (ManifestKind.ofFileName? file.name.toList).getD .pyproject
  let found := reader.readText text kind
  ExceptT.lift <| Step.logAll (reader.readingRecords text kind ++
    [.of "commands.scan" .info
      ("Found " ++ toString found.length ++ " dependencies in " ++ file.text)])
  return found.map fun dependency => (file, dependency)

def rows (config : Config) (files : List Route) (includePre : Option Bool) :
    Attempt (List ScanRow) := do
  let found := (← files.mapM dependenciesIn).flatten
  let names := found.map fun (_, dependency) => String.ofList dependency.name
  let results ← ExceptT.mk (Step.work config (Work.prefetch names includePre 10))
  ExceptT.mk (pure (found.mapM (rowOf results)))

/-- Shows rows, and how many of them are behind. -/
def display (rows : List ScanRow) (showsFile : Bool) : Step Unit := do
  if rows.isEmpty then Step.say .warning "No dependencies found"
  else
    Step.showTable (table rows showsFile)
    let behind := (rows.filter isBehind).length
    if behind = 0 then Step.say .success "All dependency constraints track the latest release"
    else
      Step.say .warning
        (toString behind ++ " dependency constraint(s) are behind the latest release")

/-- Tells of a fault that nobody expected, and ends the run. -/
def failUnexpectedly {α : Type} (fault : Fault) : Step α := do
  Step.say .error ("Unexpected error: " ++ fault.text)
  Step.log { LogRecord.of "commands.scan" .error "Error in scan command" with hasTrace := true }
  Step.exit 1

/-- Scans a manifest or a folder. -/
def run (config : Config) (path : Route) (includePre : Option Bool) (isDeep asJson : Bool) :
    Step Unit := do
  let files := filesToScan (← get).files path isDeep
  if files.isEmpty then Step.say .warning ("No manifest files found in " ++ path.text)
  else
    let rows ← match ← (rows config files includePre).run with
      | .ok rows => pure rows
      | .error (.index error) => Step.orFail (.error (.index error))
      | .error (.reported failure) => Step.orFail (.error (.reported failure))
      | .error fault => failUnexpectedly fault
    if asJson then Step.echoJson (.array (rows.map rowJson))
    else display rows (1 < files.length)

end Scan

end ManifestLens
