import ManifestLens.Buffer.Basic
import ManifestLens.Log.Record
import ManifestLens.Manifest.Completion
import ManifestLens.Manifest.Document

/-!
# The dependencies on a line of a buffer

An editor asks about a line. What the reading of the whole manifest found there counts; where it found
nothing the line is read by itself, as a line of the table that encloses it.
-/

namespace ManifestLens

/-- What the log says after a whole manifest has been read. Requirements files are read in silence. -/
def ManifestReader.readingRecords (reader : ManifestReader) (text : List Char) (kind : ManifestKind) :
    List LogRecord :=
  match kind with
  | .requirements => []
  | .pyproject =>
      let lines := Text.splitLines text
      let found := reader.readAll kind lines
      [.of "parser" .debug ("Parsed " ++ toString found.length ++ " dependencies from " ++
        toString lines.length ++ " lines")]

namespace Buffer

def hasLine (buffer : Buffer) (line : Int) : Bool := 0 ≤ line && line < (buffer.lineCount : Int)

def dependenciesOn (buffer : Buffer) (line : Int) : List Dependency :=
  match buffer.lineAt? line with
  | none => []
  | some text =>
      let reader := ManifestReader.standard
      let found := (reader.readText buffer.text buffer.kind).filter (·.line == line.toNat)
      if found.isEmpty then
        reader.readLine text line.toNat buffer.kind (enclosingTable? buffer.lines line)
      else found

/-- What the log says of a search for the dependencies on a line. -/
def searchRecords (buffer : Buffer) (line : Int) : List LogRecord :=
  if buffer.hasLine line then ManifestReader.standard.readingRecords buffer.text buffer.kind else []

/-- The dependency whose name touches a position. -/
def dependencyNamedAt? (buffer : Buffer) (position : Position) : Option Dependency :=
  (buffer.dependenciesOn position.line).find? (·.nameSpan.contains position.character)

/-- The place where a version is completed with the cursor at a position. -/
def completionSite? (buffer : Buffer) (position : Position) : Option CompletionSite :=
  (buffer.lineAt? position.line).bind fun text =>
    (buffer.dependenciesOn position.line).findSome? (·.completionSite? text position.character)

end Buffer

end ManifestLens
