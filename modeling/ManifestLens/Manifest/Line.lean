import ManifestLens.Manifest.Dialect.ArrayString
import ManifestLens.Manifest.Dialect.PoetryTable
import ManifestLens.Manifest.Dialect.RequirementsLine
import ManifestLens.Manifest.Kind
import ManifestLens.Manifest.Table

/-!
# Reading one line

A line is read in every dialect that its manifest and table admit. An entry that an earlier dialect
found keeps its columns: a later dialect adds only entries whose names do not overlap it.
-/

namespace ManifestLens

/-- The dependencies that a dialect finds in a line. -/
def Dialect.parse (dialect : Dialect) (rule : NameRule) (text : List Char) (line : Nat)
    (group : Group) : List Dependency :=
  match dialect with
  | .array => arrayDependencies rule text line group
  | .poetryTable => tableDependencies rule text line group
  | .poetryParentheses => parenthesizedDependencies rule text line group
  | .requirementsLine => requirementsDependencies rule text line group

/-- The dialects that may occur in a table of a manifest, the preferred ones first. Without a table
all dialects of the kind may. -/
def admittedDialects (kind : ManifestKind) (table : Option (List Char)) : List Dialect :=
  match kind, table with
  | .requirements, _ => [.requirementsLine]
  | .pyproject, none => [.array, .poetryTable, .poetryParentheses]
  | .pyproject, some table =>
      if (PoetryTable.ofTable? table).isSome then [.poetryTable]
      else [.array, .poetryParentheses]

/-- Adds to the entries found so far those whose names overlap none of them. -/
def addDisjoint (found batch : List Dependency) : List Dependency :=
  batch.foldl
    (fun found dependency =>
      if found.any fun other => dependency.nameSpan.overlaps other.nameSpan then found
      else found ++ [dependency])
    found

/-- The entries of all batches in the order of their names on the line. Of overlapping entries the
one found first stays. -/
def mergeEntries (batches : List (List Dependency)) : List Dependency :=
  (batches.foldl addDisjoint []).mergeSort fun a b => a.nameSpan.start ≤ b.nameSpan.start

/-- How a manifest is read. -/
structure ManifestReader where
  rule : NameRule

namespace ManifestReader

/-- The reader used unless names are filtered differently. -/
def standard : ManifestReader := ⟨.standard⟩

/-- The dependencies on a line of the given table. A group that is not given follows from the
table. -/
def readLine (reader : ManifestReader) (text : List Char) (line : Nat)
    (kind : ManifestKind := .pyproject) (table : Option (List Char) := none)
    (group : Option Group := none) : List Dependency :=
  let named : Option (Group × List Char) := do
    let poetry ← table.bind PoetryTable.ofTable?
    if kind = .pyproject then poetry.package.map (poetry.group, ·) else none
  match named with
  | some (group, package) =>
      (versionKeyDependency? reader.rule text package line group).toList
  | none =>
      let group := (group <|> Group.ofTable? table none).getD .main
      mergeEntries ((admittedDialects kind table).map fun dialect =>
        dialect.parse reader.rule text line group)

/-- The first dependency on a line whose name touches a column. -/
def dependencyNamedAt? (reader : ManifestReader) (text : List Char) (column : Int) (line : Nat)
    (kind : ManifestKind := .pyproject) (table : Option (List Char) := none) :
    Option Dependency :=
  (reader.readLine text line kind table).find? (·.nameSpan.contains column)

end ManifestReader

end ManifestLens
