import ManifestLens.Manifest.Line

/-!
# Completion sites

Where on a line a version may be completed. The cursor has to touch the constraint of a dependency;
of several constraints joined by commas only the one under the cursor is completed, and of that one
only its version.
-/

namespace ManifestLens

/-- Where a completed version goes. -/
structure CompletionSite where
  dependency : Dependency
  /-- The columns that the completed version replaces. -/
  replace : Span
  /-- What stands between the start of the version and the cursor. -/
  typed : List Char
  /-- An operator has to be inserted before the version. -/
  needsOperator : Bool
  /-- The operator to insert where one is needed. -/
  defaultOperator : Operator
deriving DecidableEq, Repr

namespace Dependency

/-- The piece that touches a column, among comma-separated pieces of which the first starts at
`start`. -/
def pieceAt? (column : Int) (start : Nat) : List (List Char) → Option Span
  | [] => none
  | piece :: rest =>
      let span : Span := ⟨start, piece.length⟩
      if span.contains column then some span else pieceAt? column (span.stop + 1) rest

/-- The site for completing the version in one of the pieces of a constraint. -/
def pieceSite (dependency : Dependency) (text : List Char) (column : Int) (piece : Span) :
    CompletionSite :=
  let covered := piece.slice text
  let operator := Operator.detect? covered
  let blanks := (covered.takeWhile Text.isBlank).length
  let versionStart := piece.start + blanks + (Operator.textOf operator).length
  let replace := (Span.between versionStart piece.stop).trimmed text
  { dependency
    replace
    typed :=
      if replace.contains column then (Span.between replace.start column.toNat).slice text else []
    needsOperator := operator.isNone && dependency.dialect != .poetryTable
    defaultOperator := .default }

/-- The site for completing the version of a dependency with the cursor at a column. -/
def completionSite? (dependency : Dependency) (text : List Char) (column : Int) :
    Option CompletionSite :=
  if !dependency.span.contains column then none
  else if dependency.span.isEmpty then
    some {
      dependency
      replace := dependency.span
      typed := []
      needsOperator := dependency.dialect != .poetryTable
      defaultOperator := .default }
  else
    (pieceAt? column dependency.span.start
      (Text.splitOn ',' (dependency.span.slice text))).map
        (dependency.pieceSite text column)

end Dependency

/-- The site for completing a version on a line with the cursor at a column. -/
def ManifestReader.completionSite? (reader : ManifestReader) (text : List Char) (column : Int)
    (line : Nat) (kind : ManifestKind := .pyproject) (table : Option (List Char) := none) :
    Option CompletionSite :=
  (reader.readLine text line kind table).findSome? (·.completionSite? text column)

end ManifestLens
