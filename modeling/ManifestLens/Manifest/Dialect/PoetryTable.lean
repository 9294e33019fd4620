import ManifestLens.Manifest.Quoted
import ManifestLens.Manifest.Requirement

/-!
# Entries of a Poetry table

A Poetry table states one dependency a line, as `name = "constraint"` or as
`name = { version = "constraint", extras = [...] }`. In the table of a single package the line
`version = "constraint"` states it.
-/

namespace ManifestLens

/-- Keys of manifest tables that name no package. -/
def reservedKeys : List (List Char) :=
  ["python", "name", "version", "description", "readme", "license", "authors", "maintainers",
    "keywords", "classifiers", "homepage", "repository", "documentation", "requires-python",
    "dependencies", "optional-dependencies", "urls", "scripts", "packages", "include", "exclude",
    "optional", "extras", "markers", "source", "allow-prereleases", "git", "branch", "tag", "rev",
    "path", "url", "develop", "platform"].map String.toList

/-- The key of a `key = value` line and the value after it. -/
structure TableKey where
  name : List Char
  /-- The columns of the key, without quotes. -/
  span : Span
  isBare : Bool
  /-- The column where the value starts. -/
  valueColumn : Nat
  value : List Char
deriving DecidableEq, Repr

namespace TableKey

/-- The equals sign at the start of a text with the blanks around it: its length and what
follows. -/
def afterEquals? (text : List Char) : Option (Nat × List Char) :=
  let before := (text.takeWhile Text.isBlank).length
  match text.drop before with
  | '=' :: rest =>
      let after := (rest.takeWhile Text.isBlank).length
      some (before + 1 + after, rest.drop after)
  | _ => none

/-- The key at the start of a line, quoted or bare. -/
def read? (code : List Char) : Option TableKey :=
  let indent := (code.takeWhile Text.isBlank).length
  match code.drop indent with
  | [] => none
  | first :: rest =>
      if isQuote first then
        let name := rest.takeWhile (· != first)
        if name.isEmpty then none
        else
          match rest.drop name.length with
          | [] => none
          | _ :: tail =>
              (afterEquals? tail).map fun (length, value) =>
                ⟨name, ⟨indent + 1, name.length⟩, false, indent + name.length + 2 + length, value⟩
      else if Text.isAsciiAlnum first then
        let name := (first :: rest).takeWhile Package.isNameChar
        (afterEquals? ((first :: rest).drop name.length)).map fun (length, value) =>
          ⟨name, ⟨indent, name.length⟩, true, indent + name.length + length, value⟩
      else none

end TableKey

/-! ### Fields of an inline table -/

/-- What `read` makes of the value of the first field with the given key whose value it accepts.
The key counts where no word character stands before it. `read` gets the column of the value. -/
def findField {α : Type} (key : List Char) (read : Nat → List Char → Option α) (previous : Char)
    (column : Nat) : List Char → Option α
  | [] => none
  | c :: rest =>
      let here : Option α :=
        if !Text.isWordChar previous && key.isPrefixOf (c :: rest) then
          (TableKey.afterEquals? ((c :: rest).drop key.length)).bind fun (length, value) =>
            read (column + key.length + length) value
        else none
      here <|> findField key read c (column + 1) rest

/-- The columns of the version string of an inline table that starts at `column`. A version string
ends at its quote or with the line. -/
def statedVersion? (table : List Char) (column : Nat) : Option Span :=
  findField "version".toList
    (fun valueColumn value =>
      match value with
      | quote :: body =>
          if isQuote quote then
            some ⟨valueColumn + 1, (body.takeWhile fun c => c != quote && c != '\n').length⟩
          else none
      | [] => none)
    ' ' column table

/-- The extras listed in an inline table. -/
def statedExtras (table : List Char) : List (List Char) :=
  (findField "extras".toList
    (fun _ value =>
      match value with
      | '[' :: body => some (extrasOf (body.takeWhile (· != ']')))
      | _ => none)
    ' ' 0 table).getD []

/-! ### Entries -/

/-- The requirement whose constraint is what a span of the line covers. -/
def tableRequirement? (code name : List Char) (nameSpan : Span) (extras : List (List Char))
    (span : Span) : Option Requirement :=
  let trimmed := span.trimmed code
  let constraint := trimmed.slice code
  if isPoetryConstraint constraint then some ⟨name, nameSpan, extras, constraint, trimmed⟩ else none

/-- The columns of the string that a value is, without its quotes. -/
def stringValue? (valueColumn : Nat) (value : List Char) : Option Span :=
  match value with
  | quote :: body =>
      if isQuote quote then some ⟨valueColumn + 1, (body.takeWhile (· != quote)).length⟩ else none
  | [] => none

/-- The requirement that a line of a Poetry table states. -/
def entryOfTable? (code : List Char) : Option Requirement := do
  let key ← TableKey.read? code
  if reservedKeys.contains (Text.asciiLower key.name) then none
  else
    match stringValue? key.valueColumn key.value with
    | some span => tableRequirement? code key.name key.span [] span
    | none =>
        if key.value.head? = some '\x7b' then
          let span ← statedVersion? key.value key.valueColumn
          tableRequirement? code key.name key.span (statedExtras key.value) span
        else none

/-- The dependency that a line of a Poetry table states. -/
def tableDependencies (rule : NameRule) (text : List Char) (line : Nat) (group : Group) :
    List Dependency :=
  ((entryOfTable? (codePart text)).bind
    (Requirement.toDependency? rule .poetryTable line group)).toList

/-- The dependency that the line `version = "constraint"` states in the table of a package. Its
name span covers the key. -/
def versionKeyDependency? (rule : NameRule) (text package : List Char) (line : Nat)
    (group : Group) : Option Dependency := do
  let code := codePart text
  let key ← TableKey.read? code
  if key.isBare && key.name = "version".toList then
    let span ← stringValue? key.valueColumn key.value
    let requirement ← tableRequirement? code package key.span [] span
    requirement.toDependency? rule .poetryTable line group
  else none

end ManifestLens
