import ManifestLens.Constraint.Operator
import ManifestLens.Manifest.Span
import ManifestLens.Package.Name

/-!
# Dependencies

A dependency is one occurrence of a package in a manifest: its name, the constraint on it, and the
columns where both stand.
-/

namespace ManifestLens

/-- The syntax that a dependency is written in. -/
inductive Dialect where
  /-- A quoted requirement in an array. -/
  | array
  /-- A key of a Poetry table. -/
  | poetryTable
  /-- A quoted name with its constraint in parentheses. -/
  | poetryParentheses
  /-- A line of a requirements file. -/
  | requirementsLine
deriving DecidableEq, Repr

def Dialect.label : Dialect → String
  | .array => "pep621-array"
  | .poetryTable => "poetry-table"
  | .poetryParentheses => "poetry-parentheses"
  | .requirementsLine => "requirements-line"

/-- The group of dependencies that an entry belongs to. -/
inductive Group where
  | main
  | dev
  | extra
deriving DecidableEq, Repr

def Group.label : Group → String
  | .main => "dependencies"
  | .dev => "dev-dependencies"
  | .extra => "optional-dependencies"

/-- One located occurrence of a package in a manifest. -/
structure Dependency where
  /-- The package name as written, without extras. -/
  name : List Char
  /-- The constraint as written, empty for a bare name. -/
  constraint : List Char
  /-- The columns of the constraint; for a bare name the empty span where one would go. -/
  span : Span
  /-- The columns of the name. -/
  nameSpan : Span
  /-- The number of the line, from zero. -/
  line : Nat
  group : Group
  dialect : Dialect
  extras : List (List Char)
deriving DecidableEq, Repr

namespace Dependency

/-- The spelling under which the package is looked up. -/
def canonicalName (dependency : Dependency) : List Char := Package.normalizeName dependency.name

def operator? (dependency : Dependency) : Option Operator := Operator.detect? dependency.constraint

/-- The entry constrains its package. -/
def isConstrained (dependency : Dependency) : Bool := !(Text.trim dependency.constraint).isEmpty

end Dependency

end ManifestLens
