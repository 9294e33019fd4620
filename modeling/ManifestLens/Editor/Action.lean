import ManifestLens.Buffer.Basic
import ManifestLens.Index.View
import ManifestLens.Json.Basic
import ManifestLens.Manifest.Dependency

/-!
# Quick actions

What can be done about a dependency: an update to the latest release, which is preferred; updates to the
most recent stable releases; and, for an entry of an array with a single constraint, a change of operator
that keeps the version. Actions are data, and nothing here changes a text.
-/

namespace ManifestLens

/-- What an action does. -/
inductive ActionKind where
  | update
  | operatorChange
deriving DecidableEq, Repr

def ActionKind.label : ActionKind → String
  | .update => "quickfix"
  | .operatorChange => "refactor.rewrite"

/-- An offered change of a text. -/
structure QuickAction where
  title : String
  kind : ActionKind
  edits : List Edit
  isPreferred : Bool := false
deriving DecidableEq, Repr

namespace QuickAction

/-- The number of recent stable versions that are offered. -/
def maxRecent : Nat := 3

/-- The operators that a constraint may be changed to, with what they mean. -/
def operatorChoices : List (Operator × String) :=
  [(.standard .equal, "exact version (pin)"),
    (.standard .compatible, "compatible release"),
    (.standard .atLeast, "minimum version"),
    (.caret, "caret constraint (semver)")]

/-- The first of the constraints that are joined by commas, taken apart. -/
def firstConstraint (dependency : Dependency) : Option Operator × List Char :=
  operatorAndVersion (Text.trim (dependency.constraint.takeWhile (· != ',')))

/-- The operator that an update writes: that of the first constraint. A bare entry gains the default
operator, except in a Poetry table, where a version needs none. -/
def updateOperator (dependency : Dependency) : Option Operator :=
  match (firstConstraint dependency).1 with
  | some operator => some operator
  | none => if dependency.dialect = .poetryTable then none else some .default

/-- Replaces the whole constraint of a dependency. -/
def constraintEdit (dependency : Dependency) (operator : Option Operator) (version : List Char) :
    Edit :=
  ⟨dependency.line, dependency.span, Operator.textOf operator ++ version⟩

def updateEdit (dependency : Dependency) (version : String) : Edit :=
  constraintEdit dependency (updateOperator dependency) version.toList

/-- The latest release is the current one. -/
def isCurrent (current : String) : Json → Bool
  | .string latest => latest == current
  | _ => false

/-- The update to the latest release, unless that is the current one. -/
def latestUpdate? (dependency : Dependency) (current : String) (latest : Json) : Option QuickAction :=
  if !latest.isTrue || isCurrent current latest then none
  else some {
    title := "Update " ++ String.ofList dependency.name ++ " to latest version (" ++
      latest.display ++ ")"
    kind := .update
    edits := [updateEdit dependency latest.display]
    isPreferred := true }

/-- The updates to recent stable releases other than the current one. -/
def recentUpdates (dependency : Dependency) (current : String) (metadata : PackageOverview) :
    List QuickAction :=
  ((metadata.stableVersions.take maxRecent).zipIdx.filter (·.1 != current)).map
    fun (version, index) =>
      { title := "Update " ++ String.ofList dependency.name ++ " to version " ++ version ++
          (if index = 0 then " (latest)" else "")
        kind := .update
        edits := [updateEdit dependency version] }

def operatorChanges (dependency : Dependency) (current : List Char) : List QuickAction :=
  if dependency.dialect = .array ∧ current ≠ [] ∧ ',' ∉ dependency.constraint then
    (operatorChoices.filter fun choice => some choice.1 != dependency.operator?).map
      fun (operator, meaning) =>
        let edit := constraintEdit dependency (some operator) current
        { title := "Change " ++ String.ofList dependency.name ++ " to " ++
            String.ofList edit.text ++ " (" ++ meaning ++ ")"
          kind := .operatorChange
          edits := [edit] }
  else []

/-- The actions for a dependency, the preferred one first. -/
def ofMetadata (dependency : Dependency) (metadata : PackageOverview) : List QuickAction :=
  let current := (firstConstraint dependency).2
  let currentText := String.ofList current
  (latestUpdate? dependency currentText metadata.latest).toList ++
    recentUpdates dependency currentText metadata ++ operatorChanges dependency current

end QuickAction

end ManifestLens
