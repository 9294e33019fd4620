import ManifestLens.Version.Parse

/-!
# Kinds of updates

How far it is from one version to another: the first of the three leading release numbers that
changes names the update.
-/

namespace ManifestLens

/-- The kind of a move between two versions. -/
inductive UpdateKind where
  /-- Nothing was pinned before. -/
  | new
  | same
  | downgrade
  | major
  | minor
  | patch
  /-- A step forward that leaves the three leading numbers. -/
  | update
  /-- One of the texts spells no version. -/
  | unknown
deriving DecidableEq, Repr

namespace UpdateKind

def label : UpdateKind → String
  | .new => "new"
  | .same => "same"
  | .downgrade => "downgrade"
  | .major => "major"
  | .minor => "minor"
  | .patch => "patch"
  | .update => "update"
  | .unknown => "unknown"

/-- A number of a release, zero if it is not written. -/
def component (v : Version) (i : Nat) : Nat := v.release.getD i 0

def ofStep (current target : Version) : UpdateKind :=
  if component current 0 ≠ component target 0 then .major
  else if component current 1 ≠ component target 1 then .minor
  else if component current 2 ≠ component target 2 then .patch
  else .update

/-- The kind of the move from one version to another. -/
def ofVersions (current target : Version) : UpdateKind :=
  match target.compare current with
  | .eq => .same
  | .lt => .downgrade
  | .gt => ofStep current target

/-- The kind of the move between two version texts, either of which may be missing. -/
def between (current target : Option (List Char)) : UpdateKind :=
  match current, target with
  | _, none => .unknown
  | none, some _ => .new
  | some current, some target =>
      match Version.parse? current, Version.parse? target with
      | some current, some target => ofVersions current target
      | _, _ => .unknown

end UpdateKind

end ManifestLens
