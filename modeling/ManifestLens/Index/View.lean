import ManifestLens.Constraint.Specifier
import ManifestLens.Index.Fault
import ManifestLens.Json.Basic

/-!
# Views of a package

The three views that are derived from the document of a package: the versions on offer, the releases with
their dates, and the descriptive fields. An index may put values of any kind into the fields of a document;
a view passes them on as they are and puts null for every value that counts as false.
-/

namespace ManifestLens

/-- The filtered and sorted versions of a package and what belongs to them. -/
structure PackageOverview where
  name : Json
  /-- The versions on offer, newest first. -/
  versions : List String
  /-- The version that the index calls the latest, on offer or not. -/
  latest : Json
  summary : Json
  classifiers : List Json
  /-- The interpreter versions that the latest release asks for. -/
  requiresPython : Json
  /-- The versions with a withdrawn file. -/
  yanked : List String
  /-- Every pre-release, on offer or not. -/
  preReleases : List String
deriving Repr

namespace PackageOverview

/-- A version has a withdrawn file. -/
def isYanked (metadata : PackageOverview) (version : String) : Bool :=
  metadata.yanked.contains version

def isPreRelease (metadata : PackageOverview) (version : String) : Bool :=
  metadata.preReleases.contains version

/-- The versions on offer that are neither pre-releases nor withdrawn. -/
def stableVersions (metadata : PackageOverview) : List String :=
  metadata.versions.filter fun v => !metadata.isPreRelease v && !metadata.isYanked v

/-- An interpreter version fits what a requirement text asks for. A text that states no requirement
asks for nothing. -/
def admitsPython (requirement python : List Char) : Bool :=
  match Specifier.parseList? requirement with
  | none => true
  | some specifiers => specifiers.all (·.contains python)

/-- An interpreter version fits what the package asks for. -/
def runsOn (metadata : PackageOverview) (python : List Char) : Except Fault Bool :=
  match metadata.requiresPython with
  | .string s => .ok (s = "" || admitsPython s.toList python)
  | value =>
      if !value.isTrue then .ok true
      else
        match value.elements? with
        | none => .error (.wrongKind value.notCollection)
        | some _ => .error (.noPart "'str' object has no attribute 'filter'")

end PackageOverview

/-- One release of a package. -/
structure Release where
  version : String
  isPreRelease : Bool
  /-- A file of the release is withdrawn. -/
  isYanked : Bool
  yankedReason : Json
  /-- When the first file was uploaded. -/
  released : Option DateTime
  requiresPython : Json
deriving Repr

/-- The descriptive fields of a package. -/
structure PackageProfile where
  name : Json
  version : Json
  summary : Json
  packageUrl : Json
  homePage : Json
  docsUrl : Json
  author : Json
  maintainer : Json
  license : Json
  requiresPython : Json
  classifiers : List Json
  projectUrls : List (String × String)
deriving Repr

end ManifestLens
