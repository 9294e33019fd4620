import ManifestLens.Index.View
import ManifestLens.Json.Basic
import ManifestLens.Time.Iso

/-!
# Package documents

Reading the views of a package off the document that an index serves. A document without descriptive fields
or releases, or with values from which a view cannot be made, is malformed.
-/

namespace ManifestLens

namespace PackageDocument

/-- An object's members. -/
abbrev Members := List (String × Json)

/-- What keeps a view from being made of some value, in words. -/
inductive Unusable where
  | notCollection (value : Json)
  | noMembers (value : Json)

/-- What does not go, in words. -/
def Unusable.detail : Unusable → String
  | .notCollection value => value.notCollection
  | .noMembers value => value.noMembers

def malformed (package message : String) : Fault :=
  .index { fault := .invalidResponse, message, package := some package }

/-- The descriptive fields and the releases of a document. -/
def parts (package : String) (document : Members) : Except Fault (Members × Members) :=
  match Json.memberOrNull document "info", (Json.member? "releases" document).getD (.object []) with
  | .object info, .object releases => .ok (info, releases)
  | _, _ =>
      .error (malformed package "Malformed package document: missing 'info' or 'releases'")

/-- The elements of a collection; a value that counts as false has none. -/
def elementsOf (value : Json) : Except Unusable (List Json) :=
  if value.isTrue then
    match value.elements? with
    | some elements => .ok elements
    | none => .error (.notCollection value)
  else .ok []

def membersOf (value : Json) : Except Unusable Members :=
  match value with
  | .object members => .ok members
  | _ => .error (.noMembers value)

/-- One of the files is withdrawn. Files after the first withdrawn one are not looked at. -/
def hasYankedFile : List Json → Except Unusable Bool
  | [] => .ok false
  | file :: rest => do
      if (Json.memberOrNull (← membersOf file) "yanked").isTrue then return true
      else hasYankedFile rest

def isPreRelease (version : String) : Bool := NaturalVersion.isPreRelease version.toList

/-! ### Versions on offer -/

/-- The versions that have a withdrawn file. -/
def yankedVersions : Members → Except Unusable (List String)
  | [] => .ok []
  | (version, files) :: rest => do
      let yanked ← hasYankedFile (← elementsOf files)
      let more ← yankedVersions rest
      return if yanked then version :: more else more

/-- The texts sorted from new to old. -/
def newestFirst (versions : List String) : Except NaturalVersion.Failure (List String) := do
  return (← NaturalVersion.sort (versions.map String.toList)).map String.ofList

/-- The metadata view of a document, with the pre-releases on offer if `includePre`. -/
def metadata (package : String) (document : Members) (includePre : Bool) :
    Except Fault PackageOverview := do
  let (info, releases) ← parts package document
  let field := Json.memberOrNull info
  let usable {α : Type} (result : Except Unusable α) : Except Fault α :=
    result.mapError fun (e : Unusable) => malformed package ("Malformed package document: " ++ e.detail)
  let all := releases.map Prod.fst
  let preReleases := all.filter isPreRelease
  let yanked ← usable (yankedVersions releases)
  let offered := all.filter fun v => includePre || !preReleases.contains v
  let versions ← (newestFirst offered).mapError .unordered
  let classifiers ← usable (elementsOf (field "classifiers"))
  return {
    name := (field "name").orElse (.string package)
    versions
    latest := (field "version").orElse .null
    summary := (field "summary").orElse (.string "")
    classifiers
    requiresPython := (field "requires_python").orElse .null
    yanked, preReleases }

/-! ### Releases -/

/-- The moment that an upload is dated to. A value that states none is passed over. -/
def uploadTime? (value : Json) : Option DateTime :=
  match value with
  | .string s =>
      IsoTime.parse? (Text.replaceChar 'Z' "+00:00".toList s.toList)
  | _ => none

/-- The earliest moment. -/
def earliest : List DateTime → Option DateTime
  | [] => none
  | first :: rest =>
      some (rest.foldl (fun best d => if d.instant < best.instant then d else best) first)

/-- A release with the given files. -/
def release (version : String) (files : Json) : Except Unusable Release := do
  let files ← (← elementsOf files).mapM membersOf
  let field (key : String) (file : Members) : Json := Json.memberOrNull file key
  let dates := files.filterMap fun file =>
    uploadTime? ((field "upload_time_iso_8601" file).orElse (field "upload_time" file))
  let yankedFile := files.find? fun file => (field "yanked" file).isTrue
  return {
    version
    isPreRelease := isPreRelease version
    isYanked := yankedFile.isSome
    yankedReason := (yankedFile.map fun file => (field "yanked_reason" file).orElse .null).getD .null
    released := earliest dates
    requiresPython :=
      ((files.map (field "requires_python")).find? Json.isTrue).getD .null }

/-- The key by which releases are dated: those without a date come before all others. -/
def dateKey (release : Release) : Option Int := release.released.map DateTime.instant

/-- A date is at least as late as another one. -/
def isAsLate (a b : Option Int) : Bool :=
  match a, b with
  | _, none => true
  | none, some _ => false
  | some a, some b => b ≤ a

/-- Releases from the latest date to the earliest, those without a date last; releases of one date go from
the newest version to the oldest. -/
def latestFirst (releases : List Release) : Except NaturalVersion.Failure (List Release) := do
  let byVersion ← sortDescending (fun (a b : Release) => do
    return (← NaturalVersion.compare a.version.toList b.version.toList) == .lt) releases
  return byVersion.mergeSort fun a b => isAsLate (dateKey a) (dateKey b)

/-- The releases of a document, with the pre-releases if `includePre`. -/
def releases (package : String) (document : Members) (includePre : Bool) :
    Except Fault (List Release) := do
  let (_, all) ← parts package document
  let offered := all.filter fun (version, _) => includePre || !isPreRelease version
  let found ← (offered.mapM fun (version, files) => release version files).mapError fun (e : Unusable) =>
    malformed package ("Malformed release list: " ++ e.detail)
  (latestFirst found).mapError .unordered

/-! ### Descriptive fields -/

/-- The descriptive view of a document. -/
def info (package : String) (document : Members) : Except Fault PackageProfile := do
  let (info, _) ← parts package document
  let field := Json.memberOrNull info
  let given (key : String) : Json := (field key).orElse .null
  let classifiers ← (elementsOf (field "classifiers")).mapError fun (e : Unusable) => .wrongKind e.detail
  return {
    name := (field "name").orElse (.string package)
    version := given "version"
    summary := (field "summary").orElse (.string "")
    packageUrl := (field "package_url").orElse (given "project_url")
    homePage := given "home_page"
    docsUrl := given "docs_url"
    author := given "author"
    maintainer := given "maintainer"
    license := given "license"
    requiresPython := given "requires_python"
    classifiers
    projectUrls := match field "project_urls" with
      | .object urls => urls.map fun (label, url) => (label, url.display)
      | _ => [] }

end PackageDocument

end ManifestLens
