import ManifestLens.Index.View
import ManifestLens.Json.Basic

/-!
# Package cards

A markdown card that describes a package: summary, latest version, recent releases, links, people, license and
the classifiers worth showing.
-/

namespace ManifestLens

namespace Card

/-- The number of releases that a card lists. -/
def maxReleases : Nat := 5

/-- The longest license text that is shown. -/
def maxLicenseLength : Nat := 80

/-- Classifiers with one of these beginnings are worth showing. -/
def importantBeginnings : List String :=
  ["Development Status", "License", "Programming Language :: Python ::"]

def releaseLine (release : Release) : String :=
  "- " ++ "`" ++ release.version ++ "`" ++
    (match release.released with
      | some date => " (" ++ date.dayText ++ ")"
      | none => "") ++
    (if release.isPreRelease then " *(pre-release)*" else "") ++
    (if release.isYanked then
      " ~~yanked~~" ++
        (if release.yankedReason.isTrue then ": " ++ release.yankedReason.display else "")
    else "")

/-- A link under a label. -/
abbrev Link := String × Json

/-- Some link leads to a target already. -/
def leadsTo (links : List Link) (target : Json) : Bool := links.any fun link => link.2.agrees target

/-- The links with one more, unless its label is taken. -/
def addLink (links : List Link) (label : String) (target : Json) : List Link :=
  if links.any (·.1 == label) then links else links ++ [(label, target)]

/-- The page of a package on the public index. -/
def projectPage (name : Json) : String := "https://pypi.org/project/" ++ name.display ++ "/"

/-- The links of a card. Each target is shown once, under its first label. -/
def links (info : PackageProfile) : List Link :=
  let start : List Link := [("PyPI", info.packageUrl.orElse (.string (projectPage info.name)))]
  let withHome :=
    if info.homePage.isTrue then start ++ [("Homepage", info.homePage)] else start
  let withProject := info.projectUrls.foldl (fun links (label, url) =>
    if leadsTo links (.string url) then links else addLink links label (.string url)) withHome
  if info.docsUrl.isTrue && !leadsTo withProject info.docsUrl then
    addLink withProject "Documentation" info.docsUrl
  else withProject

def facts (metadata : PackageOverview) (python : String) : Except Fault (List String) := do
  let latest :=
    if metadata.latest.isTrue then
      ["**Latest Version:** " ++ "`" ++ metadata.latest.display ++ "`"]
    else []
  if metadata.requiresPython.isTrue then
    let compatible ← metadata.runsOn python.toList
    let requirement :=
      "**Python Requirements:** " ++ "`" ++ metadata.requiresPython.display ++ "`" ++
        (if compatible then "" else " (not compatible with Python " ++ python ++ ")")
    return latest ++ [requirement]
  else return latest

def people (info : PackageProfile) : List String :=
  (if info.author.isTrue then ["- Author: " ++ info.author.display] else []) ++
    (if info.maintainer.isTrue && !info.maintainer.agrees info.author then
      ["- Maintainer: " ++ info.maintainer.display]
    else [])

/-- The number of parts of a value. -/
def lengthOf (value : Json) : Except Fault Nat :=
  match value.elements? with
  | some elements => .ok elements.length
  | none => .error (.wrongKind ("object of type '" ++ value.kindName ++ "' has no len()"))

/-- A license that is short enough to be shown. -/
def licenseText? (info : PackageProfile) : Except Fault (Option String) := do
  if !info.license.isTrue then return none
  if (← lengthOf info.license) ≤ maxLicenseLength then
    return some ("**License:** " ++ info.license.display)
  else return none

/-- The classifiers worth showing. -/
def important (metadata : PackageOverview) : Except Fault (List String) := do
  let texts ← metadata.classifiers.mapM fun classifier =>
    match classifier with
    | .string s => Except.ok s
    | value =>
        .error (Fault.noPart ("'" ++ value.kindName ++ "' object has no attribute 'startswith'"))
  return texts.filter fun text =>
    importantBeginnings.any fun beginning => beginning.toList.isPrefixOf text.toList

/-- A titled list; nothing if it has no lines. -/
def listed (title : String) (lines : List String) : List String :=
  if lines.isEmpty then [] else ["**" ++ title ++ ":**\n" ++ "\n".intercalate lines]

/-- The card of a package, for an interpreter version. -/
def render (metadata : PackageOverview) (releases : List Release) (info : PackageProfile)
    (python : String) : Except Fault String := do
  let facts ← facts metadata python
  let factsPart := if facts.isEmpty then [] else ["  \n".intercalate facts]
  let linkLines := (links info).map fun (label, target) =>
    "- [" ++ label ++ "](" ++ target.display ++ ")"
  let license ← licenseText? info
  let classifiers ← important metadata
  let summary ←
    match metadata.summary with
    | .string s => pure (if s = "" then [] else [s])
    | value =>
        if value.isTrue then
          throw (.wrongKind ("sequence item 1: expected str instance, " ++ value.kindName ++ " found"))
        else pure []
  return "\n\n".intercalate
    (["# " ++ metadata.name.display] ++ summary ++ factsPart ++
      listed "Recent Versions" ((releases.take maxReleases).map releaseLine) ++
      listed "Links" linkLines ++ listed "Maintainers" (people info) ++ license.toList ++
      listed "Categories" (classifiers.map ("- " ++ ·)) ++ ["---"])

end Card

end ManifestLens
