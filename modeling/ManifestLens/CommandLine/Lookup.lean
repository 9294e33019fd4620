import ManifestLens.CommandLine.Session
import ManifestLens.Report.Service

/-!
# Looking up packages

The releases of a package as a table, and its description as lines; both also as JSON.
-/

namespace ManifestLens

namespace Work

/-- The releases of a package and its latest version, which share one fetch. -/
def releasesAndLatest (package : String) (includePre : Option Bool) :
    FallibleWork (List Release × Json) := do
  let tasks ← [ServiceCall.releases package includePre, .latest package].mapM fun call =>
    ExceptT.lift (Process.start (.call call))
  match ← ExceptT.lift (Process.awaitAll tasks true) with
  | .all [.finished (.ok (.releases releases)), .finished (.ok (.value latest))] =>
      return (releases, latest)
  | .failed (.finished (.error fault)) => throw fault
  | _ => throw .cancelled

end Work

namespace PackageReport

/-- What stands in a table for something that is not known. -/
def dash : String := "[dim]-[/dim]"

/-- The status of a release beside the latest version. -/
def status (release : Release) (latest : Json) : String :=
  if release.isYanked then "[yanked]yanked[/yanked]"
  else if release.isPreRelease then "[prerelease]pre-release[/prerelease]"
  else if latest.asString? == some release.version then "[success]latest[/success]"
  else dash

def releaseRow (latest : Json) (release : Release) : List (String × Json) :=
  [("Version", .string release.version),
    ("Released", .string ((release.released.map DateTime.dayText).getD dash)),
    ("Status", .string (status release latest)),
    ("Python", release.requiresPython.orElse (.string dash))]

def releaseTable (package : String) (releases : List Release) (latest : Json) : Table :=
  { Table.ofRecords (releases.map (releaseRow latest))
      (some ["Version", "Released", "Status", "Python"]) fun header =>
        { header := header.toList
          alignment := if header = "Released" then .center else .natural
          keepsLines := header = "Version" } with
    title := some (package ++ " versions").toList }

/-- Shows the releases of a package, at most so many of them. -/
def versions (config : Config) (package : String) (includePre : Option Bool) (limit : Nat)
    (asJson : Bool) : Step Unit := do
  let (releases, latest) ←
    Step.orFail (← Step.work config (Work.releasesAndLatest package includePre))
  let releases := releases.take limit
  if asJson then Step.echoJson (.array (releases.map Release.toJson))
  else Step.showTable (releaseTable package releases latest)

/-- The labelled fields of a description. -/
def labelled (info : PackageProfile) : List (String × Json) :=
  [("Requires Python", info.requiresPython), ("License", info.license), ("Author", info.author),
    ("Maintainer", info.maintainer), ("Homepage", info.homePage),
    ("Documentation", info.docsUrl)].filter (·.2.isTrue)

def labelledLine (label text : String) : String := "[bold]" ++ label ++ ":[/bold] " ++ text

/-- A value as markup that shows it: a text is taken for markup already. -/
def markupOf : Json → String
  | .string s => s
  | value => String.ofList (Markup.escape value.display.toList)

def infoLines (info : PackageProfile) : List String :=
  ["[bold cyan]" ++ info.name.display ++ "[/bold cyan] " ++
      (info.version.orElse (.string "")).display] ++
    (if info.summary.isTrue then [markupOf info.summary] else []) ++
    (labelled info).map (fun (label, value) => labelledLine label value.display) ++
    info.projectUrls.map fun (label, url) => labelledLine label url

def description (config : Config) (package : String) (asJson : Bool) : Step Unit := do
  let info ← Step.orFail (← Step.work config (Work.info package))
  if asJson then Step.echoJson info.toJson
  else (infoLines info).forM Step.print

end PackageReport

end ManifestLens
