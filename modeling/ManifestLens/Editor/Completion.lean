import ManifestLens.Buffer.Basic
import ManifestLens.Index.View
import ManifestLens.Json.Basic
import ManifestLens.Manifest.Completion

/-!
# Version completions

The versions that are offered for a place in a constraint: the latest one first and selected, then the
others from the newest on. Their sort keys put pre-releases behind stable versions and withdrawn versions
behind both.
-/

namespace ManifestLens

/-- A version that is offered for completion. -/
structure Suggestion where
  label : String
  /-- What is inserted, with an operator where the place needs one. -/
  inserted : String
  edit : Edit
  sortText : String
  detail : String
  /-- The version has been withdrawn. -/
  isDeprecated : Bool
  /-- The item is selected when the list opens. -/
  isPreselected : Bool
deriving DecidableEq, Repr

namespace Suggestion

/-- The number of versions that are offered beside the latest one. -/
def maxOthers : Nat := 25

/-- How a version ranks among those that are offered. -/
inductive Rank where
  | latest
  | stable
  | preRelease
  | withdrawn
deriving DecidableEq, Repr

/-- What is shown beside a version of a rank. -/
def Rank.detail : Rank → String
  | .latest => "latest"
  | .stable => ""
  | .preRelease => "pre-release"
  | .withdrawn => "yanked"

def fourDigits (n : Nat) : String :=
  let digits := toString n
  String.ofList (List.replicate (4 - digits.length) '0') ++ digits

/-- The sort key of the version at an index in its list. -/
def Rank.sortText (rank : Rank) (index : Nat) : String :=
  match rank with
  | .latest => "0000"
  | .stable => "1" ++ fourDigits index
  | .preRelease => "2" ++ fourDigits index
  | .withdrawn => "9" ++ fourDigits index

/-- The rank of a version that is not the latest one. A withdrawn pre-release counts as withdrawn. -/
def rankOf (metadata : PackageOverview) (version : String) : Rank :=
  if metadata.isYanked version then .withdrawn
  else if metadata.isPreRelease version then .preRelease
  else .stable

/-- The operator that goes before a completed version. -/
def operatorText (site : CompletionSite) : String :=
  if site.needsOperator then String.ofList site.defaultOperator.text else ""

def ofVersion (metadata : PackageOverview) (site : CompletionSite) (line : Int)
    (version : String) (rank : Rank) (index : Nat) : Suggestion :=
  let inserted := operatorText site ++ version
  { label := version
    inserted
    edit := ⟨line, site.replace, inserted.toList⟩
    sortText := rank.sortText index
    detail := rank.detail
    isDeprecated := metadata.isYanked version
    isPreselected := rank = .latest }

/-- The latest version as text, if there is one. -/
def latestVersion? (metadata : PackageOverview) : Except Fault (Option String) :=
  match metadata.latest with
  | .string version => .ok (if version = "" then none else some version)
  | value =>
      if value.isTrue then
        .error (.wrongKind
          ("can only concatenate str (not \"" ++ value.kindName ++ "\") to str"))
      else .ok none

/-- The versions that are offered beside the latest one. -/
def others (metadata : PackageOverview) (latest : Option String) : List String :=
  (metadata.versions.filter fun version => some version != latest).take maxOthers

/-- The items for a place, the latest version first. -/
def ofMetadata (metadata : PackageOverview) (site : CompletionSite) (line : Int) :
    Except Fault (List Suggestion) := do
  let latest ← latestVersion? metadata
  -- A package without a latest version may still offer a version that is the empty text.
  let excluded := match metadata.latest with
    | .string version => some version
    | _ => none
  return latest.toList.map (ofVersion metadata site line · .latest 0) ++
    (others metadata excluded).mapIdx fun index version =>
      ofVersion metadata site line version (rankOf metadata version) index

end Suggestion

end ManifestLens
