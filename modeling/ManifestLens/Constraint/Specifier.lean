import ManifestLens.Constraint.Operator
import ManifestLens.Text.Character
import ManifestLens.Version.Parse

/-!
# Specifiers

A specifier relates releases to one version, as in `>=1.0` or `==1.2.*`. It keeps the version as
written, because two relations depend on the spelling: arbitrary equality compares texts, and a
compatible release must agree with all but the last of the written components.
-/

namespace ManifestLens

/-- A relation and the version it relates to. -/
structure Specifier where
  relation : Relation
  version : List Char
deriving DecidableEq, Repr

namespace Specifier

/-- The text before a final `.*`. -/
def beforeWildcard? (version : List Char) : Option (List Char) :=
  match version.reverse with
  | '*' :: '.' :: rest => some rest.reverse
  | _ => none

/-- A version with nothing after its release. -/
def isPlainRelease (v : Version) : Bool :=
  v.pre.isNone && v.post.isNone && v.dev.isNone && v.localParts.isEmpty

/-- The text before a wildcard is a plain release that ends in a digit. -/
def isWildcardBase (text : List Char) : Bool :=
  match Version.parse? text with
  | some v => isPlainRelease v && !text.any Text.isBlank
  | none => false

/-- A relation admits a version text. Equality allows wildcards and local segments, a compatible
release needs two components, and arbitrary equality takes any text of one word. -/
def isVersionFor (relation : Relation) (version : List Char) : Bool :=
  match relation with
  | .arbitrary => !version.any fun c => Text.isBlank c || c == ';' || c == ')'
  | .equal | .notEqual =>
      match beforeWildcard? version with
      | some base => isWildcardBase base
      | none => (Version.parse? version).isSome
  | .compatible =>
      match Version.parse? version with
      | some v => v.localParts.isEmpty && !v.minors.isEmpty
      | none => false
  | .atLeast | .atMost | .above | .below =>
      match Version.parse? version with
      | some v => v.localParts.isEmpty
      | none => false

def parse? (text : List Char) : Option Specifier := do
  let body := Text.trim text
  let relation ← Relation.all.find? fun relation => relation.text.isPrefixOf body
  let version := Text.trim (body.drop relation.text.length)
  if isVersionFor relation version then some ⟨relation, version⟩ else none

def text (specifier : Specifier) : List Char := specifier.relation.text ++ specifier.version

/-! ### Prefix matching -/

/-- The components of a version text: its epoch, and the dot-separated pieces, where the letters of a
pre-release are split from the number before them. -/
def components (version : List Char) : List (List Char) :=
  let afterEpoch := ((version.reverse.takeWhile (· != '!')).reverse)
  let epoch := version.take (version.length - afterEpoch.length - 1)
  let split (piece : List Char) : List (List Char) :=
    let digits := piece.takeWhile Text.isAsciiDigit
    let rest := piece.drop digits.length
    let isPre := ["a", "b", "c", "rc"].any fun label =>
      let label := label.toList
      label.isPrefixOf rest && !(rest.drop label.length).isEmpty &&
        (rest.drop label.length).all Text.isAsciiDigit
    if !digits.isEmpty && isPre then [digits, rest] else [piece]
  (if epoch.isEmpty then ['0'] else epoch) :: (Text.splitOn '.' afterEpoch).flatMap split

/-- A component that belongs to a segment after the release. -/
def isSuffixComponent (component : List Char) : Bool :=
  ["dev", "a", "b", "rc", "post"].any fun label => label.toList.isPrefixOf component

/-- The normalised spelling of a version text, or the text itself if it spells no version. -/
def normalized (version : List Char) : List Char :=
  ((Version.parse? version).map Version.text).getD version

/-- The components with zeros after the release, so that it has at least `count` of them. -/
def padRelease (count : Nat) (parts : List (List Char)) : List (List Char) :=
  let release := parts.takeWhile fun part => !part.isEmpty && part.all Text.isAsciiDigit
  release ++ List.replicate (count - release.length) ['0'] ++ parts.drop release.length

/-- A release starts with the components of a version text. -/
def startsWith (v : Version) (text : List Char) : Bool :=
  let wanted := components (normalized text)
  let count := (wanted.takeWhile fun part => !part.isEmpty && part.all Text.isAsciiDigit).length
  let offered := padRelease count (components v.withoutLocal.text)
  offered.take wanted.length == wanted

/-- The text that compatible releases start with: all written components of the release but the
last. -/
def seriesText (version : List Char) : List Char :=
  match ((components version).takeWhile (!isSuffixComponent ·)).dropLast with
  | epoch :: parts => epoch ++ '!' :: Text.joinWith ['.'] parts
  | [] => []

/-! ### Membership -/

/-- The version equals that of an equality specifier. Without a local segment there, that of the
release does not count. -/
def equals (version : List Char) (v : Version) : Bool :=
  match beforeWildcard? version with
  | some base => startsWith v base
  | none =>
      match Version.parse? version with
      | none => false
      | some wanted => (if wanted.localParts.isEmpty then v.withoutLocal else v).same wanted

/-- A release satisfies the specifier. Exclusive bounds leave out the pre-releases of an upper bound
and the post-releases and local versions of a lower one. -/
def admits (specifier : Specifier) (v : Version) : Bool :=
  let against (test : Version → Bool) : Bool := (Version.parse? specifier.version).any test
  match specifier.relation with
  | .arbitrary => false
  | .equal => equals specifier.version v
  | .notEqual => !equals specifier.version v
  | .atLeast => against fun bound => bound ≤ v.withoutLocal
  | .atMost => against fun bound => v.withoutLocal ≤ bound
  | .below => against fun bound =>
      v < bound && !(!bound.isPrerelease && v.isPrerelease && v.base.same bound.base)
  | .above => against fun bound =>
      bound < v && !(!bound.isPostrelease && v.isPostrelease && v.base.same bound.base) &&
        !(!v.localParts.isEmpty && v.base.same bound.base)
  | .compatible =>
      against (· ≤ v.withoutLocal) && startsWith v (seriesText specifier.version)

/-- A version text satisfies the specifier. Arbitrary equality compares texts in any case. -/
def contains (specifier : Specifier) (version : List Char) : Bool :=
  match specifier.relation with
  | .arbitrary => Text.lower version == Text.lower specifier.version
  | _ => (Version.parse? version).any specifier.admits

/-! ### Lists of specifiers -/

/-- The specifiers of a comma-separated list, repeated ones included. Blank pieces count for nothing. -/
def parseList? (text : List Char) : Option (List Specifier) :=
  ((Text.splitOn ',' text).filter fun piece => !(Text.trim piece).isEmpty).mapM parse?

/-- The specifier with its version normalised, by which equal specifiers are recognised. Zeros at the
end of a release count only for a compatible release. -/
def canonical (specifier : Specifier) : Specifier :=
  match Version.parse? specifier.version with
  | none => specifier
  | some v =>
      let v := if specifier.relation = .compatible then v else
        match (Version.significant v.release) with
        | [] => { v with major := 0, minors := [] }
        | major :: minors => { v with major, minors }
      ⟨specifier.relation, v.text⟩

/-- The specifiers without those equal to an earlier one. -/
def distinct : List Specifier → List Specifier
  | [] => []
  | specifier :: rest =>
      specifier :: (distinct rest).filter fun other => other.canonical != specifier.canonical

/-- The distinct specifiers sorted by their texts and joined by commas. -/
def listText (specifiers : List Specifier) : List Char :=
  Text.joinWith [','] (((distinct specifiers).map text).mergeSort fun a b =>
    (Ord.compare (a.map Char.toNat) (b.map Char.toNat)).isLE)

end Specifier

end ManifestLens
