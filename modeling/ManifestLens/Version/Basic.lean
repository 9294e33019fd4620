import ManifestLens.Text.Trim

/-!
# Versions

Versions as the packaging standard defines them: an epoch, the numbers of the release, and optional
pre-release, post-release, development and local segments. A version may be spelled in several ways;
order and equality are those of the parsed version.
-/

namespace ManifestLens

/-- The stage of a pre-release. -/
inductive PreStage where
  | alpha
  | beta
  | candidate
deriving DecidableEq, Repr

namespace PreStage

/-- The stages in their order. -/
def rank : PreStage → Nat
  | .alpha => 0
  | .beta => 1
  | .candidate => 2

/-- The letters of the normalised spelling. -/
def text : PreStage → List Char
  | .alpha => ['a']
  | .beta => ['b']
  | .candidate => ['r', 'c']

end PreStage

/-- A part of a local segment. -/
inductive LocalPart where
  | number (n : Nat)
  | word (text : List Char)
deriving DecidableEq, Repr

/-- A version. -/
structure Version where
  epoch : Nat
  /-- The first number of the release. -/
  major : Nat
  /-- The numbers after the first. -/
  minors : List Nat
  pre : Option (PreStage × Nat)
  post : Option Nat
  dev : Option Nat
  localParts : List LocalPart
deriving DecidableEq, Repr

namespace Version

def release (v : Version) : List Nat := v.major :: v.minors

/-- The version is a pre-release or a development release. -/
def isPrerelease (v : Version) : Bool := v.pre.isSome || v.dev.isSome

def isPostrelease (v : Version) : Bool := v.post.isSome

def withoutLocal (v : Version) : Version := { v with localParts := [] }

/-- The epoch and release alone. -/
def base (v : Version) : Version :=
  { v with pre := none, post := none, dev := none, localParts := [] }

/-! ### Order -/

/-- The numbers of a release up to the last that is not zero. -/
def significant (release : List Nat) : List Nat :=
  (release.reverse.dropWhile (· == 0)).reverse

/-- Where the pre-release segment puts a version among those of its release. A development release
that is neither a pre- nor a post-release comes before all of them. -/
def preKey (v : Version) : List Nat :=
  match v.pre with
  | some (stage, n) => [1, stage.rank, n]
  | none => if v.post.isNone && v.dev.isSome then [0] else [2]

/-- The segments before the local one, as lists of numbers that compare in their order. -/
def publicKey (v : Version) : List (List Nat) :=
  [[v.epoch], significant v.release, v.preKey,
    match v.post with
    | none => [0]
    | some n => [1, n],
    match v.dev with
    | none => [1]
    | some n => [0, n]]

/-- A part of a local segment as numbers that compare in its order: words come before numbers. -/
def LocalPart.key : LocalPart → List Nat
  | .word text => 0 :: text.map Char.toNat
  | .number n => [1, n]

/-- The local segment as lists of numbers that compare in its order. -/
def localKey (v : Version) : List (List Nat) := v.localParts.map LocalPart.key

def compare (a b : Version) : Ordering :=
  (Ord.compare a.publicKey b.publicKey).then (Ord.compare a.localKey b.localKey)

instance : Ord Version := ⟨compare⟩
instance : LT Version := ltOfOrd
instance : LE Version := leOfOrd
instance (a b : Version) : Decidable (a < b) := inferInstanceAs (Decidable (compare a b = .lt))
instance (a b : Version) : Decidable (a ≤ b) := inferInstanceAs (Decidable (compare a b).isLE)

/-- The two versions are the same one, however spelled. -/
def same (a b : Version) : Bool := compare a b == .eq

end Version

end ManifestLens
