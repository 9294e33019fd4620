import ManifestLens.Ordering.BinaryInsertion
import ManifestLens.Text.Trim

/-!
# Natural order of version texts

An order for any text that an index may list as a version, whether the packaging standard accepts it
or not. Texts are compared by their dot-separated segments: by the number a segment starts with, and
between equal numbers by what follows it, where nothing ranks above something.
-/

namespace ManifestLens

namespace NaturalVersion

/-- Why a text has no place in the order. -/
inductive Failure where
  /-- A segment goes over several lines. -/
  | segmentBroken
  /-- A segment starts with more digits than are read as a number. -/
  | tooManyDigits (count : Nat)
deriving DecidableEq, Repr

/-- A segment: its leading number if it has one, and what follows. -/
structure Segment where
  number : Option Nat
  suffix : List Char
deriving DecidableEq, Repr

namespace Segment

/-- What a segment that is missing counts as. -/
def missing : Segment := ⟨some 0, []⟩

/-- The greatest number of digits that are read as a number. -/
def maxDigits : Nat := 4300

/-- The number that decimal digits of any script spell. -/
def numberOf (digits : List Char) : Nat :=
  digits.foldl (fun n c => n * 10 + (Text.decimalValue? c).getD 0) 0

/-- The text without a line feed at its end. -/
def withoutFinalBreak (text : List Char) : List Char :=
  if text.getLast? = some '\n' then text.dropLast else text

/-- Reads a segment. A final line feed does not count. -/
def read (text : List Char) : Except Failure Segment :=
  let digits := text.takeWhile Text.isDecimal
  let suffix := withoutFinalBreak (text.drop digits.length)
  if suffix.contains '\n' then .error .segmentBroken
  else if digits.isEmpty then .ok ⟨none, suffix⟩
  else if maxDigits < digits.length then .error (.tooManyDigits digits.length)
  else .ok ⟨some (numberOf digits), suffix⟩

/-- The order of leading numbers; a missing one comes first. -/
def compareNumbers (a b : Option Nat) : Ordering :=
  match a, b with
  | none, none => .eq
  | none, some _ => .lt
  | some _, none => .gt
  | some m, some n => compare m n

/-- The order of what follows the numbers: nothing comes last, and two texts compare by code
points. -/
def compareSuffixes (a b : List Char) : Ordering :=
  if a = b then .eq
  else if a.isEmpty then .gt
  else if b.isEmpty then .lt
  else compare (a.map Char.toNat) (b.map Char.toNat)

def cmp (a b : Segment) : Ordering :=
  (compareNumbers a.number b.number).then (compareSuffixes a.suffix b.suffix)

end Segment

/-- Compares pairs of segments up to the first difference; a missing segment counts as zero. -/
def compareSegments : List (Option (List Char) × Option (List Char)) → Except Failure Ordering
  | [] => .ok .eq
  | (a, b) :: rest => do
      let left ← (a.map Segment.read).getD (.ok .missing)
      let right ← (b.map Segment.read).getD (.ok .missing)
      match left.cmp right with
      | .eq => compareSegments rest
      | order => .ok order

/-- The natural order of two version texts. -/
def compare (left right : List Char) : Except Failure Ordering :=
  compareSegments (List.zipWithAll Prod.mk
    (Text.splitOn '.' (Text.trim left)) (Text.splitOn '.' (Text.trim right)))

/-- One version text comes before another. -/
def lt (left right : List Char) : Except Failure Bool := do
  return (← compare left right) == .lt

/-- The distinct versions in descending order, or in ascending order if asked for. -/
def sort (versions : List (List Char)) (descending : Bool := true) :
    Except Failure (List (List Char)) :=
  if descending then sortDescending lt versions.eraseDups
  else sortAscending lt versions.eraseDups

/-! ### Pre-releases -/

def preLabels : List (List Char) := ["a", "b", "rc", "c", "dev", "pre"].map String.toList

/-- A label of a pre-release stands at the start of the text, after at most one separator. -/
def startsPreLabel (text : List Char) : Bool :=
  let labelled (text : List Char) := preLabels.any fun label => label.isPrefixOf text
  labelled text ||
    match text with
    | c :: rest => (c == '.' || c == '-' || c == '_') && labelled rest
    | [] => false

/-- A label of a pre-release stands right after some digit. -/
def marksPreRelease : List Char → Bool
  | [] => false
  | c :: rest => (Text.isDecimal c && startsPreLabel rest) || marksPreRelease rest

/-- The version text carries the mark of a pre-release, in any case. -/
def isPreRelease (version : List Char) : Bool := marksPreRelease (Text.asciiLower version)

end NaturalVersion

end ManifestLens
