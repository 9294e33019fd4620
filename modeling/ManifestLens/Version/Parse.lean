import ManifestLens.Text.Character
import ManifestLens.Version.Basic

/-!
# Reading and writing versions

A version is read in any spelling the standard allows: with a leading `v`, in any case, with
alternative labels and separators, and with white space around it. It is written in the normalised
spelling.
-/

namespace ManifestLens

namespace Version

/-- The value of a run of ASCII digits. -/
def numberOf (digits : List Char) : Nat :=
  digits.foldl (fun n c => n * 10 + (c.toNat - '0'.toNat)) 0

/-- A separator that may stand around the label of a segment. -/
def isSeparator (c : Char) : Bool := c == '.' || c == '_' || c == '-'

/-- The text without one separator at its start. -/
def skipSeparator : List Char → List Char
  | c :: rest => if isSeparator c then rest else c :: rest
  | [] => []

/-- The digits at the start of a text, and the rest. -/
def digitRun (text : List Char) : List Char × List Char :=
  let digits := text.takeWhile Text.isAsciiDigit
  (digits, text.drop digits.length)

/-- A segment that a label introduces: what the label stands for, its number, which is zero unless
written, and the rest of the text. -/
def labelled? {α : Type} (labels : List (List Char × α)) (text : List Char) :
    Option (α × Nat × List Char) :=
  let body := skipSeparator text
  (labels.find? fun label => label.1.isPrefixOf body).map fun (label, meaning) =>
    let (digits, rest) := digitRun (skipSeparator (body.drop label.length))
    (meaning, numberOf digits, rest)

/-- The labels of pre-releases, longer ones before those they start with. -/
def preLabels : List (List Char × PreStage) :=
  [("alpha".toList, .alpha), ("a".toList, .alpha), ("beta".toList, .beta), ("b".toList, .beta),
    ("preview".toList, .candidate), ("pre".toList, .candidate), ("c".toList, .candidate),
    ("rc".toList, .candidate)]

def postLabels : List (List Char × Unit) :=
  [("post".toList, ()), ("rev".toList, ()), ("r".toList, ())]

/-- The epoch at the start of a text, which is zero unless written. -/
def readEpoch (text : List Char) : Nat × List Char :=
  match digitRun text with
  | ([], _) => (0, text)
  | (digits, '!' :: rest) => (numberOf digits, rest)
  | _ => (0, text)

/-- The release whose last number so far is `current`, after the numbers before it in reverse. -/
def readRelease (current : Nat) (reversed : List Nat) : List Char → List Nat × List Char
  | '.' :: c :: rest =>
      if Text.isAsciiDigit c then readRelease (c.toNat - '0'.toNat) (current :: reversed) rest
      else ((current :: reversed).reverse, '.' :: c :: rest)
  | c :: rest =>
      if Text.isAsciiDigit c then readRelease (current * 10 + (c.toNat - '0'.toNat)) reversed rest
      else ((current :: reversed).reverse, c :: rest)
  | [] => ((current :: reversed).reverse, [])

/-- The pre-release segment at the start of a text. -/
def readPre (text : List Char) : Option (PreStage × Nat) × List Char :=
  match labelled? preLabels text with
  | some (stage, n, rest) => (some (stage, n), rest)
  | none => (none, text)

/-- The post-release segment at the start of a text: a hyphen and a number, or a label. -/
def readPost (text : List Char) : Option Nat × List Char :=
  let numbered : Option (Nat × List Char) := match text with
    | '-' :: body =>
        match digitRun body with
        | ([], _) => none
        | (digits, rest) => some (numberOf digits, rest)
    | _ => none
  match numbered, labelled? postLabels text with
  | some (n, rest), _ => (some n, rest)
  | none, some ((), n, rest) => (some n, rest)
  | none, none => (none, text)

/-- The development segment at the start of a text. -/
def readDev (text : List Char) : Option Nat × List Char :=
  match labelled? [("dev".toList, ())] text with
  | some ((), n, rest) => (some n, rest)
  | none => (none, text)

/-- The pieces of a text between separators. -/
def separatedPieces : List Char → List (List Char)
  | [] => [[]]
  | c :: rest =>
      if isSeparator c then [] :: separatedPieces rest
      else
        match separatedPieces rest with
        | [] => [[c]]
        | piece :: pieces => (c :: piece) :: pieces

/-- The part of a local segment that a piece of it states. -/
def LocalPart.ofPiece? (piece : List Char) : Option LocalPart :=
  if piece.isEmpty || !piece.all Text.isAsciiAlnum then none
  else if piece.all Text.isAsciiDigit then some (.number (numberOf piece))
  else some (.word piece)

/-- The local segment that is the rest of a version; none may be written. -/
def readLocal? : List Char → Option (List LocalPart)
  | [] => some []
  | '+' :: body => (separatedPieces body).mapM LocalPart.ofPiece?
  | _ => none

def parse? (text : List Char) : Option Version :=
  let body := Text.asciiLower (Text.trim text)
  let body := match body with
    | 'v' :: rest => rest
    | _ => body
  let (epoch, rest) := readEpoch body
  match rest with
  | [] => none
  | c :: rest =>
      if !Text.isAsciiDigit c then none
      else
        match readRelease (c.toNat - '0'.toNat) [] rest with
        | ([], _) => none
        | (major :: minors, rest) =>
            let (pre, rest) := readPre rest
            let (post, rest) := readPost rest
            let (dev, rest) := readDev rest
            (readLocal? rest).map fun localParts =>
              { epoch, major, minors, pre, post, dev, localParts }

/-! ### The normalised spelling -/

/-- A natural number in decimal. -/
def numberText (n : Nat) : List Char := Nat.toDigits 10 n

/-- The numbers of a release joined by dots. -/
def releaseText (release : List Nat) : List Char := Text.joinWith ['.'] (release.map numberText)

/-- The segments between release and local segment. -/
def suffixText (v : Version) : List Char :=
  (match v.pre with
    | none => []
    | some (stage, n) => stage.text ++ numberText n) ++
  (match v.post with
    | none => []
    | some n => ".post".toList ++ numberText n) ++
  (match v.dev with
    | none => []
    | some n => ".dev".toList ++ numberText n)

def LocalPart.text : LocalPart → List Char
  | .number n => numberText n
  | .word text => text

/-- The version in its normalised spelling. -/
def text (v : Version) : List Char :=
  (if v.epoch = 0 then [] else numberText v.epoch ++ ['!']) ++ releaseText v.release ++
    v.suffixText ++
    (if v.localParts.isEmpty then []
      else '+' :: Text.joinWith ['.'] (v.localParts.map LocalPart.text))

end Version

end ManifestLens
