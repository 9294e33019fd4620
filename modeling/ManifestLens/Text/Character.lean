import ManifestLens.Text.Table.LetterCase
import ManifestLens.Text.Table.WordCharacter

/-!
# Character classes

The classes that manifests, versions and messages are read by. Blank, digit and word characters
follow Unicode and reach far beyond ASCII: a no-break space separates as a space does, and an
Arabic digit counts as a digit. The ASCII members of each class are tested first, so that facts
about ordinary text do not depend on the tables.
-/

namespace ManifestLens.Text

/-- Membership of a character in a table of closed code-point ranges. -/
def inRanges (table : List (Nat × Nat)) (c : Char) : Bool :=
  table.any fun range => range.1 ≤ c.toNat && c.toNat ≤ range.2

/-- White space: the ASCII blanks and separators, and the Unicode spaces and line breaks. -/
def isBlank (c : Char) : Bool :=
  let n := c.toNat
  n == 0x20 || (0x09 ≤ n && n ≤ 0x0D) || (0x1C ≤ n && n ≤ 0x1F) || n == 0x85 || n == 0xA0 ||
    n == 0x1680 || (0x2000 ≤ n && n ≤ 0x200A) || n == 0x2028 || n == 0x2029 || n == 0x202F ||
    n == 0x205F || n == 0x3000

/-- The characters at which text breaks into lines. -/
def isLineBreak (c : Char) : Bool :=
  let n := c.toNat
  (0x0A ≤ n && n ≤ 0x0D) || (0x1C ≤ n && n ≤ 0x1E) || n == 0x85 || n == 0x2028 || n == 0x2029

/-- The value of a decimal digit of any script. -/
def decimalValue? (c : Char) : Option Nat :=
  let n := c.toNat
  if '0'.toNat ≤ n ∧ n ≤ '9'.toNat then some (n - '0'.toNat)
  else if n < 0x80 then none
  else (Table.decimalZeros.find? fun start => start ≤ n && n < start + 10).map (n - ·)

/-- A decimal digit of any script. -/
def isDecimal (c : Char) : Bool := (decimalValue? c).isSome

def isAsciiDigit (c : Char) : Bool := '0' ≤ c && c ≤ '9'

def isAsciiLetter (c : Char) : Bool := ('a' ≤ c && c ≤ 'z') || ('A' ≤ c && c ≤ 'Z')

def isAsciiAlnum (c : Char) : Bool := isAsciiLetter c || isAsciiDigit c

/-- A letter, a numeral or an underscore. -/
def isWordChar (c : Char) : Bool :=
  isAsciiAlnum c || c == '_' || (0x80 ≤ c.toNat && inRanges Table.wordCharacters c)

/-- The lower-case form of an ASCII capital; every other character is its own. -/
def asciiLowerChar (c : Char) : Char :=
  if 'A' ≤ c && c ≤ 'Z' then Char.ofNat (c.toNat + 32) else c

/-- Lower case for ASCII capitals only. -/
def asciiLower (text : List Char) : List Char := text.map asciiLowerChar

end ManifestLens.Text

/-!
## Lower case

Lower case for all of Unicode. Two letters need more than a table of single characters: a dotted
capital I becomes two characters, and a capital sigma takes its final form at the end of a word.
-/

namespace ManifestLens.Text

/-- The single-character lower-case form of a character. -/
def lowerChar (c : Char) : Char :=
  if c.toNat < 0x80 then asciiLowerChar c
  else
    let n := c.toNat
    match Table.lowerCaseRuns.find? fun run =>
        run.first ≤ n && n ≤ run.last && (n - run.first) % run.stride == 0 with
    | some run => Char.ofNat ((n : Int) + run.shift).toNat
    | none => c

/-- The first character that case conversion does not look past is cased. -/
def startsCased (text : List Char) : Bool :=
  match text.dropWhile (inRanges Table.caseIgnorable) with
  | [] => false
  | c :: _ => inRanges Table.cased c

/-- Lower case of the text that follows `before`, which is held in reverse. -/
def lowerAfter (before : List Char) : List Char → List Char
  | [] => []
  | c :: rest =>
      let here :=
        if c.toNat = 0x130 then ['i', Char.ofNat 0x307]
        else if c.toNat = 0x3A3 then
          [Char.ofNat (if startsCased before && !startsCased rest then 0x3C2 else 0x3C3)]
        else [lowerChar c]
      here ++ lowerAfter (c :: before) rest

def lower (text : List Char) : List Char := lowerAfter [] text

end ManifestLens.Text
