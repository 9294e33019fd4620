import ManifestLens.Number.Literal
import ManifestLens.Time.DateTime
import ManifestLens.Toml.Text

/-!
# TOML numbers, dates and times

Numbers may hold single underscores between digits; integers may be written to the bases two, eight and
sixteen. A date may be followed by a time and an offset.
-/

namespace ManifestLens

namespace Toml

/-! ### Numbers -/

/-- More digits, between which single underscores may stand, and what follows them. -/
def moreDigits (isDigit : Char → Bool) : List Char → List Char × List Char
  | '_' :: c :: rest =>
      if isDigit c then
        let (digits, rest) := moreDigits isDigit rest
        (c :: digits, rest)
      else ([], '_' :: c :: rest)
  | c :: rest =>
      if isDigit c then
        let (digits, rest) := moreDigits isDigit rest
        (c :: digits, rest)
      else ([], c :: rest)
  | [] => ([], [])

/-- One digit or more at the start of a text. -/
def readDigits? (isDigit : Char → Bool) : List Char → Option (List Char × List Char)
  | c :: rest =>
      if isDigit c then
        let (digits, rest) := moreDigits isDigit rest
        some (c :: digits, rest)
      else none
  | [] => none

/-- A digit to a base of at most sixteen. -/
def isDigitOf (base : Nat) (c : Char) : Bool := (Json.hexValue? c).any (· < base)

/-- The value of digits to a base. -/
def valueOf (base : Nat) (digits : List Char) : Nat :=
  digits.foldl (fun n c => n * base + (Json.hexValue? c).getD 0) 0

/-- The base that a letter after a zero announces. -/
def baseOf? : Char → Option Nat
  | 'x' => some 16
  | 'o' => some 8
  | 'b' => some 2
  | _ => none

/-- An integer to a base other than ten. -/
def readBased? : List Char → Option (Toml × List Char)
  | '0' :: letter :: rest => do
      let base ← baseOf? letter
      let (digits, rest) ← readDigits? (isDigitOf base) rest
      some (.integer (valueOf base digits), rest)
  | _ => none

/-- The whole part of a decimal number: a zero alone, or digits that start with another one. -/
def readWhole? : List Char → Option (List Char × List Char)
  | '0' :: rest => some (['0'], rest)
  | text => readDigits? Text.isAsciiDigit text

/-- The digits after a point. -/
def readPlaces? : List Char → Option (List Char × List Char)
  | '.' :: rest => readDigits? Text.isAsciiDigit rest
  | _ => none

/-- A sign at the start of a text: whether it is a minus. -/
def readSign : List Char → Bool × List Char
  | '-' :: rest => (true, rest)
  | '+' :: rest => (false, rest)
  | text => (false, text)

def readExponent? : List Char → Option (Int × List Char)
  | e :: rest =>
      if e = 'e' ∨ e = 'E' then do
        let (negative, rest) := readSign rest
        let (digits, rest) ← readDigits? Text.isAsciiDigit rest
        let n : Int := Literal.value digits
        some (if negative then -n else n, rest)
      else none
  | [] => none

/-- Integers of more decimal digits are not read. -/
def maxDigits : Nat := 4300

/-- A decimal number: an integer, or a float if it has places or an exponent. -/
def readDecimal? (text : List Char) : Option (Except TomlFault Toml × List Char) := do
  let (negative, body) := readSign text
  let (whole, rest) ← readWhole? body
  let places := readPlaces? rest
  let rest := (places.map (·.2)).getD rest
  let exponent := readExponent? rest
  let rest := (exponent.map (·.2)).getD rest
  if places.isNone ∧ exponent.isNone then
    let n : Int := Literal.value whole
    some (if maxDigits < whole.length then .error (.tooManyDigits whole.length)
      else .ok (.integer (if negative then -n else n)), rest)
  else
    let digits := (places.map (·.1)).getD []
    some (.ok (.float (.ofDecimal negative (Literal.value (whole ++ digits))
      ((exponent.map (·.1)).getD 0 - digits.length))), rest)

/-- The words for numbers that are none, and for infinite ones. -/
def readSpecial? (text : List Char) : Option (Toml × List Char) :=
  let (negative, body) := readSign text
  match body with
  | 'i' :: 'n' :: 'f' :: rest => some (.float (.infinite negative), rest)
  | 'n' :: 'a' :: 'n' :: rest => some (.float .nan, rest)
  | _ => none

/-! ### Dates and times -/

/-- A number of the given count of digits, within bounds. -/
def readField? (count low high : Nat) (text : List Char) : Option (Nat × List Char) :=
  let digits := text.take count
  let value := Literal.value digits
  if digits.length = count && digits.all Text.isAsciiDigit && low ≤ value && value ≤ high then
    some (value, text.drop count)
  else none

/-- What follows the given character. -/
def readMark? (mark : Char) : List Char → Option (List Char)
  | c :: rest => if c = mark then some rest else none
  | [] => none

/-- What follows seconds and parts of them, which may be missing. -/
def skipSeconds (text : List Char) : List Char :=
  match (readMark? ':' text).bind (readField? 2 0 59) with
  | none => text
  | some (_, rest) =>
      match (readMark? '.' rest).bind (readDigits? Text.isAsciiDigit) with
      | none => rest
      | some _ => (rest.drop 1).dropWhile Text.isAsciiDigit

/-- What follows a time of day. -/
def skipTime? (text : List Char) : Option (List Char) := do
  let (_, rest) ← readField? 2 0 23 text
  let rest ← readMark? ':' rest
  let (_, rest) ← readField? 2 0 59 rest
  return skipSeconds rest

/-- What follows an offset from universal time. -/
def skipOffset? : List Char → Option (List Char)
  | c :: rest =>
      if c = 'Z' ∨ c = 'z' then some rest
      else if c = '+' ∨ c = '-' then do
        let (_, rest) ← readField? 2 0 23 rest
        let rest ← readMark? ':' rest
        let (_, rest) ← readField? 2 0 59 rest
        return rest
      else none
  | [] => none

/-- What follows the time of a day and an offset, if a time follows a date. -/
def skipDayTime? : List Char → Option (List Char)
  | c :: rest =>
      if c = 'T' ∨ c = 't' ∨ c = ' ' then
        (skipTime? rest).map fun rest => (skipOffset? rest).getD rest
      else none
  | [] => none

/-- What a text holds before one of its ends. -/
def before (text rest : List Char) : List Char := text.take (text.length - rest.length)

/-- A date, or a date with a time. A text in the form of a date that names no day is malformed. -/
def readDate? (text : List Char) : Option (Except TomlFault Toml × List Char) := do
  let (year, rest) ← readField? 4 0 9999 text
  let rest ← readMark? '-' rest
  let (month, rest) ← readField? 2 1 12 rest
  let rest ← readMark? '-' rest
  let (day, rest) ← readField? 2 1 31 rest
  let (kind, rest) : MomentKind × List Char := match skipDayTime? rest with
    | some rest => (.dateTime, rest)
    | none => (.date, rest)
  some (if 1 ≤ year ∧ day ≤ Calendar.daysInMonth year month then
      .ok (.moment kind (before text rest))
    else .error .malformed, rest)

def readTime? (text : List Char) : Option (Toml × List Char) :=
  (skipTime? text).map fun rest => (.moment .time (before text rest), rest)

/-! ### Scalars -/

/-- A truth value. -/
def readBoolean? : List Char → Option (Toml × List Char)
  | 't' :: 'r' :: 'u' :: 'e' :: rest => some (.boolean true, rest)
  | 'f' :: 'a' :: 'l' :: 's' :: 'e' :: rest => some (.boolean false, rest)
  | _ => none

/-- A value that is neither an array nor a table, and what follows it. Dates and times are tried before
numbers, which they start with. -/
def readScalar (text : List Char) : Except TomlFault (Toml × List Char) :=
  let certain (found : Option (Toml × List Char)) : Option (Except TomlFault Toml × List Char) :=
    found.map fun (value, rest) => (.ok value, rest)
  let string := (readString? true text).map fun (body, rest) =>
    (Toml.string (String.ofList body), rest)
  match certain string <|> certain (readBoolean? text) <|> readDate? text <|>
      certain (readTime? text) <|> certain (readBased? text) <|> readDecimal? text <|>
      certain (readSpecial? text) with
  | some (.ok value, rest) => .ok (value, rest)
  | some (.error fault, _) => .error fault
  | none => .error .malformed

end Toml

end ManifestLens
