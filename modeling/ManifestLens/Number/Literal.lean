import ManifestLens.Number.Basic
import ManifestLens.Text.Trim

/-!
# Reading numbers from text

Numerals as people and servers write them: with white space around them, a sign, decimal digits of any
script, and single underscores between digits.
-/

namespace ManifestLens

namespace Literal

/-- The text with its digits in ASCII. -/
def plainDigits (text : List Char) : List Char :=
  text.map fun c =>
    match Text.decimalValue? c with
    | some value => Char.ofNat ('0'.toNat + value)
    | none => c

/-- The text without underscores, if each of them stands between two digits. -/
def withoutUnderscores? (previous : Char) : List Char → Option (List Char)
  | [] => if previous = '_' then none else some []
  | c :: rest =>
      if c = '_' then
        if Text.isAsciiDigit previous then withoutUnderscores? c rest else none
      else if previous = '_' && !Text.isAsciiDigit c then none
      else (withoutUnderscores? c rest).map (c :: ·)

/-- The body of a numeral without blanks and underscores, and whether a minus stands before it. -/
def body? (text : List Char) : Option (Bool × List Char) :=
  (withoutUnderscores? ' ' (plainDigits (Text.trim text))).map fun body =>
    match body with
    | '-' :: rest => (true, rest)
    | '+' :: rest => (false, rest)
    | _ => (false, body)

/-- The value of ASCII digits. -/
def value (digits : List Char) : Nat :=
  digits.foldl (fun n c => n * 10 + (c.toNat - '0'.toNat)) 0

/-- The integer that a text writes. Numerals of more than 4300 digits are not read. -/
def integer? (text : List Char) : Option Int := do
  let (negative, digits) ← body? text
  if digits.isEmpty || !digits.all Text.isAsciiDigit || 4300 < digits.length then none
  else
    let n : Int := value digits
    some (if negative then -n else n)

/-- The exponent after a mantissa: nothing, or a letter, an optional sign and digits. -/
def exponent? : List Char → Option Int
  | [] => some 0
  | e :: rest =>
      if e = 'e' ∨ e = 'E' then
        let (negative, digits) : Bool × List Char := match rest with
          | '-' :: digits => (true, digits)
          | '+' :: digits => (false, digits)
          | digits => (false, digits)
        if digits.isEmpty || !digits.all Text.isAsciiDigit then none
        else
          let n : Int := value digits
          some (if negative then -n else n)
      else none

/-- The double that a text writes, in digits or in words. -/
def double? (text : List Char) : Option Binary64 := do
  let (negative, body) ← body? text
  let word := Text.asciiLower body
  if word = "inf".toList ∨ word = "infinity".toList then some (.infinite negative)
  else if word = "nan".toList then some .nan
  else
    let whole := body.takeWhile Text.isAsciiDigit
    let rest := body.drop whole.length
    let (places, rest) : List Char × List Char := match rest with
      | '.' :: rest =>
          let places := rest.takeWhile Text.isAsciiDigit
          (places, rest.drop places.length)
      | _ => ([], rest)
    if whole.isEmpty && places.isEmpty then none
    else
      let exponent ← exponent? rest
      some (.ofDecimal negative (value (whole ++ places)) (exponent - places.length))

end Literal

end ManifestLens
