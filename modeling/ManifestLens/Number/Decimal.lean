import ManifestLens.Number.Binary64

/-!
# Decimal text of numbers

The decimal forms in which numbers are written. A double is written with the fewest significant
digits that read back as the same double, and of those with the nearest ones; other forms fix the
number of places or of significant digits and round the exact value, a half to the even digit.
-/

namespace ManifestLens

namespace Decimal

/-- The digits of a natural number, in decimal. -/
def natText (n : Nat) : String := toString n

def intText (n : Int) : String :=
  if n < 0 then "-" ++ natText n.natAbs else natText n.natAbs

/-- The exponent `e` with `10 ^ e ≤ numerator / denominator < 10 ^ (e + 1)`, for a positive
quotient. -/
def quotientLog10 (numerator denominator : Nat) : Int :=
  let guess : Int := ((natText numerator).length : Int) - (natText denominator).length
  let (n, d) := scaleQuotient 10 numerator denominator (-guess)
  if d ≤ n then guess else guess - 1

/-- Significant digits, without a point, and the power of ten of the first one. -/
structure Scientific where
  digits : Nat
  exponent : Int
deriving DecidableEq, Repr

/-- Halves of the distances from a positive double to its lower and upper neighbour: the interval of
the numbers that round to it has them as its arms. -/
def roundingArms (magnitude : Rat) : Rat × Rat :=
  let n := magnitude.num.natAbs
  let place := Binary64.lastPlace n magnitude.den
  let (u, v) := scaleQuotient 2 1 1 place
  let half : Rat := mkRat u (2 * v)
  let (m, d) := scaleQuotient 2 n magnitude.den (-place)
  let significand := m / d
  if significand = Nat.pow 2 52 ∧ -1074 < place then (half / 2, half) else (half, half)

/-- The significand of a positive double is even, so that the ends of its interval round to it. -/
def hasEvenSignificand (magnitude : Rat) : Bool :=
  let n := magnitude.num.natAbs
  let (m, d) := scaleQuotient 2 n magnitude.den (-Binary64.lastPlace n magnitude.den)
  m / d % 2 == 0

/-- The neighbour of a positive double on the grid of `count` significant digits that rounds to it,
the nearer one if both do. -/
def onGrid? (magnitude : Rat) (count : Nat) : Option Scientific :=
  let exponent := quotientLog10 magnitude.num.natAbs magnitude.den
  let (n, d) := scaleQuotient 10 magnitude.num.natAbs magnitude.den ((count : Int) - 1 - exponent)
  let (lower, upper) := roundingArms magnitude
  let closed := hasEvenSignificand magnitude
  let valueOf (digits : Nat) : Rat :=
    let (n, d) := scaleQuotient 10 digits 1 (exponent - ((count : Int) - 1))
    mkRat n d
  let reads (digits : Nat) : Bool :=
    let value := valueOf digits
    if value ≤ magnitude then
      if closed then magnitude - value ≤ lower else magnitude - value < lower
    else if closed then value - magnitude ≤ upper else value - magnitude < upper
  let below := n / d
  let above := if n % d = 0 then below else below + 1
  let nearest := roundHalfEven n d
  if reads nearest then some ⟨nearest, exponent⟩
  else if reads below then some ⟨below, exponent⟩
  else if reads above then some ⟨above, exponent⟩
  else none

/-- The number of digits that `digits` stands for where `count` were asked for: rounding up to a
power of ten adds one. -/
def Scientific.normalize (s : Scientific) (count : Nat) : Scientific :=
  if Nat.pow 10 count ≤ s.digits then ⟨s.digits / 10, s.exponent + 1⟩ else s

/-- The shortest digits that read back as a positive double. -/
def shortest (magnitude : Rat) : Scientific :=
  ((List.range 17).findSome? fun i =>
    (onGrid? magnitude (i + 1)).map (·.normalize (i + 1))).getD ⟨0, 0⟩

/-- The digits of a number as text, padded with zeros on the left to a width. -/
def padded (width n : Nat) : String :=
  let text := natText n
  String.ofList (List.replicate (width - text.length) '0') ++ text

/-- The text without zeros at its end. -/
def stripZeros (digits : String) : String :=
  String.ofList (digits.toList.reverse.dropWhile (· == '0')).reverse

/-- An exponent with its sign and at least two digits. -/
def exponentText (exponent : Int) : String :=
  (if exponent < 0 then "e-" else "e+") ++ padded 2 exponent.natAbs

/-- Digits of which the first has the power of ten `exponent`, with a point where it falls. -/
def positional (digits : String) (exponent : Int) : String × String :=
  if exponent < 0 then
    ("0", String.ofList (List.replicate (-exponent - 1).toNat '0') ++ digits)
  else
    let whole := exponent.toNat + 1
    let chars := digits.toList
    (String.ofList (chars.take whole) ++ String.ofList (List.replicate (whole - chars.length) '0'),
      String.ofList (chars.drop whole))

/-- A positive double in its shortest form: positional from `1e-4` up to below `1e16`, and otherwise
with an exponent. A positional form always has a digit after the point. -/
def shortestText (magnitude : Rat) : String :=
  let s := shortest magnitude
  let digits := stripZeros (natText s.digits)
  if -4 ≤ s.exponent ∧ s.exponent < 16 then
    let (whole, places) := positional digits s.exponent
    whole ++ "." ++ (if places.isEmpty then "0" else places)
  else
    match digits.toList with
    | [] => "0"
    | first :: rest =>
        String.singleton first ++ (if rest.isEmpty then "" else "." ++ String.ofList rest) ++
          exponentText s.exponent

/-- The exact value of a number rounded to `places` decimals, as text. -/
def fixedText (places : Nat) (q : Rat) : String :=
  let scaled := roundHalfEven (q.num.natAbs * Nat.pow 10 places) q.den
  let text := padded (places + 1) scaled
  let chars := text.toList
  let whole := String.ofList (chars.take (chars.length - places))
  let sign := if q.num < 0 then "-" else ""
  if places = 0 then sign ++ whole
  else sign ++ whole ++ "." ++ String.ofList (chars.drop (chars.length - places))

/-- The exact value of a number rounded to six significant digits, without zeros at the end:
positional from `1e-4` up to below `1e6`. -/
def generalText (q : Rat) : String :=
  if q.num = 0 then "0"
  else
    let sign := if q.num < 0 then "-" else ""
    let n := q.num.natAbs
    let exponent := quotientLog10 n q.den
    let (a, b) := scaleQuotient 10 n q.den (5 - exponent)
    let s := Scientific.normalize ⟨roundHalfEven a b, exponent⟩ 6
    let digits := stripZeros (natText s.digits)
    if -4 ≤ s.exponent ∧ s.exponent < 6 then
      let (whole, places) := positional digits s.exponent
      sign ++ whole ++ (if places.isEmpty then "" else "." ++ places)
    else
      match digits.toList with
      | [] => "0"
      | first :: rest =>
          sign ++ String.singleton first ++
            (if rest.isEmpty then "" else "." ++ String.ofList rest) ++ exponentText s.exponent

end Decimal

namespace Binary64

/-- The text that reads back as the number. -/
def text : Binary64 → String
  | .finite value =>
      if value.num = 0 then "0.0"
      else if value.num < 0 then "-" ++ Decimal.shortestText (-value)
      else Decimal.shortestText value
  | .negativeZero => "-0.0"
  | .infinite negative => if negative then "-inf" else "inf"
  | .nan => "nan"

/-- The number with a fixed count of decimals. -/
def fixedText (places : Nat) : Binary64 → String
  | .finite value => Decimal.fixedText places value
  | .negativeZero => "-" ++ Decimal.fixedText places 0
  | other => other.text

/-- The number with six significant digits. -/
def generalText : Binary64 → String
  | .finite value => Decimal.generalText value
  | .negativeZero => "-0"
  | other => other.text

/-- The double nearest to the number rounded to two decimals. -/
def roundToCents : Binary64 → Binary64
  | .finite value =>
      let cents := roundHalfEven (value.num.natAbs * 100) value.den
      if cents = 0 ∧ value.num < 0 then .negativeZero
      else ofRat (mkRat (if value.num < 0 then -(cents : Int) else cents) 100)
  | other => other

end Binary64

end ManifestLens
