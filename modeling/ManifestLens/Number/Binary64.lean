/-!
# Binary floating point

Double-precision numbers held by their exact values. Every operation is the exact one on rationals
followed by one rounding to the nearest double, ties to the even significand, so each rounding is
visible and nothing else is lost.
-/

namespace ManifestLens

/-- The quotient of two natural numbers rounded to the nearest one, a half to the even one. -/
def roundHalfEven (numerator denominator : Nat) : Nat :=
  let quotient := numerator / denominator
  let twice := 2 * (numerator % denominator)
  if twice < denominator then quotient
  else if denominator < twice then quotient + 1
  else if quotient % 2 = 0 then quotient else quotient + 1

/-- The exponent `e` with `2 ^ e ≤ numerator / denominator < 2 ^ (e + 1)`, for a positive quotient. -/
def quotientLog2 (numerator denominator : Nat) : Int :=
  let guess : Int := (Nat.log2 numerator : Int) - Nat.log2 denominator
  let reached : Bool :=
    if 0 ≤ guess then denominator * Nat.pow 2 guess.toNat ≤ numerator
    else denominator ≤ numerator * Nat.pow 2 (-guess).toNat
  if reached then guess else guess - 1

/-- A number scaled by a power of a base that may be negative: the new numerator and denominator. -/
def scaleQuotient (base numerator denominator : Nat) (exponent : Int) : Nat × Nat :=
  if 0 ≤ exponent then (numerator * Nat.pow base exponent.toNat, denominator)
  else (numerator, denominator * Nat.pow base (-exponent).toNat)

/-- A double-precision number. Zero is split by its sign; a NaN has no payload. -/
inductive Binary64 where
  | finite (value : Rat)
  | negativeZero
  | infinite (negative : Bool)
  | nan
deriving DecidableEq, Repr

namespace Binary64

/-- The exponent of the last place of a double of the given magnitude. -/
def lastPlace (numerator denominator : Nat) : Int :=
  max (quotientLog2 numerator denominator - 52) (-1074)

/-- The double nearest to a positive quotient; none if it lies beyond the finite range. -/
def roundMagnitude? (numerator denominator : Nat) : Option Rat :=
  let place := lastPlace numerator denominator
  let (n, d) := scaleQuotient 2 numerator denominator (-place)
  let significand := roundHalfEven n d
  let (n, d) := scaleQuotient 2 significand 1 place
  if Nat.pow 2 1024 * d ≤ n then none else some (mkRat n d)

/-- The double nearest to a rational number. -/
def ofRat (q : Rat) : Binary64 :=
  if q.num = 0 then .finite 0
  else
    let negative := q.num < 0
    match roundMagnitude? q.num.natAbs q.den with
    | none => .infinite negative
    | some magnitude =>
        if magnitude.num = 0 then if negative then .negativeZero else .finite 0
        else .finite (if negative then -magnitude else magnitude)

/-- The double nearest to an integer. -/
def ofInt (n : Int) : Binary64 := ofRat n

/-- The double nearest to `digits * 10 ^ exponent`. An exponent far beyond the range of doubles is
not computed with. -/
def ofDecimal (negative : Bool) (digits : Nat) (exponent : Int) : Binary64 :=
  let length : Int := (toString digits).length
  if digits = 0 then if negative then .negativeZero else .finite 0
  else if 310 < exponent + length then .infinite negative
  else if exponent + length < -330 then if negative then .negativeZero else .finite 0
  else
    let (n, d) := scaleQuotient 10 digits 1 exponent
    match roundMagnitude? n d with
    | none => .infinite negative
    | some magnitude =>
        if magnitude.num = 0 then if negative then .negativeZero else .finite 0
        else .finite (if negative then -magnitude else magnitude)

/-- The exact value of a finite double. -/
def toRat? : Binary64 → Option Rat
  | .finite value => some value
  | .negativeZero => some 0
  | _ => none

/-- The number is negative, counting the negative zero. -/
def isNegative : Binary64 → Bool
  | .finite value => value < 0
  | .negativeZero => true
  | .infinite negative => negative
  | .nan => false

/-- Negation. -/
def neg : Binary64 → Binary64
  | .finite value => if value = 0 then .negativeZero else .finite (-value)
  | .negativeZero => .finite 0
  | .infinite negative => .infinite !negative
  | .nan => .nan

/-- Addition. -/
def add : Binary64 → Binary64 → Binary64
  | .nan, _ => .nan
  | _, .nan => .nan
  | .infinite a, .infinite b => if a = b then .infinite a else .nan
  | .infinite a, _ => .infinite a
  | _, .infinite b => .infinite b
  | .negativeZero, .negativeZero => .negativeZero
  | a, b => ofRat (a.toRat?.getD 0 + b.toRat?.getD 0)

/-- Subtraction. -/
def sub (a b : Binary64) : Binary64 := add a b.neg

/-- Multiplication. -/
def mul (a b : Binary64) : Binary64 :=
  let negative := a.isNegative != b.isNegative
  match a, b with
  | .nan, _ => .nan
  | _, .nan => .nan
  | .infinite _, b => if b.toRat? = some 0 then .nan else .infinite negative
  | a, .infinite _ => if a.toRat? = some 0 then .nan else .infinite negative
  | a, b =>
      let product := a.toRat?.getD 0 * b.toRat?.getD 0
      if product = 0 then if negative then .negativeZero else .finite 0 else ofRat product

/-- Division by a positive integer. -/
def divNat (a : Binary64) (n : Nat) : Binary64 :=
  match a with
  | .finite value => if value = 0 then .finite 0 else ofRat (value / n)
  | other => other

/-- Less or equal; no number is comparable to a NaN. -/
def le : Binary64 → Binary64 → Bool
  | .nan, _ => false
  | _, .nan => false
  | .infinite true, _ => true
  | _, .infinite false => true
  | .infinite false, _ => false
  | _, .infinite true => false
  | a, b => a.toRat?.getD 0 ≤ b.toRat?.getD 0

/-- Less. -/
def lt : Binary64 → Binary64 → Bool
  | .nan, _ => false
  | _, .nan => false
  | a, b => !le b a

/-- Numeric equality, which identifies the zeros. -/
def eqv (a b : Binary64) : Bool := le a b && le b a

end Binary64

end ManifestLens
