import ManifestLens.Number.Decimal

/-!
# Numbers

A number is an integer of any size or a double. Integers stay integers under addition, subtraction
and multiplication among themselves; with a double the result is a double. Comparison is exact.
-/

namespace ManifestLens

/-- An integer or a double. -/
inductive Number where
  | int (n : Int)
  | float (x : Binary64)
deriving DecidableEq, Repr, Inhabited

namespace Number

instance : OfNat Number n := ⟨.int n⟩

def toBinary64 : Number → Binary64
  | .int n => .ofInt n
  | .float x => x

/-- Addition. -/
def add : Number → Number → Number
  | .int a, .int b => .int (a + b)
  | a, b => .float (a.toBinary64.add b.toBinary64)

/-- Subtraction. -/
def sub : Number → Number → Number
  | .int a, .int b => .int (a - b)
  | a, b => .float (a.toBinary64.sub b.toBinary64)

/-- Multiplication. -/
def mul : Number → Number → Number
  | .int a, .int b => .int (a * b)
  | a, b => .float (a.toBinary64.mul b.toBinary64)

instance : Add Number := ⟨add⟩
instance : Sub Number := ⟨sub⟩
instance : Mul Number := ⟨mul⟩

/-- Division by a positive integer, which always gives a double. -/
def divNat (a : Number) (n : Nat) : Binary64 :=
  match a with
  | .int m => if m = 0 then .finite 0 else .ofRat (mkRat m n)
  | .float x => x.divNat n

/-- Less or equal, by exact values. -/
def le (a b : Number) : Bool :=
  match a, b with
  | .int a, .int b => a ≤ b
  | .int a, .float b => Binary64.le (.finite a) b
  | .float a, .int b => Binary64.le a (.finite b)
  | .float a, .float b => a.le b

/-- Less, by exact values. -/
def lt (a b : Number) : Bool :=
  match a, b with
  | .int a, .int b => a < b
  | .int a, .float b => Binary64.lt (.finite a) b
  | .float a, .int b => Binary64.lt a (.finite b)
  | .float a, .float b => a.lt b

instance : LE Number := ⟨fun a b => a.le b = true⟩
instance : LT Number := ⟨fun a b => a.lt b = true⟩
instance (a b : Number) : Decidable (a ≤ b) := inferInstanceAs (Decidable (a.le b = true))
instance (a b : Number) : Decidable (a < b) := inferInstanceAs (Decidable (a.lt b = true))

/-- Numeric equality, which does not tell an integer from an equal double. -/
def eqv (a b : Number) : Bool := a.le b && b.le a

/-- The greater number, the first one if they are equal or not comparable. -/
def maxOf (a b : Number) : Number := if a < b then b else a

/-- The smaller number, the first one if they are equal or not comparable. -/
def minOf (a b : Number) : Number := if b < a then b else a

/-- The number is not zero. -/
def isTrue : Number → Bool
  | .int n => n != 0
  | .float x => x.toRat? != some 0

/-- The shortest decimal text of the number. -/
def text : Number → String
  | .int n => Decimal.intText n
  | .float x => x.text

/-- The number with six significant digits. -/
def generalText (a : Number) : String := a.toBinary64.generalText

/-- The number with a fixed count of decimals. -/
def fixedText (places : Nat) (a : Number) : String := a.toBinary64.fixedText places

end Number

end ManifestLens
