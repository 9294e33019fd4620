import ManifestLens.Json.Basic

/-!
# Taking values apart and making them

Shorthands for reading a value of which the shape is known, with a default for every other shape, and for
writing the values of other types.
-/

namespace ManifestLens

namespace Json

/-! ### Reading -/

/-- The member of an object, null if it is missing. -/
def field (value : Json) (key : String) : Json := (value.get? key).getD .null

/-- A text, empty for every other value. -/
def text : Json → String
  | .string s => s
  | _ => ""

/-- The characters of a text. -/
def chars? (value : Json) : Option (List Char) := value.asString?.map String.toList

/-- The characters of a text, none for every other value. -/
def chars (value : Json) : List Char := value.text.toList

/-- A whole number. -/
def integer? : Json → Option Int
  | .number (.int n) => some n
  | _ => none

/-- A whole number, zero for every other value. -/
def integer (value : Json) : Int := value.integer?.getD 0

/-- A truth value. -/
def flag? : Json → Option Bool
  | .bool b => some b
  | _ => none

/-- A truth value, with a default for every other value. -/
def flag (default : Bool) (value : Json) : Bool := value.flag?.getD default

/-- The items of an array, none for every other value. -/
def items : Json → List Json
  | .array items => items
  | _ => []

/-- The members of an object, none for every other value. -/
def members : Json → List (String × Json)
  | .object members => members
  | _ => []

/-! ### Writing -/

/-- A text given by its characters. -/
def ofChars (text : List Char) : Json := .string (String.ofList text)

def ofNat (n : Nat) : Json := .number (.int n)

def ofInt (n : Int) : Json := .number (.int n)

/-- A value that may be missing. -/
def ofOption {α : Type} (f : α → Json) : Option α → Json
  | none => .null
  | some value => f value

def ofTexts (texts : List String) : Json := .array (texts.map .string)

end Json

end ManifestLens
