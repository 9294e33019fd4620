import ManifestLens.Json.Basic

/-!
# Writing JSON

A value is written on one line, or with one item a line and two blanks of indentation a level.
Everything beyond printable ASCII is escaped.
-/

namespace ManifestLens

namespace Json

/-- The lower-case hexadecimal digit of a number below sixteen. -/
def hexDigit (n : Nat) : Char :=
  if n < 10 then Char.ofNat ('0'.toNat + n) else Char.ofNat ('a'.toNat + n - 10)

/-- A code unit as an escape with four hexadecimal digits. -/
def unitEscape (unit : Nat) : List Char :=
  ['\\', 'u', hexDigit (unit / 4096 % 16), hexDigit (unit / 256 % 16), hexDigit (unit / 16 % 16),
    hexDigit (unit % 16)]

/-- A character as it stands in a written string. -/
def writeChar (c : Char) : List Char :=
  let n := c.toNat
  if c = '"' then ['\\', '"']
  else if c = '\\' then ['\\', '\\']
  else if c = '\n' then ['\\', 'n']
  else if c = '\r' then ['\\', 'r']
  else if c = '\t' then ['\\', 't']
  else if n = 0x08 then ['\\', 'b']
  else if n = 0x0C then ['\\', 'f']
  else if 0x20 ≤ n ∧ n < 0x7F then [c]
  else if n < 0x10000 then unitEscape n
  else unitEscape (0xD800 + (n - 0x10000) / 0x400) ++ unitEscape (0xDC00 + (n - 0x10000) % 0x400)

def writeString (s : String) : String :=
  String.ofList ('"' :: s.toList.flatMap writeChar ++ ['"'])

/-- A number; the values that are not finite have words of their own. -/
def writeNumber : Number → String
  | .float .nan => "NaN"
  | .float (.infinite negative) => if negative then "-Infinity" else "Infinity"
  | n => n.text

/-- A line break and the indentation of a level; nothing if all is on one line. -/
def lineBreak (indented : Bool) (level : Nat) : String :=
  if indented then "\n" ++ String.ofList (List.replicate (2 * level) ' ') else ""

/-- A value as text, inside `level` arrays and objects. -/
def write (indented : Bool) (level : Nat) : Json → String
  | .null => "null"
  | .bool b => if b then "true" else "false"
  | .number n => writeNumber n
  | .string s => writeString s
  | .array [] => "[]"
  | .array (item :: items) =>
      "[" ++ lineBreak indented (level + 1) ++ write indented (level + 1) item ++
        writeItems indented (level + 1) items ++ lineBreak indented level ++ "]"
  | .object [] => "\x7b\x7d"
  | .object ((key, value) :: members) =>
      "\x7b" ++ lineBreak indented (level + 1) ++ writeString key ++ ": " ++
        write indented (level + 1) value ++ writeMembers indented (level + 1) members ++
        lineBreak indented level ++ "\x7d"
where
  /-- The items after the first one. -/
  writeItems (indented : Bool) (level : Nat) : List Json → String
    | [] => ""
    | item :: items =>
        (if indented then "," else ", ") ++ lineBreak indented level ++
          write indented level item ++ writeItems indented level items
  /-- The members after the first one. -/
  writeMembers (indented : Bool) (level : Nat) : List (String × Json) → String
    | [] => ""
    | (key, value) :: members =>
        (if indented then "," else ", ") ++ lineBreak indented level ++ writeString key ++ ": " ++
          write indented level value ++ writeMembers indented level members

/-- The value on one line. -/
def compact (value : Json) : String := value.write false 0

/-- The value with one item a line. -/
def pretty (value : Json) : String := value.write true 0

end Json

end ManifestLens
