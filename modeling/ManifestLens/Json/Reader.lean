import ManifestLens.Json.Basic

/-!
# Reading JSON

The reader accepts the JSON grammar and the words `NaN`, `Infinity` and `-Infinity`. It works on
characters and keeps a bound on the number of steps, which the length of the text always covers.
-/

namespace ManifestLens

namespace Json

/-- White space between tokens. -/
def isSpace (c : Char) : Bool := c == ' ' || c == '\t' || c == '\n' || c == '\r'

/-- The text without white space at its start. -/
def skipSpace (text : List Char) : List Char := text.dropWhile isSpace

/-- The value of a hexadecimal digit. -/
def hexValue? (c : Char) : Option Nat :=
  if '0' ≤ c ∧ c ≤ '9' then some (c.toNat - '0'.toNat)
  else if 'a' ≤ c ∧ c ≤ 'f' then some (c.toNat - 'a'.toNat + 10)
  else if 'A' ≤ c ∧ c ≤ 'F' then some (c.toNat - 'A'.toNat + 10)
  else none

/-- The code unit written with four hexadecimal digits. -/
def readUnit? : List Char → Option (Nat × List Char)
  | a :: b :: c :: d :: rest => do
      let a ← hexValue? a
      let b ← hexValue? b
      let c ← hexValue? c
      let d ← hexValue? d
      some (((a * 16 + b) * 16 + c) * 16 + d, rest)
  | _ => none

/-- The character of an escape after `\u`: two surrogates in a row make one character. -/
def readUnicodeEscape? (text : List Char) : Option (Char × List Char) := do
  let (unit, rest) ← readUnit? text
  if 0xD800 ≤ unit ∧ unit < 0xDC00 then
    match rest with
    | '\\' :: 'u' :: more =>
        match readUnit? more with
        | some (low, rest') =>
            if 0xDC00 ≤ low ∧ low < 0xE000 then
              some (Char.ofNat (0x10000 + (unit - 0xD800) * 0x400 + (low - 0xDC00)), rest')
            else some (Char.ofNat 0xFFFD, rest)
        | none => none
    | _ => some (Char.ofNat 0xFFFD, rest)
  else if 0xDC00 ≤ unit ∧ unit < 0xE000 then some (Char.ofNat 0xFFFD, rest)
  else some (Char.ofNat unit, rest)

/-- The character that a one-letter escape stands for. -/
def simpleEscape? : Char → Option Char
  | '"' => some '"'
  | '\\' => some '\\'
  | '/' => some '/'
  | 'b' => some '\x08'
  | 'f' => some '\x0c'
  | 'n' => some '\n'
  | 'r' => some '\r'
  | 't' => some '\t'
  | _ => none

/-- The rest of a string after its opening quote, and what follows the closing one. -/
def readString? : Nat → List Char → List Char → Option (String × List Char)
  | 0, _, _ => none
  | _ + 1, _, [] => none
  | fuel + 1, reversed, c :: rest =>
      if c = '"' then some (String.ofList reversed.reverse, rest)
      else if c = '\\' then
        match rest with
        | 'u' :: rest => do
            let (c, rest) ← readUnicodeEscape? rest
            readString? fuel (c :: reversed) rest
        | e :: rest => do
            let c ← simpleEscape? e
            readString? fuel (c :: reversed) rest
        | [] => none
      else if c.toNat < 0x20 then none
      else readString? fuel (c :: reversed) rest

def digitsValue (digits : List Char) : Nat :=
  digits.foldl (fun n c => n * 10 + (c.toNat - '0'.toNat)) 0

def isDigit (c : Char) : Bool := '0' ≤ c && c ≤ '9'

/-- An integer is read only up to this many digits. -/
def maxIntegerDigits : Nat := 4300

/-- The digits after a point, if the text starts with a point and a digit. -/
def fractionDigits (text : List Char) : List Char :=
  match text with
  | '.' :: rest => rest.takeWhile isDigit
  | _ => []

/-- The exponent at the start of a text and its length: a letter, a sign if there is one, and
digits. -/
def readExponent? (text : List Char) : Option (Int × Nat) :=
  match text with
  | e :: rest =>
      if e = 'e' ∨ e = 'E' then
        let (negative, signLength, body) : Bool × Nat × List Char := match rest with
          | '-' :: body => (true, 1, body)
          | '+' :: body => (false, 1, body)
          | body => (false, 0, body)
        let digits := body.takeWhile isDigit
        if digits.isEmpty then none
        else
          let value : Int := digitsValue digits
          some (if negative then -value else value, 1 + signLength + digits.length)
      else none
  | [] => none

/-- A number at the start of a text. Without fraction and exponent it is an integer. -/
def readNumber? (text : List Char) : Option (Number × List Char) :=
  let (negative, body) : Bool × List Char := match text with
    | '-' :: body => (true, body)
    | body => (false, body)
  let whole := match body with
    | '0' :: _ => ['0']
    | _ => body.takeWhile isDigit
  if whole.isEmpty then none
  else
    let rest := body.drop whole.length
    let fraction := fractionDigits rest
    let rest := if fraction.isEmpty then rest else rest.drop (fraction.length + 1)
    let exponent := readExponent? rest
    if fraction.isEmpty && exponent.isNone then
      if maxIntegerDigits < whole.length then none
      else
        let value : Int := digitsValue whole
        some (.int (if negative then -value else value), rest)
    else
      let (power, length) := exponent.getD (0, 0)
      let digits := digitsValue (whole ++ fraction)
      some (.float (.ofDecimal negative digits (power - fraction.length)), rest.drop length)

/-- What follows a word at the start of a text. -/
def afterWord? (word : String) (text : List Char) : Option (List Char) :=
  if word.toList.isPrefixOf text then some (text.drop word.length) else none

/-- The words that stand for a value. -/
def words : List (String × Json) :=
  [("null", .null), ("true", .bool true), ("false", .bool false),
    ("NaN", .number (.float .nan)), ("Infinity", .number (.float (.infinite false))),
    ("-Infinity", .number (.float (.infinite true)))]

def readWord? (text : List Char) : Option (Json × List Char) :=
  words.findSome? fun (word, value) => (afterWord? word text).map (value, ·)

mutual

/-- A value at the start of a text that has no white space before it. -/
def readValue? : Nat → List Char → Option (Json × List Char)
  | 0, _ => none
  | fuel + 1, text =>
      match text with
      | '"' :: rest => (readString? (rest.length + 1) [] rest).map fun (s, rest) => (.string s, rest)
      | '[' :: rest =>
          let body := skipSpace rest
          match body with
          | ']' :: rest => some (.array [], rest)
          | _ => readItems? fuel [] body
      | '\x7b' :: rest =>
          let body := skipSpace rest
          match body with
          | '\x7d' :: rest => some (.object [], rest)
          | _ => readMembers? fuel [] body
      | _ =>
          readWord? text <|> (readNumber? text).map fun (n, rest) => (.number n, rest)

/-- The items of an array up to its closing bracket, after those read already. -/
def readItems? : Nat → List Json → List Char → Option (Json × List Char)
  | 0, _, _ => none
  | fuel + 1, reversed, text => do
      let (item, rest) ← readValue? fuel text
      match skipSpace rest with
      | ',' :: rest => readItems? fuel (item :: reversed) (skipSpace rest)
      | ']' :: rest => some (.array (item :: reversed).reverse, rest)
      | _ => none

/-- The members of an object up to its closing brace, after those read already. -/
def readMembers? : Nat → List (String × Json) → List Char → Option (Json × List Char)
  | 0, _, _ => none
  | fuel + 1, members, text =>
      match text with
      | '"' :: rest => do
          let (key, rest) ← readString? (rest.length + 1) [] rest
          match skipSpace rest with
          | ':' :: rest => do
              let (value, rest) ← readValue? fuel (skipSpace rest)
              let members := setMember key value members
              match skipSpace rest with
              | ',' :: rest => readMembers? fuel members (skipSpace rest)
              | '\x7d' :: rest => some (.object members, rest)
              | _ => none
          | _ => none
      | _ => none

end

/-- The value that a text holds, with nothing but white space around it. -/
def read? (text : List Char) : Option Json := do
  let (value, rest) ← readValue? (2 * text.length + 2) (skipSpace text)
  if (skipSpace rest).isEmpty then some value else none

end Json

end ManifestLens
