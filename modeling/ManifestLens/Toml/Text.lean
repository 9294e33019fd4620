import ManifestLens.Json.Reader
import ManifestLens.Text.Trim
import ManifestLens.Toml.Basic

/-!
# TOML strings

Basic strings know escapes, literal strings do not, and both may run over several lines inside three
quotes. Control characters other than the tab have to be escaped.
-/

namespace ManifestLens

namespace Toml

/-- A character that may not stand in a string or comment of one line. -/
def isControl (c : Char) : Bool := (c.toNat < 0x20 || c.toNat == 0x7f) && c != '\t'

/-- A character that may not stand in a string of several lines. -/
def isControlInLines (c : Char) : Bool := isControl c && c != '\n'

/-- White space within a line. -/
def isSpace (c : Char) : Bool := c == ' ' || c == '\t'

/-- White space, line ends included. -/
def isSpaceOrNewline (c : Char) : Bool := isSpace c || c == '\n'

/-- The character written with a number of hexadecimal digits. -/
def readScalar? (count : Nat) (text : List Char) : Option (Char × List Char) := do
  let digits := text.take count
  if digits.length < count then none
  else
    let values ← digits.mapM Json.hexValue?
    let n := values.foldl (fun n d => n * 16 + d) 0
    if n < 0xD800 ∨ (0xE000 ≤ n ∧ n < 0x110000) then some (Char.ofNat n, text.drop count) else none

/-- What an escape of one letter stands for. -/
def simpleEscape? : Char → Option Char
  | 'b' => some '\x08'
  | 't' => some '\t'
  | 'n' => some '\n'
  | 'f' => some '\x0c'
  | 'r' => some '\r'
  | 'e' => some '\x1b'
  | '"' => some '"'
  | '\\' => some '\\'
  | _ => none

/-- What follows a backslash at the end of a line, where the string goes on with the next character that is
no white space. -/
def skipLineEnd? (text : List Char) : Option (List Char) :=
  match text.dropWhile isSpace with
  | [] => some []
  | '\n' :: rest => some (rest.dropWhile isSpaceOrNewline)
  | _ => none

/-- What the text after a backslash stands for. -/
def readEscape? (overLines : Bool) : List Char → Option (List Char × List Char)
  | [] => none
  | c :: rest =>
      if overLines && isSpaceOrNewline c then (skipLineEnd? (c :: rest)).map ([], ·)
      else
        let width? : Option Nat := match c with
          | 'x' => some 2
          | 'u' => some 4
          | 'U' => some 8
          | _ => none
        match width? with
        | some width => (readScalar? width rest).map fun (c, rest) => ([c], rest)
        | none => (simpleEscape? c).map fun c => ([c], rest)

/-- The rest of a basic string after its opening quotes, and what follows the closing ones. -/
def readBasicFrom? (overLines : Bool) : Nat → List Char → List Char → Option (List Char × List Char)
  | 0, _, _ => none
  | _ + 1, _, [] => none
  | fuel + 1, reversed, c :: rest =>
      if c = '"' then
        if !overLines then some (reversed.reverse, rest)
        else
          match rest with
          | '"' :: '"' :: rest => some (reversed.reverse, rest)
          | _ => readBasicFrom? overLines fuel (c :: reversed) rest
      else if c = '\\' then do
        let (chars, rest) ← readEscape? overLines rest
        readBasicFrom? overLines fuel (chars.reverse ++ reversed) rest
      else if if overLines then isControlInLines c else isControl c then none
      else readBasicFrom? overLines fuel (c :: reversed) rest

/-- A basic string after its opening quotes. -/
def readBasic? (overLines : Bool) (text : List Char) : Option (List Char × List Char) :=
  readBasicFrom? overLines (text.length + 1) [] text

/-- A literal string of one line after its opening quote. -/
def readLiteral? (text : List Char) : Option (List Char × List Char) := do
  let (body, rest) ← Text.cutAt? ['\''] text
  if body.any isControl then none else some (body, rest)

/-- A literal string of several lines after its opening quotes. -/
def readLiteralLines? (text : List Char) : Option (List Char × List Char) := do
  let (body, rest) ← Text.cutAt? ['\'', '\'', '\''] text
  if body.any isControlInLines then none else some (body, rest)

/-- Up to two quotes right before the closing ones belong to the string. -/
def takeExtraQuotes (quote : Char) (body : List Char) : List Char → List Char × List Char
  | a :: b :: rest =>
      if a = quote then
        if b = quote then (body ++ [quote, quote], rest) else (body ++ [quote], b :: rest)
      else (body, a :: b :: rest)
  | [a] => if a = quote then (body ++ [quote], []) else (body, [a])
  | [] => (body, [])

/-- The text without a line end at its start. -/
def dropNewline : List Char → List Char
  | '\n' :: rest => rest
  | text => text

/-- A string at the start of a text, and what follows it. Strings of several lines are read only where they
may stand. -/
def readString? (mayRunOver : Bool) (text : List Char) : Option (List Char × List Char) :=
  match text with
  | '"' :: '"' :: '"' :: rest =>
      if mayRunOver then
        (readBasic? true (dropNewline rest)).map fun (body, rest) => takeExtraQuotes '"' body rest
      else readBasic? false ('"' :: '"' :: rest)
  | '\'' :: '\'' :: '\'' :: rest =>
      if mayRunOver then
        (readLiteralLines? (dropNewline rest)).map fun (body, rest) => takeExtraQuotes '\'' body rest
      else readLiteral? ('\'' :: '\'' :: rest)
  | '"' :: rest => readBasic? false rest
  | '\'' :: rest => readLiteral? rest
  | _ => none

end Toml

end ManifestLens
