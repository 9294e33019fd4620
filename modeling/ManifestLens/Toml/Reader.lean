import ManifestLens.Toml.Basic
import ManifestLens.Toml.Scalar

/-!
# Reading TOML

A document is a sequence of headers and of keys with their values. The reader keeps the tables made so far,
the header it is below, and the tables that dotted keys made since that header; those are closed when the
next header comes.
-/

namespace ManifestLens

namespace Toml

/-! ### Keys -/

def isKeyCharacter (c : Char) : Bool := Text.isAsciiAlnum c || c == '-' || c == '_'

def readKeyPiece? : List Char → Option (String × List Char)
  | [] => none
  | c :: rest =>
      if isKeyCharacter c then
        some (String.ofList (c :: rest.takeWhile isKeyCharacter), rest.dropWhile isKeyCharacter)
      else (readString? false (c :: rest)).map fun (body, rest) => (String.ofList body, rest)

/-- A dotted key, read in at most the given number of pieces. -/
def readKeyFrom? : Nat → List Char → Option (List String × List Char)
  | 0, _ => none
  | fuel + 1, text => do
      let (piece, rest) ← readKeyPiece? text
      match rest.dropWhile isSpace with
      | '.' :: rest =>
          let (pieces, rest) ← readKeyFrom? fuel (rest.dropWhile isSpace)
          some (piece :: pieces, rest)
      | rest => some ([piece], rest)

/-- A dotted key, and what follows it and the white space after it. -/
def readKey (text : List Char) : Except TomlFault (List String × List Char) :=
  match readKeyFrom? (text.length + 1) text with
  | some found => .ok found
  | none => .error .malformed

/-! ### Comments -/

/-- What follows a comment, if one starts here. -/
def skipComment (text : List Char) : Except TomlFault (List Char) :=
  match text with
  | '#' :: rest =>
      if (rest.takeWhile (· != '\n')).any isControl then .error .malformed
      else .ok (rest.dropWhile (· != '\n'))
  | text => .ok text

/-- What follows white space, line ends and comments. -/
def skipFiller : Nat → List Char → Except TomlFault (List Char)
  | 0, _ => .error .malformed
  | fuel + 1, text =>
      match text.dropWhile isSpaceOrNewline with
      | '#' :: rest => do skipFiller fuel (← skipComment ('#' :: rest))
      | rest => .ok rest

/-- What follows white space, line ends and comments. -/
def skipAll (text : List Char) : Except TomlFault (List Char) := skipFiller (text.length + 1) text

/-! ### Values -/

/-- What is demanded, or a fault. -/
def demand {α : Type} : Option α → Except TomlFault α
  | some value => .ok value
  | none => .error .malformed

mutual

def readValue : Nat → List Char → Except TomlFault (Toml × List Char)
  | 0, _ => .error .malformed
  | fuel + 1, text =>
      match text with
      | '[' :: rest => do
          let (elements, rest) ← readElements fuel (← skipAll rest)
          return (.array elements, rest)
      | '\x7b' :: rest => do
          let (members, rest) ← readMembers fuel [] (← skipAll rest)
          return (.table (TomlNode.finish members), rest)
      | text => readScalar text

/-- The elements of an array up to its closing bracket. -/
def readElements : Nat → List Char → Except TomlFault (List Toml × List Char)
  | 0, _ => .error .malformed
  | fuel + 1, text =>
      match text with
      | ']' :: rest => .ok ([], rest)
      | text => do
          let (value, rest) ← readValue fuel text
          match ← skipAll rest with
          | ']' :: rest => return ([value], rest)
          | ',' :: rest => do
              let (values, rest) ← readElements fuel (← skipAll rest)
              return (value :: values, rest)
          | _ => throw .malformed

/-- The members of a table up to its closing brace, after those read so far. -/
def readMembers : Nat → TomlNode.Members → List Char →
    Except TomlFault (TomlNode.Members × List Char)
  | 0, _, _ => .error .malformed
  | fuel + 1, members, text =>
      match text with
      | '\x7d' :: rest => .ok (members, rest)
      | text => do
          let (key, rest) ← readKey text
          let rest ← demand (readMark? '=' rest)
          let (value, rest) ← readValue fuel (rest.dropWhile isSpace)
          let members ← demand (TomlNode.insert [] key value members)
          match ← skipAll rest with
          | '\x7d' :: rest => return (members, rest)
          | ',' :: rest => do readMembers fuel members (← skipAll rest)
          | _ => throw .malformed

end

/-! ### Documents -/

/-- How far a document has been read. -/
structure DocumentReader where
  members : TomlNode.Members := []
  /-- The header that keys stand below. -/
  header : List String := []
  /-- The tables that dotted keys made since that header. -/
  dotted : List (List String) := []

namespace DocumentReader

/-- The tables made by dotted keys are closed. -/
def settled (reader : DocumentReader) : DocumentReader :=
  { reader with
    members := reader.dotted.foldl (fun members path => TomlNode.close path members) reader.members
    dotted := [] }

/-- Reads a header after its opening bracket or brackets. -/
def header? (reader : DocumentReader) (isArray : Bool) (text : List Char) :
    Except TomlFault (DocumentReader × List Char) := do
  let (path, rest) ← readKey (text.dropWhile isSpace)
  let add := if isArray then TomlNode.appendTable else TomlNode.openTable
  let members ← demand (add path reader.settled.members)
  let rest ← demand (readMark? ']' rest)
  let rest ← if isArray then demand (readMark? ']' rest) else pure rest
  return ({ members, header := path, dotted := [] }, rest)

/-- Reads a key with its value. -/
def member? (reader : DocumentReader) (text : List Char) :
    Except TomlFault (DocumentReader × List Char) := do
  let (key, rest) ← readKey text
  let rest ← demand (readMark? '=' rest)
  let (value, rest) ← readValue (2 * rest.length + 2) (rest.dropWhile isSpace)
  let members ← demand (TomlNode.insert reader.header key value reader.members)
  return ({ reader with
      members, dotted := reader.dotted ++ TomlNode.dottedTables reader.header key }, rest)

/-- Reads a header or a member, unless the line holds none. -/
def statement (reader : DocumentReader) (text : List Char) :
    Except TomlFault (DocumentReader × List Char) :=
  match text with
  | [] => .ok (reader, [])
  | '\n' :: _ | '#' :: _ => .ok (reader, text)
  | '[' :: '[' :: rest => reader.header? true rest
  | '[' :: rest => reader.header? false rest
  | text => reader.member? text

/-- Reads lines to the end of the text, at most the given number. -/
def readLines : Nat → DocumentReader → List Char → Except TomlFault DocumentReader
  | 0, _, _ => .error .malformed
  | fuel + 1, reader, text => do
      let (reader, rest) ← reader.statement (text.dropWhile isSpace)
      match ← skipComment (rest.dropWhile isSpace) with
      | [] => return reader
      | '\n' :: rest => readLines fuel reader rest
      | _ => throw .malformed

end DocumentReader

/-- The text with a line feed for each line end of two characters. -/
def withPlainLineEnds : List Char → List Char
  | '\r' :: '\n' :: rest => '\n' :: withPlainLineEnds rest
  | c :: rest => c :: withPlainLineEnds rest
  | [] => []

/-- The members of the table that a document defines. -/
def readDocument (text : List Char) : Except TomlFault (List (String × Toml)) := do
  let text := withPlainLineEnds text
  let reader ← DocumentReader.readLines (text.length + 1) {} text
  return TomlNode.finish reader.members

end Toml

end ManifestLens
