import ManifestLens.Manifest.Kind
import ManifestLens.Manifest.Span
import ManifestLens.Text.Quoting

/-!
# Text buffers

A snapshot of a manifest's text with lines and positions. Lines end at line feeds; carriage returns
at the end of a line do not belong to it. Offsets count from the start of the text, positions by line
and character.
-/

namespace ManifestLens

/-- A location by line and character, both from zero. Either may lie outside the text. -/
structure Position where
  line : Int
  character : Int
deriving DecidableEq, Repr

/-- Why a buffer operation fails. -/
inductive BufferFailure where
  /-- There is no line with the given number in a text of `count` lines. -/
  | lineOutOfRange (line : Int) (count : Nat)
  | overlappingEdits
deriving DecidableEq, Repr

namespace BufferFailure

def message : BufferFailure → String
  | .lineOutOfRange line count =>
      "Line " ++ toString line ++ " out of range (0.." ++ toString ((count : Int) - 1) ++ ")"
  | .overlappingEdits => "Overlapping text edits"

end BufferFailure

/-- The text of a manifest, with its path and kind as far as they are known. -/
structure Buffer where
  text : List Char
  path : Option (List Char) := none
  explicitKind : Option ManifestKind := none

namespace Buffer

/-- The kind of the manifest: as given, or else by the file name. An unknown file is read as TOML. -/
def kind (buffer : Buffer) : ManifestKind :=
  (buffer.explicitKind <|> buffer.path.bind ManifestKind.ofFileName?).getD .pyproject

/-- The lines with everything before their line feeds. -/
def rawLines (buffer : Buffer) : List (List Char) := Text.splitOn '\n' buffer.text

/-- A line without the carriage returns at its end. -/
def withoutReturns (line : List Char) : List Char := Text.dropTrailing (· == '\r') line

def lines (buffer : Buffer) : List (List Char) := buffer.rawLines.map withoutReturns

/-- The number of lines; a text without line feeds has one. -/
def lineCount (buffer : Buffer) : Nat := buffer.rawLines.length

/-- The line with a given number. -/
def lineAt? (buffer : Buffer) (line : Int) : Option (List Char) :=
  if line < 0 then none else buffer.lines[line.toNat]?

/-- The line with a given number, or the failure that there is none. -/
def lineAt (buffer : Buffer) (line : Int) : Except BufferFailure (List Char) :=
  match buffer.lineAt? line with
  | some text => .ok text
  | none => .error (.lineOutOfRange line buffer.lineCount)

/-- A number moved into the range from zero to a bound. -/
def clamp (value : Int) (bound : Nat) : Nat := min value.toNat bound

/-- The offset where a line of the given lines starts. -/
def lineStart : List (List Char) → Nat → Nat
  | line :: rest, n + 1 => line.length + 1 + lineStart rest n
  | _, _ => 0

/-- The offset of a position. A line or character outside the text is moved to the nearest one. -/
def offsetAt (buffer : Buffer) (position : Position) : Nat :=
  let raw := buffer.rawLines
  let line := clamp position.line (raw.length - 1)
  let length := (withoutReturns (raw.getD line [])).length
  lineStart raw line + clamp position.character length

/-- The position of an offset in the given lines, of which the first has the number `line`. -/
def positionIn (line : Nat) (offset : Nat) : List (List Char) → Nat × Nat
  | [] => (line, 0)
  | [last] => (line, min offset (withoutReturns last).length)
  | first :: rest =>
      if offset ≤ first.length then (line, min offset (withoutReturns first).length)
      else positionIn (line + 1) (offset - (first.length + 1)) rest

/-- The position of an offset, which is moved into the text if it lies outside. -/
def positionAt (buffer : Buffer) (offset : Int) : Nat × Nat :=
  positionIn 0 (clamp offset buffer.text.length) buffer.rawLines

/-! ### Words -/

/-- A character of a word after the first. -/
def isWordPart (c : Char) : Bool := Text.isAsciiAlnum c || c == '_' || c == '.' || c == '-'

/-- The words of the rest of a line, which starts at `column`; `started` is where the current word
began if one is open. A word starts with a letter or digit. -/
def wordsFrom (column : Nat) (started : Option Nat) : List Char → List Span
  | [] => (started.map fun start => Span.between start column).toList
  | c :: rest =>
      match started with
      | some start =>
          if isWordPart c then wordsFrom (column + 1) (some start) rest
          else Span.between start column :: wordsFrom (column + 1) none rest
      | none =>
          wordsFrom (column + 1) (if Text.isAsciiAlnum c then some column else none) rest

/-- The columns of the first word that touches a position. -/
def wordAt? (buffer : Buffer) (position : Position) : Option Span :=
  (buffer.lineAt? position.line).bind fun line =>
    (wordsFrom 0 none line).find? (·.contains position.character)

/-- The buffer as text: its path and the number of its lines. -/
def inspect (buffer : Buffer) : String :=
  let path := match buffer.path with
    | none => "None"
    | some path => String.ofList (Text.quoted path)
  "TextDocument(path=" ++ path ++ ", lines=" ++ toString buffer.lineCount ++ ")"

end Buffer

end ManifestLens

/-!
## Edits

An edit replaces a range of columns in one line. Several edits are applied at once, so that all their
positions refer to the text before; overlapping edits are refused.
-/

namespace ManifestLens

/-- Replaces columns of a line by a text. -/
structure Edit where
  line : Int
  span : Span
  text : List Char
deriving DecidableEq, Repr

/-- A range of offsets and the text that replaces it. -/
structure Replacement where
  start : Nat
  stop : Nat
  text : List Char
deriving DecidableEq, Repr

namespace Replacement

/-- The order in which replacements stand in the text. -/
def precedes (a b : Replacement) : Bool :=
  a.start < b.start || (a.start == b.start && a.stop ≤ b.stop)

/-- Of some two neighbours the second one starts before the first one ends. -/
def overlap : List Replacement → Bool
  | a :: b :: rest => b.start < a.stop || overlap (b :: rest)
  | _ => false

def apply (replacement : Replacement) (text : List Char) : List Char :=
  text.take replacement.start ++ replacement.text ++ text.drop replacement.stop

end Replacement

namespace Buffer

/-- The range of offsets that an edit replaces. -/
def replacement (buffer : Buffer) (edit : Edit) : Replacement :=
  ⟨buffer.offsetAt ⟨edit.line, edit.span.start⟩, buffer.offsetAt ⟨edit.line, edit.span.stop⟩,
    edit.text⟩

/-- The text after the edits, which are applied from the last one in the text to the first. -/
def withEdits (buffer : Buffer) (edits : List Edit) : Except BufferFailure (List Char) :=
  let ranges := (edits.map buffer.replacement).mergeSort Replacement.precedes
  if Replacement.overlap ranges then .error .overlappingEdits
  else .ok (ranges.foldr Replacement.apply buffer.text)

end Buffer

end ManifestLens
