import ManifestLens.Text.Character
import ManifestLens.Text.Table.CellWidth
import ManifestLens.Text.Trim

/-!
# Laying out text

Text is broken into lines at its line feeds, and a line that is wider than the terminal before a word. A word
stays with the blanks that follow it. What is still too wide is cut, and each line may be aligned.
-/

/-!
## Cells

A terminal shows text in cells of equal width. Most characters take one of them, an East Asian wide character
takes two, and marks and controls take none.
-/

namespace ManifestLens.Cells

open Text (inRanges)

/-- The cells that a character takes. -/
def ofChar (c : Char) : Nat :=
  let n := c.toNat
  if n < 0x20 then 0
  else if n < 0x7F then 1
  else if n < 0xA0 then 0
  else if inRanges Text.Table.noCell c then 0
  else if inRanges Text.Table.twoCells c then 2
  else 1

/-- The cells that a text takes. -/
def count (text : List Char) : Nat := (text.map ofChar).foldl (· + ·) 0

def blanks (n : Nat) : List Char := List.replicate n ' '

/-- The text in exactly so many cells: blanks follow a shorter one, and a longer one is cut. A wide character
that is cut through leaves a blank. -/
def fit : Nat → List Char → List Char
  | cells, [] => blanks cells
  | cells, c :: rest =>
      if ofChar c ≤ cells then c :: fit (cells - ofChar c) rest else blanks cells

/-- The text cut to at most so many cells. -/
def crop (cells : Nat) (text : List Char) : List Char :=
  if count text ≤ cells then text else fit cells text

/-- The text in pieces of at most so many cells, with `piece` collected so far. -/
def chop (cells : Nat) (piece : List Char) : List Char → List (List Char)
  | [] => if count piece = 0 then [] else [piece]
  | c :: rest =>
      if cells < count piece + ofChar c then piece :: chop cells [c] rest
      else chop cells (piece ++ [c]) rest

end ManifestLens.Cells

/-! ## Lines of cells -/

namespace ManifestLens

/-- How a line stands within its width. -/
inductive Alignment where
  /-- At the start, with nothing added. -/
  | natural
  | left
  | center
  | right
  /-- Stretched to the full width, apart from the last line. -/
  | stretched
deriving DecidableEq, Repr

/-- What becomes of a word that is wider than the line. -/
inductive Overflow where
  /-- It goes on in the next line. -/
  | fold
  /-- It ends in an ellipsis. -/
  | ellipsis
deriving DecidableEq, Repr

/-- How text is laid out. -/
structure Layout where
  alignment : Alignment := .natural
  overflow : Overflow := .fold
  /-- Lines are not broken before words. -/
  keepsLines : Bool := false
deriving DecidableEq, Repr

namespace Layout

open Cells (blanks count)

def tabWidth : Nat := 8

/-- A line with its tabs widened, given the width of what stands before. -/
def expandTabs (column : Nat) : List Char → List Char
  | [] => []
  | c :: rest =>
      if c = '\t' then
        let width := tabWidth - column % tabWidth
        blanks width ++ expandTabs (column + width) rest
      else c :: expandTabs (column + Cells.ofChar c) rest

/-- The words of a line, at most `fuel` of them. Each has the blanks that follow it, and the first one also
those before it. -/
def words : Nat → List Char → List (List Char)
  | 0, _ => []
  | fuel + 1, line =>
      let (before, rest) := line.span Text.isBlank
      let (body, rest) := rest.span (!Text.isBlank ·)
      let (after, rest) := rest.span Text.isBlank
      if body.isEmpty then [] else (before ++ body ++ after) :: words fuel rest

/-- A line that has been begun, if there is any of it. -/
def finished (line : List Char) : List (List Char) := if line.isEmpty then [] else [line]

/-- The lines that words fill, with `line` begun so far. -/
def fill (width : Nat) (overflow : Overflow) (line : List Char) : List (List Char) → List (List Char)
  | [] => finished line
  | word :: rest =>
      let size := count (Text.trimRight word)
      if count line + size ≤ width then fill width overflow (line ++ word) rest
      else if width < size && overflow == .fold then
        let pieces := Cells.chop width [] word
        finished line ++ pieces.dropLast ++ fill width overflow (pieces.getLast?.getD []) rest
      else finished line ++ fill width overflow word rest

/-- The line broken before words. -/
def breakLine (width : Nat) (overflow : Overflow) (line : List Char) : List (List Char) :=
  match words line.length line with
  | [] => [line]
  | words => fill width overflow [] words

/-- The line without the blanks at its end that stick out. -/
def trimOverhang (width : Nat) (line : List Char) : List Char :=
  let trailing := line.length - (Text.trimRight line).length
  line.take (line.length - min trailing (line.length - width))

def shorten (width : Nat) (overflow : Overflow) (line : List Char) : List Char :=
  if count line ≤ width then line
  else
    match overflow with
    | .fold => Cells.fit width line
    | .ellipsis => Cells.fit (width - 1) line ++ ['…']

/-- The widths of gaps of one blank each after so many blanks have been added, one to a gap, from the last gap
on and round again. -/
def gaps (count excess : Nat) : List Nat :=
  (List.range count).map fun index =>
    1 + excess / count + (if count - index ≤ excess % count then 1 else 0)

/-- The line stretched to the width by wider gaps between its words; a blank at its end is dropped. -/
def stretch (width : Nat) (line : List Char) : List Char :=
  let line := if line.getLast? == some ' ' then line.dropLast else line
  match Text.splitOn ' ' line with
  | [] => []
  | first :: rest =>
      first ++ ((gaps rest.length (width - count line)).zip rest).flatMap fun (gap, word) =>
        blanks gap ++ word

def align (layout : Layout) (width : Nat) (isLast : Bool) (line : List Char) : List Char :=
  let trimmed := shorten width layout.overflow (Text.trimRight line)
  match layout.alignment with
  | .natural => line
  | .left => Cells.fit width (shorten width layout.overflow line)
  | .center => Cells.fit width (blanks ((width - count trimmed) / 2) ++ trimmed)
  | .right => blanks (width - count trimmed) ++ trimmed
  | .stretched => if isLast then line else stretch width line

def lines (layout : Layout) (width : Nat) (text : List Char) : List (List Char) :=
  (Text.splitOn '\n' text).flatMap fun line =>
    let line := if line.contains '\t' then expandTabs 0 line else line
    let broken := if layout.keepsLines then [line] else breakLine width layout.overflow line
    let broken := broken.map (trimOverhang width)
    broken.mapIdx fun index line =>
      shorten width layout.overflow (layout.align width (index + 1 == broken.length) line)

end Layout

end ManifestLens
