import ManifestLens.Console.Layout
import ManifestLens.Console.Markup
import ManifestLens.Text.Trim

/-!
# Tables

A table has columns with headers, and rows of cells. Each column is as wide as its widest entry with a blank on
either side. A table that is too wide for the terminal loses width in its widest columns first. Texts of
a table may hold markup, which is read before anything is measured.
-/

namespace ManifestLens

/-- A column of a table. -/
structure TableColumn where
  header : List Char
  alignment : Alignment := .natural
  /-- Cells are not broken into lines, and the column gives way last. -/
  keepsLines : Bool := false
deriving DecidableEq, Repr

/-- A table. -/
structure Table where
  columns : List TableColumn
  rows : List (List (List Char))
  title : Option (List Char) := none
  caption : Option (List Char) := none
deriving DecidableEq, Repr

/-- The lines that a border is drawn with. -/
structure Rule where
  left : Char
  stroke : Char
  divider : Char
  right : Char

namespace Rule

/-- A rule above, between or below rows. -/
def line (rule : Rule) (widths : List Nat) : List Char :=
  rule.left ::
    Text.joinWith [rule.divider] (widths.map fun width => List.replicate width rule.stroke) ++
    [rule.right]

/-- The rule above the header. -/
def top : Rule := ⟨'┏', '━', '┳', '┓'⟩

/-- The rule below the header. -/
def middle : Rule := ⟨'┡', '━', '╇', '┩'⟩

/-- The rule below the rows. -/
def bottom : Rule := ⟨'└', '─', '┴', '┘'⟩

end Rule

namespace Table

/-- The table with its texts as they are shown. -/
def plain (table : Table) (pictures : List (String × String)) : Except MarkupFault Table := do
  let columns ← table.columns.mapM fun column => do
    return { column with header := ← Markup.plain pictures column.header }
  let rows ← table.rows.mapM fun row => row.mapM (Markup.plain pictures)
  let title ← table.title.mapM (Markup.plain pictures)
  let caption ← table.caption.mapM (Markup.plain pictures)
  return { columns, rows, title, caption }

/-! ### Widths of columns -/

/-- The blanks beside an entry. -/
def margin : Nat := 2

/-- The width of an entry: that of its widest line. -/
def entryWidth (text : List Char) : Nat :=
  ((Text.splitLines text).map Cells.count).foldl max 0

/-- The width that a column asks for. -/
def wantedWidth (column : TableColumn) (cells : List (List Char)) : Nat :=
  (cells.map entryWidth).foldl max (entryWidth column.header) + margin

/-- The width that columns take together. -/
def total (widths : List Nat) : Nat := widths.foldl (· + ·) 0

/-- A quotient rounded to the nearest number, and a half to the even one. -/
def roundedQuotient (dividend divisor : Nat) : Nat :=
  let floor := dividend / divisor
  let twice := 2 * (dividend % divisor)
  if twice < divisor || (twice == divisor && floor % 2 == 0) then floor else floor + 1

/-- Takes an amount of width from those columns that are chosen, in equal parts but never more than `most`
from one. -/
def reduceFrom (excess chosen most : Nat) : List (Nat × Bool) → List Nat
  | [] => []
  | (width, false) :: rest => width :: reduceFrom excess chosen most rest
  | (width, true) :: rest =>
      let part := min most (roundedQuotient excess chosen)
      (width - part) :: reduceFrom (excess - part) (chosen - 1) most rest

/-- Takes width from the widest of the columns that may be broken, down to that of the next ones, in at most
`fuel` rounds until the columns fit. -/
def collapse : Nat → Nat → List (Nat × Bool) → List Nat
  | 0, _, columns => columns.map (·.1)
  | fuel + 1, available, columns =>
      let excess := total (columns.map (·.1)) - available
      let breakable := (columns.filter (·.2)).map (·.1)
      let widest := breakable.foldl max 0
      let next := (breakable.filter (· != widest)).foldl max 0
      if excess = 0 || widest ≤ next then columns.map (·.1)
      else
        let chosen := columns.map fun (width, isBreakable) => (width, isBreakable && width == widest)
        let widths := reduceFrom excess (chosen.filter (·.2)).length (min excess (widest - next)) chosen
        collapse fuel available (widths.zip (columns.map (·.2)))

/-- Takes an amount of width from all columns that have any, in equal parts but never more than they have. -/
def reduceAll (excess count : Nat) : List Nat → List Nat
  | [] => []
  | 0 :: rest => 0 :: reduceAll excess count rest
  | width :: rest =>
      let part := min width (roundedQuotient excess count)
      (width - part) :: reduceAll (excess - part) (count - 1) rest

def cellsOf (table : Table) (index : Nat) : List (List Char) :=
  table.rows.map fun row => row[index]?.getD []

/-- The widths of the columns when so many cells are available for all of them. -/
def widths (table : Table) (available : Nat) : List Nat :=
  let wanted := table.columns.mapIdx fun index column =>
    max 1 (min available (wantedWidth column (table.cellsOf index)))
  if total wanted ≤ available then wanted
  else
    let collapsed := collapse (total wanted) available (wanted.zip (table.columns.map (!·.keepsLines)))
    let reduced :=
      if total collapsed ≤ available then collapsed
      else reduceAll (total collapsed - available) (collapsed.filter (0 < ·)).length collapsed
    reduced.mapIdx fun index width =>
      match table.columns[index]? with
      | some column => min width (wantedWidth column (table.cellsOf index))
      | none => width

/-! ### Drawing -/

def entryLines (column : TableColumn) (width : Nat) (text : List Char) : List (List Char) :=
  let inner := width - margin
  if inner = 0 then []
  else
    let layout : Layout := ⟨column.alignment, .ellipsis, column.keepsLines⟩
    (layout.lines inner text).map fun line => ' ' :: Cells.fit inner line ++ [' ']

/-- The lines of a row between its borders. Entries with fewer lines than others are filled up, in a header
from above. -/
def rowLines (columns : List TableColumn) (widths : List Nat) (isHeader : Bool) (border : Char)
    (entries : List (List Char)) : List (List Char) :=
  let cells := (columns.zip (widths.zip entries)).map fun (column, width, text) =>
    (width, entryLines column width text)
  let height := (cells.map (·.2.length)).foldl max 1
  let filled := cells.map fun (width, lines) =>
    let missing := List.replicate (height - lines.length) (Cells.blanks width)
    if isHeader then missing ++ lines else lines ++ missing
  (List.range height).map fun index =>
    border :: Text.joinWith [border] (filled.map fun lines => lines[index]?.getD []) ++ [border]

/-- The lines of a title or caption, centred above or below the table. -/
def banner (width : Nat) : Option (List Char) → List (List Char)
  | none => []
  | some text => { alignment := .center : Layout }.lines width text

/-- The lines of a table without markup on a terminal of some width. -/
def lines (table : Table) (terminal : Nat) : List (List Char) :=
  if table.columns.isEmpty then [[]]
  else
    let borders := table.columns.length + 1
    let widths := table.widths (terminal - borders)
    let row := rowLines table.columns widths
    let width := total widths + borders
    let body := Rule.top.line widths :: row true '┃' (table.columns.map (·.header)) ++
      Rule.middle.line widths :: table.rows.flatMap (row false '│') ++ [Rule.bottom.line widths]
    (banner width table.title ++ body ++ banner width table.caption).map (Cells.crop terminal)

end Table

end ManifestLens
