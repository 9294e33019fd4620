import ManifestLens.Console.Table
import ManifestLens.Json.Basic

/-!
# The screen

What a user sees and types: messages, tables and questions. Everything that is printed is read as markup and laid
out for the width of the terminal; only the text of a question is protected first.
-/

namespace ManifestLens

/-- How a message is meant. -/
inductive MessageKind where
  | success
  | error
  | warning
deriving DecidableEq, Repr

namespace MessageKind

/-- What a message begins with unless something else is asked for. -/
def mark : MessageKind → String
  | .success => "[OK]"
  | .error => "[ERROR]"
  | .warning => "[WARNING]"

end MessageKind

/-- A terminal with what has been printed on it, and what the user is going to type. -/
structure Screen where
  width : Nat := 80
  /-- The pictures that are shown for their names. -/
  pictures : List (String × String) := []
  shown : List Char := []
  typed : List Char := []
deriving DecidableEq, Repr

namespace Screen

/-- Puts text on the screen as it is. -/
def put (screen : Screen) (text : List Char) : Screen :=
  { screen with shown := screen.shown ++ text }

/-- Puts lines on the screen, each with its end. -/
def putLines (screen : Screen) (lines : List (List Char)) : Screen :=
  screen.put (lines.flatMap (· ++ ['\n']))

/-- The lines of a text with markup on the screen. -/
def laidOut (screen : Screen) (markup : List Char) : Except MarkupFault (List (List Char)) :=
  (Markup.plain screen.pictures markup).map (({} : Layout).lines screen.width)

def print (screen : Screen) (markup : String) : Except MarkupFault Screen :=
  (screen.laidOut markup.toList).map screen.putLines

/-- Prints a message after its mark. -/
def say (screen : Screen) (kind : MessageKind) (message : String) (mark : String := kind.mark) :
    Except MarkupFault Screen :=
  screen.print (mark ++ " " ++ message)

/-- Prints a table. One without rows leaves no trace. -/
def showTable (screen : Screen) (table : Table) : Except MarkupFault Screen :=
  if table.rows.isEmpty then .ok screen
  else (table.plain screen.pictures).map fun table => screen.putLines (table.lines screen.width)

/-! ### Questions -/

/-- The answer that a line gives, if it gives one. -/
def answer? (line : List Char) : Option Bool :=
  let word := String.ofList (Text.lower (Text.trim line))
  if word = "y" ∨ word = "yes" then some true
  else if word = "n" ∨ word = "no" then some false
  else none

/-- Asks a question, to which every other answer than yes or no means the default. Where no answer comes,
it is no. -/
def confirm (screen : Screen) (question : String) (default : Bool := false) :
    Except MarkupFault (Bool × Screen) := do
  let prompt := question ++ if default then " [Y/n]: " else " [y/N]: "
  let lines ← screen.laidOut (Markup.escape prompt.toList)
  let asked := screen.put (Text.joinWith ['\n'] lines)
  if screen.typed.isEmpty then return (false, asked.put ['\n'])
  else
    let line := screen.typed.takeWhile (· != '\n')
    let asked := { asked with typed := screen.typed.drop (line.length + 1) }
    return ((answer? line).getD default, asked)

end Screen

namespace Table

/-- The table of some records: a column for each header, or for each member of the first record if no headers
are given. A record without a member has an empty cell there. -/
def ofRecords (records : List (List (String × Json))) (headers : Option (List String) := none)
    (column : String → TableColumn := fun header => { header := header.toList }) : Table :=
  let headers := headers.getD ((records.head?.getD []).map (·.1))
  { columns := headers.map column
    rows := records.map fun record => headers.map fun header =>
      match record.find? (·.1 == header) with
      | some (_, value) => value.display.toList
      | none => [] }

end Table

end ManifestLens
