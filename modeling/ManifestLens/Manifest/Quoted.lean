import ManifestLens.Manifest.Span

/-!
# Quoted strings of a line

A manifest line is read up to its comment: the first `#` that stands outside quotes. The part before
it holds quoted strings, each opened by a single or double quote and closed by the next quote of the
same kind. A string left open runs to the end of the line, so that half-typed entries can be read.
-/

namespace ManifestLens

/-- A quotation mark. -/
def isQuote (c : Char) : Bool := c == '"' || c == '\''

/-- The quote that is open after a character. -/
def quoteAfter (quote : Option Char) (c : Char) : Option Char :=
  match quote with
  | some q => if c = q then none else some q
  | none => if isQuote c then some c else none

/-- The text up to the comment, where `quote` is the quote open so far. -/
def codeFrom (quote : Option Char) : List Char → List Char
  | [] => []
  | c :: rest =>
      if quote = none ∧ c = '#' then [] else c :: codeFrom (quoteAfter quote c) rest

/-- The part of a line before its comment. -/
def codePart (line : List Char) : List Char := codeFrom none line

/-- The column where the comment of a line starts, or the length of the line. -/
def codeEnd (line : List Char) : Nat := (codePart line).length

theorem codeFrom_prefix (quote : Option Char) (line : List Char) : codeFrom quote line <+: line := by
  induction line generalizing quote with
  | nil => simp [codeFrom]
  | cons c rest ih =>
      simp only [codeFrom]
      split
      · simp
      · simpa using ih _

theorem codePart_isPrefix (line : List Char) : codePart line <+: line := codeFrom_prefix none line

/-- A quoted string of a line. -/
structure QuotedString where
  /-- The column of the first character after the opening quote. -/
  column : Nat
  /-- The characters between the quotes. -/
  content : List Char
  /-- The string opens an array element: before its quote stands nothing, a bracket or a comma. -/
  isElement : Bool
deriving DecidableEq, Repr

namespace QuotedString

/-- A string that is being read: its quote, where its content starts, and the content so far in
reverse. -/
structure Partial where
  quote : Char
  column : Nat
  reversed : List Char
  isElement : Bool

/-- The string as far as it has been read. -/
def Partial.close (p : Partial) : QuotedString := ⟨p.column, p.reversed.reverse, p.isElement⟩

/-- A string that opens after the given last visible character is an array element. -/
def opensElement : Option Char → Bool
  | none => true
  | some c => c == '[' || c == ','

/-- The strings of the rest of a text, which starts at `column`; `last` is the last character before
it that is not blank, and `current` the string that is open. A line feed ends an open string. -/
def scan (column : Nat) (last : Option Char) (current : Option Partial) :
    List Char → List QuotedString
  | [] => (current.map Partial.close).toList
  | c :: rest =>
      let last' := if Text.isBlank c then last else some c
      match current with
      | none =>
          let opened : Option Partial :=
            if isQuote c then some ⟨c, column + 1, [], opensElement last⟩ else none
          scan (column + 1) last' opened rest
      | some p =>
          if c = p.quote ∨ c = '\n' then p.close :: scan (column + 1) last' none rest
          else scan (column + 1) last' (some { p with reversed := c :: p.reversed }) rest

/-- The quoted strings of a line before its comment. -/
def ofLine (line : List Char) : List QuotedString := scan 0 none none (codePart line)

/-- The quoted strings of a line that stand as array elements. -/
def elementsOfLine (line : List Char) : List QuotedString :=
  (ofLine line).filter QuotedString.isElement

end QuotedString

end ManifestLens
