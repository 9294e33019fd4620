import ManifestLens.Text.Character

/-!
# Trimming and splitting

Cutting text at its ends and at separators. `splitOn` keeps empty pieces, so joining the pieces
with the separator gives the text back (`joinWith_splitOn`).
-/

namespace ManifestLens.Text

/-- The text without its leading characters of a class. -/
def dropLeading (p : Char → Bool) (text : List Char) : List Char := text.dropWhile p

/-- The text without its trailing characters of a class. -/
def dropTrailing (p : Char → Bool) : List Char → List Char
  | [] => []
  | c :: rest =>
      match dropTrailing p rest with
      | [] => if p c then [] else [c]
      | kept => c :: kept

/-- The text without the characters of a class at either end. -/
def dropAround (p : Char → Bool) (text : List Char) : List Char :=
  dropTrailing p (dropLeading p text)

/-- The text without leading white space. -/
abbrev trimLeft (text : List Char) : List Char := dropLeading isBlank text

/-- The text without trailing white space. -/
abbrev trimRight (text : List Char) : List Char := dropTrailing isBlank text

/-- The text without white space at either end. -/
abbrev trim (text : List Char) : List Char := dropAround isBlank text

/-- The pieces of a text between the occurrences of a separator, empty ones included. -/
def splitOn (separator : Char) : List Char → List (List Char)
  | [] => [[]]
  | c :: rest =>
      if c = separator then [] :: splitOn separator rest
      else
        match splitOn separator rest with
        | [] => [[c]]
        | piece :: pieces => (c :: piece) :: pieces

/-- The pieces written one after another with a separator between them. -/
def joinWith (separator : List Char) : List (List Char) → List Char
  | [] => []
  | [piece] => piece
  | piece :: pieces => piece ++ separator ++ joinWith separator pieces

theorem splitOn_ne_nil (separator : Char) (text : List Char) : splitOn separator text ≠ [] := by
  cases text with
  | nil => simp [splitOn]
  | cons c rest =>
      simp only [splitOn]
      split
      · simp
      · split <;> simp

/-- Splitting loses nothing: the pieces joined by the separator are the text. -/
theorem joinWith_splitOn (separator : Char) (text : List Char) :
    joinWith [separator] (splitOn separator text) = text := by
  induction text with
  | nil => rfl
  | cons c rest ih =>
      simp only [splitOn]
      split
      · next h =>
          subst h
          cases hsplit : splitOn c rest with
          | nil => exact absurd hsplit (splitOn_ne_nil c rest)
          | cons piece pieces =>
              rw [hsplit] at ih
              simp [joinWith, ih]
      · cases hsplit : splitOn separator rest with
        | nil => exact absurd hsplit (splitOn_ne_nil separator rest)
        | cons piece pieces =>
            cases pieces <;> simp_all [joinWith]

/-- The text up to its first occurrence of a word, and what follows the word. -/
def cutAt? (word : List Char) : List Char → Option (List Char × List Char)
  | [] => if word = [] then some ([], []) else none
  | c :: rest =>
      if word.isPrefixOf (c :: rest) then some ([], (c :: rest).drop word.length)
      else (cutAt? word rest).map fun (before, after) => (c :: before, after)

def hasInfix (word text : List Char) : Bool := (cutAt? word text).isSome

/-- The text with every occurrence of a character replaced by a word. -/
def replaceChar (c : Char) (word text : List Char) : List Char :=
  text.flatMap fun x => if x = c then word else [x]

end ManifestLens.Text

/-!
## Lines

Text breaks into lines in two ways. `splitLines` breaks at every Unicode line break, takes a
carriage return with a following line feed as one break, and has no empty last line after a final
break. `splitOn '\n'` breaks at line feeds alone.
-/

namespace ManifestLens.Text

/-- The lines still to come, with `line` holding in reverse what the current one has so far. An
empty line counts only if a break ends it. -/
def splitLinesFrom (line : List Char) : List Char → List (List Char)
  | [] => if line.isEmpty then [] else [line.reverse]
  | '\r' :: '\n' :: rest => line.reverse :: splitLinesFrom [] rest
  | c :: rest =>
      if isLineBreak c then line.reverse :: splitLinesFrom [] rest
      else splitLinesFrom (c :: line) rest

/-- The lines of a text without their terminators. -/
def splitLines (text : List Char) : List (List Char) := splitLinesFrom [] text

end ManifestLens.Text
