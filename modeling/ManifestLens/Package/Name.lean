import ManifestLens.Text.Character
import ManifestLens.Text.Trim

/-!
# Package names

Which texts may name a package, and when two spellings name the same one. Spellings that differ in
case, or in the choice and number of the separators `-`, `_` and `.`, are one package.
-/

namespace ManifestLens

namespace Package

/-- The separators that normalisation identifies. -/
def isSeparator (c : Char) : Bool := c == '-' || c == '_' || c == '.'

/-- The text with every run of separators written as one hyphen; `inRun` tells that the character
before belongs to a run already written. -/
def collapseSeparators (inRun : Bool) : List Char → List Char
  | [] => []
  | c :: rest =>
      if isSeparator c then
        if inRun then collapseSeparators true rest else '-' :: collapseSeparators true rest
      else c :: collapseSeparators false rest

/-- The spelling under which a package is looked up. -/
def normalizeName (name : List Char) : List Char := Text.lower (collapseSeparators false name)

/-- A character that may stand in a name after the first. -/
def isNameChar (c : Char) : Bool :=
  Text.isAsciiAlnum c || c == '.' || c == '_' || c == '-'

/-- A package name: a letter or digit, then at least one more name character. A final line feed is
let pass. -/
def isName (text : List Char) : Bool :=
  let body := match text.getLast? with
    | some '\n' => text.dropLast
    | _ => text
  match body with
  | first :: second :: rest =>
      Text.isAsciiAlnum first && (second :: rest).all isNameChar
  | _ => false

end Package

/-- Decides which texts may be taken for a package name: those that have the form of one, except
the words that are denied in any case. -/
structure NameRule where
  denied : List (List Char)

namespace NameRule

/-- Words that have the form of a name and name no package. -/
def defaultDenied : List (List Char) :=
  ["if", "or", "and", "not", "in", "is", "for", "while", "def", "class", "try", "except",
    "finally", "with", "as", "import", "from", "return", "pass", "break", "continue", "true",
    "false", "none", "abc", "test", "example"].map String.toList

/-- The rule used unless another is given. -/
def standard : NameRule := ⟨defaultDenied⟩

/-- The text may name a package. A name is ASCII, so ASCII lower case compares it in any case. -/
def accepts (rule : NameRule) (name : List Char) : Bool :=
  Package.isName name && !rule.denied.contains (Text.asciiLower name)

end NameRule

end ManifestLens
