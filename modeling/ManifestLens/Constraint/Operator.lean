import ManifestLens.Text.Trim

/-!
# Constraint operators

The operators that may lead a version constraint: the relations of the packaging standard, and the
caret and tilde shorthands. Some operators begin another one, so detection tries the longest first. It
looks only at the symbols in front of the version, which end at a digit, at white space or at a wildcard.
-/

namespace ManifestLens

/-- A relation between a release and the version of a specifier. -/
inductive Relation where
  /-- The release is spelled as the specifier says. -/
  | arbitrary
  /-- A later release of the same series. -/
  | compatible
  | equal
  | notEqual
  | atLeast
  | atMost
  | above
  | below
deriving DecidableEq, Repr

namespace Relation

def text : Relation → List Char
  | .arbitrary => ['=', '=', '=']
  | .compatible => ['~', '=']
  | .equal => ['=', '=']
  | .notEqual => ['!', '=']
  | .atLeast => ['>', '=']
  | .atMost => ['<', '=']
  | .above => ['>']
  | .below => ['<']

/-- Every relation, longer ones before shorter ones. -/
def all : List Relation :=
  [.arbitrary, .compatible, .equal, .notEqual, .atLeast, .atMost, .above, .below]

end Relation

/-- An operator that leads a version constraint. -/
inductive Operator where
  | standard (relation : Relation)
  /-- Any release up to the next change of the first component that is not zero. -/
  | caret
  /-- Any release up to the next minor one. -/
  | tilde
deriving DecidableEq, Repr

namespace Operator

def text : Operator → List Char
  | .standard relation => relation.text
  | .caret => ['^']
  | .tilde => ['~']

/-- Every operator, longer ones before shorter ones. -/
def all : List Operator := Relation.all.map .standard ++ [.caret, .tilde]

theorem mem_all (operator : Operator) : operator ∈ all := by
  rcases operator with relation | _ | _
  · cases relation <;> decide
  · decide
  · decide

/-- The operators that are no relations of the packaging standard. -/
def shorthands : List Operator := [.caret, .tilde]

/-- A character that may belong to an operator: no digit, no white space and no wildcard. -/
def isSymbol (c : Char) : Bool := !(Text.isDecimal c || Text.isBlank c || c == '*')

/-- The symbols that a constraint starts with, after any white space. -/
def leadingSymbols (constraint : List Char) : List Char :=
  (Text.trimLeft constraint).takeWhile isSymbol

/-- The operator that leads a constraint, after any white space. The leading symbols may be a shorthand or another
operator as a whole; if they are not, the operators are tried at their start, longer ones first. -/
def detect? (constraint : List Char) : Option Operator :=
  let symbols := leadingSymbols constraint
  (shorthands.find? fun operator => operator.text == symbols) <|>
    (all.find? fun operator => operator.text == symbols) <|>
    all.find? fun operator => operator.text.isPrefixOf symbols

/-- What is written for an operator that may be missing. -/
def textOf : Option Operator → List Char
  | none => []
  | some operator => operator.text

/-- The operator inserted when a bare package name is completed. -/
def default : Operator := .standard .compatible

end Operator

/-- A single constraint taken apart into its operator and the version after it. -/
def operatorAndVersion (constraint : List Char) : Option Operator × List Char :=
  let body := Text.trim constraint
  let operator := Operator.detect? body
  (operator, Text.trim (body.drop (Operator.textOf operator).length))

end ManifestLens
