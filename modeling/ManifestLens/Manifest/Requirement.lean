import ManifestLens.Manifest.Dependency

/-!
# Requirements

The text `name[extras] constraint ; marker`, which all dialects but the Poetry table share, and the
characters that a constraint may hold.
-/

namespace ManifestLens

/-- A character that may stand in a constraint after an operator. -/
def isConstraintChar (c : Char) : Bool :=
  Text.isWordChar c || Text.isBlank c || ".*+!=<>~^,-".toList.contains c

/-- A character that opens a constraint with an operator. -/
def isOperatorStart (c : Char) : Bool := "^~=<>!".toList.contains c

/-- A constraint that starts with an operator. -/
def isOperatorConstraint : List Char → Bool
  | [] => false
  | c :: rest => isOperatorStart c && rest.all isConstraintChar

/-- A constraint of a Poetry table: empty, or starting with an operator, a wildcard or a digit.
Alternatives may be joined by bars. -/
def isPoetryConstraint : List Char → Bool
  | [] => true
  | c :: rest =>
      (isOperatorStart c || c == '*' || Text.isDecimal c) &&
        rest.all fun c => isConstraintChar c || c == '|'

/-- The extras listed between brackets: the comma-separated pieces without blanks and quotes around
them, empty ones left out. -/
def extrasOf (inner : List Char) : List (List Char) :=
  ((Text.splitOn ',' inner).map fun piece =>
    Text.dropAround (fun c => c == '"' || c == '\'') (Text.trim piece)).filter (!·.isEmpty)

/-- The text between square brackets after optional white space. -/
structure Bracketed where
  /-- The length of the whole, white space and brackets included. -/
  length : Nat
  inner : List Char
  isClosed : Bool
  /-- The text after the closing bracket. -/
  rest : List Char

/-- The bracketed text at the start of a text. -/
def Bracketed.read? (text : List Char) : Option Bracketed :=
  let blanks := text.takeWhile Text.isBlank
  match text.drop blanks.length with
  | '[' :: body =>
      let inner := body.takeWhile (· != ']')
      match body.drop inner.length with
      | ']' :: rest => some ⟨blanks.length + inner.length + 2, inner, true, rest⟩
      | rest => some ⟨blanks.length + inner.length + 1, inner, false, rest⟩
  | _ => none

/-- The name at the start of a text. -/
structure LeadingName where
  /-- The number of blanks before the name. -/
  indent : Nat
  name : List Char
  rest : List Char

/-- The name that a text starts with, after optional white space. -/
def LeadingName.read? (text : List Char) : Option LeadingName :=
  let blanks := text.takeWhile Text.isBlank
  let body := text.drop blanks.length
  let name := body.takeWhile Package.isNameChar
  match name with
  | first :: _ =>
      if Text.isAsciiAlnum first then some ⟨blanks.length, name, body.drop name.length⟩ else none
  | [] => none

/-- A requirement found in a line. -/
structure Requirement where
  name : List Char
  nameSpan : Span
  extras : List (List Char)
  constraint : List Char
  span : Span
deriving DecidableEq, Repr

namespace Requirement

/-- The requirement that a text states, where the text starts at column `offset` of its line.
Everything from the first semicolon after the name is a marker and not read. -/
def read? (content : List Char) (offset : Nat) : Option Requirement := do
  let head ← LeadingName.read? content
  let nameSpan : Span := ⟨offset + head.indent, head.name.length⟩
  let bracketed := Bracketed.read? head.rest
  let extras := (bracketed.map fun b => extrasOf b.inner).getD []
  let afterHead := (bracketed.map Bracketed.rest).getD head.rest
  let restStart := nameSpan.stop + (bracketed.map Bracketed.length).getD 0
  let rest := afterHead.takeWhile (· != ';')
  let constraint := Text.trim rest
  if constraint.isEmpty then
    some ⟨head.name, nameSpan, extras, [], ⟨restStart, 0⟩⟩
  else if isOperatorConstraint constraint then
    let span := ⟨restStart + (rest.takeWhile Text.isBlank).length, constraint.length⟩
    some ⟨head.name, nameSpan, extras, constraint, span⟩
  else none

/-- The dependency that a requirement states, if the rule accepts its name. -/
def toDependency? (rule : NameRule) (dialect : Dialect) (line : Nat) (group : Group)
    (requirement : Requirement) : Option Dependency :=
  if rule.accepts requirement.name then
    some {
      name := requirement.name
      constraint := requirement.constraint
      span := requirement.span
      nameSpan := requirement.nameSpan
      line, group, dialect
      extras := requirement.extras }
  else none

end Requirement

end ManifestLens
