import ManifestLens.Manifest.Quoted
import ManifestLens.Manifest.Requirement

/-!
# Requirements in arrays

The quoted elements of an array hold one requirement each, written either as
`"name[extras] constraint ; marker"` or with the constraint in parentheses, as in
`"name (constraint)"`.
-/

namespace ManifestLens

/-- The dependencies written as plain requirements in the array elements of a line. -/
def arrayDependencies (rule : NameRule) (text : List Char) (line : Nat) (group : Group) :
    List Dependency :=
  (QuotedString.elementsOfLine text).filterMap fun element => do
    let requirement ← Requirement.read? element.content element.column
    requirement.toDependency? rule .array line group

/-- The requirement with a parenthesised constraint that a text states, where the text starts at
column `offset` of its line. Extras count only between closed brackets. After the closing
parenthesis only a marker may follow; without one the constraint runs to the end. -/
def Requirement.readParenthesized? (content : List Char) (offset : Nat) : Option Requirement := do
  let head ← LeadingName.read? content
  let nameSpan : Span := ⟨offset + head.indent, head.name.length⟩
  let bracketed := (Bracketed.read? head.rest).filter Bracketed.isClosed
  let extras := (bracketed.map fun b => extrasOf b.inner).getD []
  let afterHead := (bracketed.map Bracketed.rest).getD head.rest
  let blanks := (afterHead.takeWhile Text.isBlank).length
  match afterHead.drop blanks with
  | '(' :: body =>
      let expression := body.takeWhile (· != ')')
      let trailing := Text.trim (body.drop (expression.length + 1))
      if !trailing.isEmpty && trailing.head? != some ';' then none
      else
        let start := nameSpan.stop + (bracketed.map Bracketed.length).getD 0 + blanks + 1
        let constraint := Text.trim expression
        if constraint.isEmpty || isOperatorConstraint constraint then
          some ⟨head.name, nameSpan, extras, constraint,
            ⟨start + (expression.takeWhile Text.isBlank).length, constraint.length⟩⟩
        else none
  | _ => none

/-- The dependencies written with parentheses in the array elements of a line. -/
def parenthesizedDependencies (rule : NameRule) (text : List Char) (line : Nat)
    (group : Group) : List Dependency :=
  (QuotedString.elementsOfLine text).filterMap fun element => do
    let requirement ← Requirement.readParenthesized? element.content element.column
    requirement.toDependency? rule .poetryParentheses line group

end ManifestLens
