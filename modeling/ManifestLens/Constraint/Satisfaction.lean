import ManifestLens.Constraint.Specifier
import ManifestLens.Version.Natural

/-!
# Satisfaction of constraints

A constraint is a comma-separated conjunction of specifiers, carets, tildes and bare versions. Each
part is expressed by specifiers; the empty constraint and `*` allow everything, and alternatives joined
by `||` cannot be expressed.
-/

namespace ManifestLens

namespace Constraint

/-- The first three numbers of a version text, or a zero if it has none. -/
def leadingNumbers (version : List Char) : List Nat :=
  match (runs version).take 3 with
  | [] => [0]
  | numbers => numbers
where
  /-- Every run of digits as a number. -/
  runs (text : List Char) : List Nat := runsFrom none text
  /-- The runs of a text after a run with the value `current`, if one is open. -/
  runsFrom (current : Option Nat) : List Char → List Nat
    | [] => current.toList
    | c :: rest =>
        match Text.decimalValue? c with
        | some digit => runsFrom (some (current.getD 0 * 10 + digit)) rest
        | none => current.toList ++ runsFrom none rest

/-- The numbers with the first one that is not zero, or else the last, raised by one and all after it
set to zero. -/
def bumpSignificant : List Nat → List Nat
  | [] => []
  | [n] => [n + 1]
  | n :: rest => if n = 0 then 0 :: bumpSignificant rest else (n + 1) :: rest.map fun _ => 0

/-- The exclusive upper bound of a caret constraint. -/
def caretBound (version : List Char) : List Char :=
  Version.releaseText (bumpSignificant (leadingNumbers version))

/-- The exclusive upper bound of a tilde constraint: the next major release for a single number,
otherwise the next minor one. -/
def tildeBound (version : List Char) : List Char :=
  match leadingNumbers version with
  | major :: minor :: _ => Version.releaseText [major, minor + 1, 0]
  | major :: _ => Version.releaseText [major + 1]
  | [] => []

/-- The specifier texts that one piece of a constraint stands for. -/
def pieceTexts? (piece : List Char) : Option (List (List Char)) :=
  let (operator, version) := operatorAndVersion piece
  if version.isEmpty then none
  else
    some (match operator with
      | some .caret => [Relation.atLeast.text ++ version, Relation.below.text ++ caretBound version]
      | some .tilde => [Relation.atLeast.text ++ version, Relation.below.text ++ tildeBound version]
      | some (.standard relation) => [relation.text ++ version]
      | none => [Relation.equal.text ++ version])

/-- The specifiers that a constraint stands for, if they can express it. They are written as one list and
read from it. -/
def specifiers? (constraint : List Char) : Option (List Specifier) :=
  let text := Text.trim constraint
  if text.isEmpty || text == ['*'] then some []
  else if Text.hasInfix ['|', '|'] text then none
  else do
    let texts ← (Text.splitOn ',' text).mapM pieceTexts?
    Specifier.parseList? (Text.joinWith [','] texts.flatten)

/-- A version is allowed by a constraint. A constraint that cannot be expressed allows none. -/
def satisfies (version constraint : List Char) : Bool :=
  match specifiers? constraint with
  | none => false
  | some specifiers => specifiers.all (·.contains version)

/-- The newest of the given versions that a constraint allows. -/
def greatestSatisfying (versions : List (List Char)) (constraint : List Char) :
    Except NaturalVersion.Failure (Option (List Char)) := do
  return (← NaturalVersion.sort (versions.filter (satisfies · constraint))).head?

end Constraint

end ManifestLens
