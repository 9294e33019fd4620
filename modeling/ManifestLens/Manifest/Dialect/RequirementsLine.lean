import ManifestLens.Manifest.Requirement

/-!
# Lines of a requirements file

A line holds one requirement, which ends at a comment, at an option such as `--hash`, or at a
backslash that continues the line. Options, URLs and local paths state no dependency.
-/

namespace ManifestLens

/-- The schemes that a requirement on a URL or a repository starts with. -/
def remoteSchemes : List (List Char) :=
  ["git+", "hg+", "svn+", "bzr+", "http://", "https://", "file://", "ftp://"].map String.toList

/-- The text up to the first `#` after a blank, less that blank. -/
def beforeSpacedComment : List Char → List Char
  | [] => []
  | c :: rest =>
      if Text.isBlank c && rest.head? == some '#' then [] else c :: beforeSpacedComment rest

/-- The text before the comment of a requirements line: a `#` at the start or after a blank. -/
def withoutComment (text : List Char) : List Char :=
  if text.head? = some '#' then [] else beforeSpacedComment text

/-- An option starts here: one or two hyphens and a letter. -/
def startsOption : List Char → Bool
  | '-' :: '-' :: c :: _ => Text.isAsciiLetter c
  | '-' :: c :: _ => Text.isAsciiLetter c
  | _ => false

/-- The text up to the first blank that an option follows. -/
def withoutOptions : List Char → List Char
  | [] => []
  | c :: rest => if Text.isBlank c && startsOption rest then [] else c :: withoutOptions rest

/-- The text without a backslash at its end. -/
def withoutContinuation (text : List Char) : List Char :=
  if text.getLast? = some '\\' then text.dropLast else text

/-- A line that states no requirement on a named package by its first characters: blank, a comment,
an option, a URL or a path. -/
def isUnnamedLine (text : List Char) : Bool :=
  let body := Text.trim text
  match body with
  | [] => true
  | c :: _ =>
      "#-./~".toList.contains c ||
        remoteSchemes.any fun scheme => scheme.isPrefixOf (Text.asciiLower body)

/-- The part of a requirements line that states the requirement. -/
def requirementPart (text : List Char) : List Char :=
  withoutContinuation (Text.trimRight (withoutOptions (withoutComment text)))

/-- The dependency that a requirements line states. -/
def requirementsDependencies (rule : NameRule) (text : List Char) (line : Nat)
    (group : Group) : List Dependency :=
  if isUnnamedLine text then []
  else
    let code := requirementPart text
    let unmarked := code.takeWhile (· != ';')
    if unmarked.contains '@' || Text.hasInfix "://".toList unmarked then []
    else
      ((Requirement.read? code 0).bind
        (Requirement.toDependency? rule .requirementsLine line group)).toList

end ManifestLens
