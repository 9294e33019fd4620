import ManifestLens.Text.Character
import ManifestLens.Text.Trim

/-!
# Manifest kinds

The two kinds of manifest, and how a file name tells them apart.
-/

namespace ManifestLens

/-- The kind of a manifest, which decides the dialects that are tried. -/
inductive ManifestKind where
  | pyproject
  | requirements
deriving DecidableEq, Repr

namespace ManifestKind

def label : ManifestKind → String
  | .pyproject => "pyproject"
  | .requirements => "requirements"

/-- The last component of a path. Empty components and single dots do not count. -/
def fileName (path : List Char) : List Char :=
  (((Text.splitOn '/' path).filter fun part => !(part.isEmpty || part == ['.'])).getLast?).getD []

/-- The kind that a file name stands for, whatever its case. -/
def ofFileName? (path : List Char) : Option ManifestKind :=
  let name := Text.lower (fileName path)
  if name = "pyproject.toml".toList then some .pyproject
  else if ".txt".toList.isSuffixOf name && Text.hasInfix "requirements".toList name then
    some .requirements
  else none

end ManifestKind

end ManifestLens
