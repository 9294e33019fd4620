import ManifestLens.Manifest.Dependency
import ManifestLens.Manifest.Quoted

/-!
# Tables and array keys

A TOML manifest is a sequence of tables. The name of the enclosing table, and within it the key of an
array, decide whether an entry is a dependency and to which group it belongs.
-/

namespace ManifestLens

/-! ### Dotted names -/

/-- The rest of a text holds an even number of quotes, so a position before it lies outside
them. -/
def isUnquotedBefore (rest : List Char) : Bool := rest.countP isQuote % 2 == 0

/-- The pieces of a dotted name, cut at the dots outside quotes. -/
def dottedPieces : List Char → List (List Char)
  | [] => [[]]
  | c :: rest =>
      if c = '.' && isUnquotedBefore rest then [] :: dottedPieces rest
      else
        match dottedPieces rest with
        | [] => [[c]]
        | piece :: pieces => (c :: piece) :: pieces

/-- A dotted name with the blanks and quotes around its pieces removed. -/
def unquoteParts (name : List Char) : List Char :=
  Text.joinWith ['.'] ((dottedPieces name).map fun piece =>
    Text.dropAround isQuote (Text.trim piece))

/-! ### Headers -/

/-- The name between the brackets of a table header, if a line is one. -/
def headerName? (code : List Char) : Option (List Char) :=
  match Text.trimLeft code with
  | '[' :: rest =>
      let body := match rest with
        | '[' :: body => body
        | _ => rest
      let inner := body.takeWhile fun c => c != '[' && c != ']'
      if inner.isEmpty then none
      else
        match body.drop inner.length with
        | ']' :: ']' :: tail => if tail.all Text.isBlank then some inner else none
        | ']' :: tail => if tail.all Text.isBlank then some inner else none
        | _ => none
  | _ => none

/-- The normalised table name, if a line is a table header. -/
def tableHeader? (line : List Char) : Option (List Char) :=
  (headerName? (codePart line)).map unquoteParts

/-- The table that encloses a line: the nearest header on the line or above it. -/
def enclosingTable? (lines : List (List Char)) (line : Int) : Option (List Char) :=
  (lines.take (line + 1).toNat).reverse.findSome? tableHeader?

/-! ### Array keys -/

/-- How far a dotted key has been read. -/
inductive KeyState where
  /-- A piece has to follow. -/
  | expecting
  /-- Inside a bare piece. -/
  | bare
  /-- Inside a quoted piece. -/
  | quoted (quote : Char)
  /-- After a piece and a blank, or after a closing quote. -/
  | complete

def isBareKeyChar (c : Char) : Bool := Text.isAsciiAlnum c || c == '_' || c == '-'

/-- Reads a dotted key up to the equals sign: the key and what follows the sign. -/
def dottedKeyFrom (state : KeyState) (reversed : List Char) :
    List Char → Option (List Char × List Char)
  | [] => none
  | c :: rest =>
      let read (next : KeyState) := dottedKeyFrom next (c :: reversed) rest
      match state with
      | .expecting =>
          if Text.isBlank c then read .expecting
          else if isQuote c then read (.quoted c)
          else if isBareKeyChar c then read .bare
          else none
      | .bare =>
          if isBareKeyChar c then read .bare
          else if Text.isBlank c then read .complete
          else if c = '.' then read .expecting
          else if c = '=' then some (reversed.reverse, rest)
          else none
      | .quoted quote => if c = quote then read .complete else read (.quoted quote)
      | .complete =>
          if Text.isBlank c then read .complete
          else if c = '.' then read .expecting
          else if c = '=' then some (reversed.reverse, rest)
          else none

/-- The key of an array that opens on a line, normalised, and the text from its bracket on. -/
def openedArray? (code : List Char) : Option (List Char × List Char) := do
  let (key, rest) ← dottedKeyFrom .expecting [] code
  let value := Text.trimLeft rest
  if value.head? = some '[' then some (unquoteParts key, value) else none

/-- The number of opening brackets less that of closing ones outside quotes, where `quote` is the
quote open so far. -/
def bracketBalance (quote : Option Char) : List Char → Int
  | [] => 0
  | c :: rest =>
      let here : Int := if quote.isSome then 0 else if c = '[' then 1 else if c = ']' then -1 else 0
      here + bracketBalance (quoteAfter quote c) rest

/-! ### Classification -/

/-- A Poetry dependency table: the group of its entries, and the package that the whole table is
about if it is about one. -/
structure PoetryTable where
  group : Group
  package : Option (List Char)
deriving DecidableEq, Repr

namespace PoetryTable

def mainTable : List Char := "tool.poetry.dependencies".toList

/-- The table of Poetry development dependencies. -/
def devTable : List Char := "tool.poetry.dev-dependencies".toList

/-- What follows a word at the start of a text. -/
def after? (word text : List Char) : Option (List Char) :=
  if word.isPrefixOf text then some (text.drop word.length) else none

/-- What follows the name in `tool.poetry.group.<name>.dependencies`. -/
def afterGroup? (table : List Char) : Option (List Char) := do
  let rest ← after? "tool.poetry.group.".toList table
  let name := rest.takeWhile (· != '.')
  if name.isEmpty then none else after? ".dependencies".toList (rest.drop name.length)

/-- The package named by what follows the dot of a group's sub-table. It is one line; a final line
feed does not belong to it. -/
def groupPackage? (rest : List Char) : Option (List Char) :=
  let name := rest.takeWhile (· != '\n')
  let tail := rest.drop name.length
  if !name.isEmpty && (tail.isEmpty || tail == ['\n']) then some name else none

/-- Classifies a table name. -/
def ofTable? (table : List Char) : Option PoetryTable :=
  let inGroup := afterGroup? table
  if table = mainTable then some ⟨.main, none⟩
  else if table = devTable || inGroup == some [] || inGroup == some ['\n'] then some ⟨.dev, none⟩
  else
    match after? (mainTable ++ ['.']) table, after? (devTable ++ ['.']) table with
    | some package, _ => some ⟨.main, some package⟩
    | none, some package => some ⟨.dev, some package⟩
    | none, none =>
        match inGroup with
        | some ('.' :: rest) => (groupPackage? rest).map fun package => ⟨.dev, some package⟩
        | _ => none

end PoetryTable

/-- The group of the dependencies in an array with the given key, or among the entries of the table
if no key is given. -/
def Group.ofTable? (table : Option (List Char)) (key : Option (List Char)) : Option Group := do
  let table ← table
  match key with
  | none => (PoetryTable.ofTable? table).map PoetryTable.group
  | some key =>
      if table = "project".toList then
        if key = "dependencies".toList then some .main
        else if "optional-dependencies.".toList.isPrefixOf key then some .extra
        else none
      else if table = "project.optional-dependencies".toList then some .extra
      else if table = "dependency-groups".toList then some .dev
      else if table = "tool.poetry".toList && key = "dependencies".toList then some .main
      else none

end ManifestLens
