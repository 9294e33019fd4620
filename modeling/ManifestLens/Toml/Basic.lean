import ManifestLens.Number.Basic

/-!
# TOML values

What a TOML document holds. Tables keep their members in the order of the document, without repetitions.
Dates and times are kept as written.
-/

namespace ManifestLens

/-- What a date or time states. -/
inductive MomentKind where
  | dateTime
  | date
  | time
deriving DecidableEq, Repr

/-- A TOML value. -/
inductive Toml where
  | string (s : String)
  | integer (n : Int)
  | float (x : Binary64)
  | boolean (b : Bool)
  | moment (kind : MomentKind) (text : List Char)
  | array (elements : List Toml)
  | table (members : List (String × Toml))
deriving Repr, Inhabited

/-- Why a text is no TOML document. -/
inductive TomlFault where
  /-- The text is outside the grammar, or it defines something twice. -/
  | malformed
  /-- An integer has more digits than are read. -/
  | tooManyDigits (count : Nat)
deriving DecidableEq, Repr

namespace Toml

def kindName : Toml → String
  | .string _ => "str"
  | .integer _ => "int"
  | .float _ => "float"
  | .boolean _ => "bool"
  | .moment .dateTime _ => "datetime"
  | .moment .date _ => "date"
  | .moment .time _ => "time"
  | .array _ => "list"
  | .table _ => "dict"

/-- The member of a table with the given key. -/
def member? (key : String) (members : List (String × Toml)) : Option Toml :=
  (members.find? (·.1 == key)).map (·.2)

end Toml

end ManifestLens

/-!
## TOML tables in the making

A document defines its tables piece by piece. Each table remembers whether it may still be opened by a header
or extended by a dotted key; values written in one place are never extended.
-/

namespace ManifestLens

/-- What stands under a key while a document is read. -/
inductive TomlNode where
  /-- A value that was written in one place. -/
  | value (value : Toml)
  /-- A table. It is closed once a header opened it, or once the part of the document is over whose dotted
  keys made it. -/
  | table (isClosed : Bool) (members : List (String × TomlNode))
  /-- The tables of an array of which headers open one after another, the last one being the open one. -/
  | tables (earlier : List Toml) (last : List (String × TomlNode))

namespace TomlNode

/-- The members of a table in the making. -/
abbrev Members := List (String × TomlNode)

mutual

/-- The value that a node stands for. -/
def toToml : TomlNode → Toml
  | .value written => written
  | .table _ members => .table (finish members)
  | .tables earlier last => .array (earlier ++ [.table (finish last)])

def finish : Members → List (String × Toml)
  | [] => []
  | (key, node) :: rest => (key, node.toToml) :: finish rest

end

/-- Changes what stands under a key. A change to nothing is refused. -/
def update (key : String) (f : Option TomlNode → Option TomlNode) : Members → Option Members
  | [] => (f none).map fun node => [(key, node)]
  | (other, node) :: rest =>
      if other = key then (f (some node)).map fun node => (key, node) :: rest
      else (update key f rest).map ((other, node) :: ·)

/-- Changes the members of the table that a path leads to; tables that are missing are made. A path that
is part of a dotted key leads through no closed table. -/
def within (isDotted : Bool) (f : Members → Option Members) : List String → Members → Option Members
  | [], members => f members
  | key :: path, members =>
      update key (fun node? =>
        match node? with
        | none => (within isDotted f path []).map (.table false)
        | some (.table isClosed members) =>
            if isDotted && isClosed then none
            else (within isDotted f path members).map (.table isClosed)
        | some (.tables earlier last) =>
            if isDotted then none else (within isDotted f path last).map (.tables earlier)
        | some (.value _) => none) members

/-- Changes what stands under the last key of a path. -/
def updateAt (f : Option TomlNode → Option TomlNode) (path : List String) (members : Members) :
    Option Members :=
  match path.getLast? with
  | none => none
  | some key => within false (update key f) path.dropLast members

def openTable (path : List String) (members : Members) : Option Members :=
  updateAt (fun
    | none => some (.table true [])
    | some (.table false members) => some (.table true members)
    | some _ => none) path members

/-- Opens one more table of an array by its header. -/
def appendTable (path : List String) (members : Members) : Option Members :=
  updateAt (fun
    | none => some (.tables [] [])
    | some (.tables earlier last) => some (.tables (earlier ++ [.table (finish last)]) [])
    | some _ => none) path members

/-- Puts a value under a dotted key of the table that a header opened. -/
def insert (header : List String) (key : List String) (value : Toml) (members : Members) :
    Option Members :=
  match key.getLast? with
  | none => none
  | some last =>
      let add := update last fun
        | none => some (.value value)
        | some _ => none
      within false (within true add key.dropLast) header members

/-- Closes the table that a path leads to, if it leads to one. -/
def close (path : List String) (members : Members) : Members :=
  (updateAt (fun
    | some (.table _ members) => some (.table true members)
    | _ => none) path members).getD members

/-- The tables that a dotted key below a header makes or extends. -/
def dottedTables (header : List String) : List String → List (List String)
  | first :: second :: rest =>
      (header ++ [first]) :: dottedTables (header ++ [first]) (second :: rest)
  | _ => []

end TomlNode

end ManifestLens
