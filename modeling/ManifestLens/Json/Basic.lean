import ManifestLens.Number.Basic
import ManifestLens.Text.Quoting

/-!
# JSON values

Values as the package index sends them. An object keeps its members in the order of their first
occurrence; a member that occurs again replaces the value.
-/

namespace ManifestLens

/-- A JSON value. -/
inductive Json where
  | null
  | bool (b : Bool)
  | number (n : Number)
  | string (s : String)
  | array (items : List Json)
  | object (members : List (String × Json))
deriving Repr, Inhabited

namespace Json

/-- Sets a member: in its place if the key occurs, otherwise at the end. -/
def setMember (key : String) (value : Json) : List (String × Json) → List (String × Json)
  | [] => [(key, value)]
  | (k, v) :: rest =>
      if k = key then (key, value) :: rest else (k, v) :: setMember key value rest

def member? (key : String) (members : List (String × Json)) : Option Json :=
  (members.find? (·.1 == key)).map (·.2)

/-- The member of an object; none for a missing member and for every other value. -/
def get? (key : String) : Json → Option Json
  | .object members => member? key members
  | _ => none

/-- A value that counts as true: everything but null, false, zero and the empty values. -/
def isTrue : Json → Bool
  | .null => false
  | .bool b => b
  | .number n => n.isTrue
  | .string s => s ≠ ""
  | .array items => !items.isEmpty
  | .object members => !members.isEmpty

/-- The text of a string value. -/
def asString? : Json → Option String
  | .string s => some s
  | _ => none

/-- The number that a value counts as: a number as itself, and a flag as one or zero. -/
def asNumber? : Json → Option Number
  | .number n => some n
  | .bool b => some (.int (if b then 1 else 0))
  | _ => none

/-- Two values are the same: numbers by their worth, and objects whatever the order of their members. -/
def agrees : Json → Json → Bool
  | .null, .null => true
  | .string a, .string b => a == b
  | .array a, .array b => itemsAgree a b
  | .object a, .object b => a.length == b.length && membersAgree a b
  | a, b =>
      match a.asNumber?, b.asNumber? with
      | some m, some n => m.eqv n
      | _, _ => false
where
  /-- The items are the same one by one. -/
  itemsAgree : List Json → List Json → Bool
    | [], [] => true
    | a :: as, b :: bs => agrees a b && itemsAgree as bs
    | _, _ => false
  /-- Every member of the first list has the same value in the second one. -/
  membersAgree : List (String × Json) → List (String × Json) → Bool
    | [], _ => true
    | (key, value) :: rest, others =>
        (match member? key others with
          | some other => agrees value other
          | none => false) && membersAgree rest others

/-- The value is an object. -/
def isObject : Json → Bool
  | .object _ => true
  | _ => false

end Json

end ManifestLens

/-!
## Kinds of values

The names by which the kinds of values are called in messages, and what a value consists of when it is read
as a collection.
-/

namespace ManifestLens

namespace Json

def kindName : Json → String
  | .null => "NoneType"
  | .bool _ => "bool"
  | .number (.int _) => "int"
  | .number (.float _) => "float"
  | .string _ => "str"
  | .array _ => "list"
  | .object _ => "dict"

/-- What is said of a value that is no collection. -/
def notCollection (value : Json) : String := "'" ++ value.kindName ++ "' object is not iterable"

/-- What is said of a value that has no members. -/
def noMembers (value : Json) : String :=
  "'" ++ value.kindName ++ "' object has no attribute 'get'"

/-- The values in a collection: the items of an array, the characters of a string, or the keys of an
object. -/
def elements? : Json → Option (List Json)
  | .array items => some items
  | .string s => some (s.toList.map fun c => .string (String.singleton c))
  | .object members => some (members.map fun (key, _) => .string key)
  | _ => none

/-- The value, or another one in place of a value that counts as false. -/
def orElse (value other : Json) : Json := if value.isTrue then value else other

/-- A member of an object, null if it is missing. -/
def memberOrNull (members : List (String × Json)) (key : String) : Json := (member? key members).getD .null

end Json

end ManifestLens

/-!
## Displaying values

How a value is shown in messages and table cells: a string as it is, everything else in its inspected
form, in which strings are quoted and the constants are capitalised.
-/

namespace ManifestLens

namespace Json

/-- The inspected form of a value. -/
def inspect : Json → String
  | .null => "None"
  | .bool b => if b then "True" else "False"
  | .number n => n.text
  | .string s => Text.quotedString s
  | .array items => "[" ++ inspectItems items ++ "]"
  | .object members => "\x7b" ++ inspectMembers members ++ "\x7d"
where
  /-- The items separated by commas. -/
  inspectItems : List Json → String
    | [] => ""
    | [item] => inspect item
    | item :: items => inspect item ++ ", " ++ inspectItems items
  /-- The members separated by commas. -/
  inspectMembers : List (String × Json) → String
    | [] => ""
    | [(key, value)] => Text.quotedString key ++ ": " ++ inspect value
    | (key, value) :: members =>
        Text.quotedString key ++ ": " ++ inspect value ++ ", " ++ inspectMembers members

/-- The value as shown to a reader. -/
def display : Json → String
  | .string s => s
  | value => value.inspect

end Json

end ManifestLens
