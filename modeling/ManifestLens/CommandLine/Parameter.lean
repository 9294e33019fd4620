import ManifestLens.Files.Tree
import ManifestLens.Number.Literal
import ManifestLens.Text.Character
import ManifestLens.Text.Quoting

/-!
# Parameters

A command has options and arguments. Each has a kind of value, and may have a default or a variable of the
environment that stands in for what the user leaves out. `Parameter.read` turns what was given into a value
or says what is wrong with it.
-/

/-!
## Wrong usage

Everything that can be wrong with the words of a command line, and how a user is told.
-/

namespace ManifestLens

/-- What is wrong with a command line. -/
inductive UsageError where
  /-- There is no option of this name, but some with similar names. -/
  | noSuchOption (name : String) (similar : List String)
  | takesNoValue (option : String)
  | needsValue (option : String)
  | missingArgument (name : String)
  /-- The value of a parameter is wrong for the stated reason. -/
  | invalidValue (parameter reason : String)
  | unexpectedArguments (arguments : List String)
  | missingCommand
  | noSuchCommand (name : String)
deriving DecidableEq, Repr

namespace UsageError

/-- Names in the order of their characters. -/
def sortedNames (names : List String) : List String :=
  names.mergeSort fun a b => !(b.toList < a.toList)

/-- What is said of options with similar names. -/
def suggestion : List String → String
  | [] => ""
  | [name] => " Did you mean " ++ name ++ "?"
  | names => " (Possible options: " ++ ", ".intercalate (sortedNames names) ++ ")"

def message : UsageError → String
  | .noSuchOption name similar => "No such option: " ++ name ++ suggestion similar
  | .takesNoValue option => "Option " ++ Text.quotedString option ++ " does not take a value."
  | .needsValue option => "Option " ++ Text.quotedString option ++ " requires an argument."
  | .missingArgument name => "Missing argument " ++ name ++ "."
  | .invalidValue parameter reason => "Invalid value for " ++ parameter ++ ": " ++ reason
  | .unexpectedArguments [argument] => "Got unexpected extra argument (" ++ argument ++ ")"
  | .unexpectedArguments arguments =>
      "Got unexpected extra arguments (" ++ " ".intercalate arguments ++ ")"
  | .missingCommand => "Missing command."
  | .noSuchCommand name => "No such command " ++ Text.quotedString name ++ "."

end UsageError

end ManifestLens

/-! ## Reading parameters -/

namespace ManifestLens

/-- What an occurrence of an option does. -/
inductive OptionEffect where
  /-- It takes the value that follows. -/
  | takesValue
  /-- It switches something on or off. -/
  | switches (isOn : Bool)
  /-- It adds one to a count. -/
  | counts
deriving DecidableEq, Repr

/-- The values that a parameter takes. -/
inductive ParameterKind where
  | text
  | switch
  | count
  | positive
  /-- One of some words, in any case of letters. -/
  | choice (words : List String)
  /-- A path to something that exists: a file, or also a folder. -/
  | path (allowsFolder : Bool)
deriving DecidableEq, Repr

/-- What is given for a parameter. -/
inductive GivenValue where
  | nothing
  | text (text : String)
  | switch (isOn : Bool)
  | count (n : Nat)
deriving DecidableEq, Repr

/-- The value of a parameter. -/
inductive ParameterValue where
  | nothing
  | text (text : String)
  | switch (isOn : Bool)
  | number (n : Int)
deriving DecidableEq, Repr

/-- An option or an argument. -/
structure Parameter where
  /-- The name of an argument as it is shown, or that of an option in the program. -/
  name : String
  kind : ParameterKind
  /-- The spellings of an option with what each does; an argument has none. -/
  spellings : List (String × OptionEffect) := []
  default : GivenValue := .nothing
  /-- The variable of the environment that stands in for the option. -/
  environmentName : Option String := none
  /-- The option is read before the others and replaces the command. -/
  replacesCommand : Bool := false
deriving DecidableEq, Repr

namespace Parameter

def isArgument (parameter : Parameter) : Bool := parameter.spellings.isEmpty

/-- The user has to give the argument. -/
def isRequired (parameter : Parameter) : Bool :=
  parameter.isArgument && parameter.default == .nothing

/-- The parameter as errors name it. -/
def shown (parameter : Parameter) : String :=
  if parameter.isArgument then
    if parameter.isRequired then "'" ++ parameter.name ++ "'" else "'[" ++ parameter.name ++ "]'"
  else
    let spellings := (parameter.spellings.filter (·.2 != .switches false)).map (·.1)
    " / ".intercalate (spellings.map fun spelling => "'" ++ spelling ++ "'")

/-! ### Values -/

/-- The words that switch something on or off, with what each does. -/
def switchWords : List (String × Bool) :=
  [("", false), ("0", false), ("1", true), ("f", false), ("false", false), ("n", false),
    ("no", false), ("off", false), ("on", true), ("t", true), ("true", true), ("y", true),
    ("yes", true)]

/-- A text names a folder by its form: it ends in a separator, or in a dot after one. -/
def isFolderForm (text : String) : Bool :=
  match text.toList.reverse with
  | '/' :: _ => true
  | '.' :: '/' :: _ => true
  | _ => false

/-- The place that a text as typed leads to. No text leads nowhere, and a file does not pass as a folder. -/
def locate? (tree : FileTree) (text : String) : Option Location :=
  if text = "" then none
  else (tree.locate? (.ofText text)).filter fun location =>
    tree.isFolder location || !isFolderForm text

/-- The value that a text gives for a kind of parameter, or why it gives none. -/
def valueOf (tree : FileTree) (kind : ParameterKind) (text : String) :
    Except String ParameterValue :=
  let quoted := Text.quotedString text
  match kind with
  | .text | .count => .ok (.text text)
  | .switch =>
      let word := String.ofList (Text.lower (Text.trim text.toList))
      match switchWords.find? (·.1 == word) with
      | some (_, isOn) => .ok (.switch isOn)
      | none =>
          .error (quoted ++ " is not a valid boolean. Recognized values: " ++
            ", ".intercalate (switchWords.map (·.1)))
  | .positive =>
      match Literal.integer? text.toList with
      | none => .error (quoted ++ " is not a valid integer range.")
      | some n =>
          if n < 1 then .error (toString n ++ " is not in the range x>=1.") else .ok (.number n)
  | .choice words =>
      match words.find? (·.toList == Text.lower text.toList) with
      | some word => .ok (.text word)
      | none =>
          .error (quoted ++ " is not one of " ++ ", ".intercalate (words.map Text.quotedString) ++ ".")
  | .path allowsFolder =>
      let what := if allowsFolder then "Path " else "File "
      match locate? tree text with
      | none => .error (what ++ quoted ++ " does not exist.")
      | some location =>
          if tree.isFolder location && !allowsFolder then
            .error (what ++ quoted ++ " is a directory.")
          else .ok (.text text)

/-- What stands in for a parameter that is not given. -/
def fallback (parameter : Parameter) (environment : List (String × String)) : GivenValue :=
  let found := parameter.environmentName.bind fun name => environment.find? (·.1 == name)
  match found.filter (·.2 != "") with
  | some (_, text) => .text text
  | none => parameter.default

/-- The value of a parameter for what is given. -/
def read (parameter : Parameter) (tree : FileTree) :
    GivenValue → Except UsageError ParameterValue
  | .nothing =>
      if parameter.isRequired then .error (.missingArgument parameter.shown) else .ok .nothing
  | .switch isOn => .ok (.switch isOn)
  | .count n => .ok (.number n)
  | .text text => (valueOf tree parameter.kind text).mapError (.invalidValue parameter.shown)

end Parameter

end ManifestLens
