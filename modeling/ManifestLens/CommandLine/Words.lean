import ManifestLens.CommandLine.Parameter
import ManifestLens.Text.Trim

/-!
# The words of a command line

Words that begin with a dash are options, up to two dashes by themselves; the others are arguments. An option
is first looked up by its whole name, which may have a value after an equals sign, and otherwise taken for
options of one letter each, the last of which may have its value attached. `settle` gives every parameter its
value: first those that replace the command, then the others as they were given, then those left out.
-/

/-!
## Similar words

Words are similar if they have much text in common. What they have in common is the longest run that stands
in both, together with what the parts before it and the parts after it have in common.
-/

namespace ManifestLens.Text

/-- The length of the common beginning of two texts. -/
def commonStart : List Char → List Char → Nat
  | a :: as, b :: bs => if a = b then commonStart as bs + 1 else 0
  | _, _ => 0

/-- A run of characters that stands in two texts. -/
structure CommonRun where
  left : Nat
  right : Nat
  length : Nat
deriving DecidableEq, Repr

/-- The longest run that stands in two texts; of several the first one in the left text, and then the first one
in the right text. -/
def longestRun (a b : List Char) : CommonRun :=
  (List.range a.length).foldl (fun best left =>
    (List.range b.length).foldl (fun best right =>
      let length := commonStart (a.drop left) (b.drop right)
      if best.length < length then ⟨left, right, length⟩ else best) best) ⟨0, 0, 0⟩

/-- The number of characters that two texts have in common, with at most `fuel` runs inside one another. -/
def inCommon : Nat → List Char → List Char → Nat
  | 0, _, _ => 0
  | fuel + 1, a, b =>
      let run := longestRun a b
      if run.length = 0 then 0
      else
        inCommon fuel (a.take run.left) (b.take run.right) + run.length +
          inCommon fuel (a.drop (run.left + run.length)) (b.drop (run.right + run.length))

/-- How similar two texts are: twice what they have in common, and their lengths together. -/
def similarity (a b : List Char) : Nat × Nat :=
  (2 * inCommon a.length a b, a.length + b.length)

/-- The words that are similar to a word, at most three of them and the most similar one first. -/
def similarWords (word : String) (words : List String) : List String :=
  let rated := words.map fun other => (similarity other.toList word.toList, other)
  let similar := rated.filter fun ((common, total), _) => 3 * total ≤ 5 * common
  let ranksBefore (a b : (Nat × Nat) × String) : Bool :=
    let x := a.1.1 * b.1.2
    let y := b.1.1 * a.1.2
    y < x || (x == y && !(a.2.toList < b.2.toList))
  ((similar.mergeSort ranksBefore).take 3).map (·.2)

end ManifestLens.Text

/-! ## Words -/

namespace ManifestLens

/-- The parameters that a command line is read by. -/
structure Grammar where
  parameters : List Parameter
  /-- Options may stand after arguments. -/
  allowsMixing : Bool := true

/-- A command line that has been read: what is given for parameters in the order of their first occurrence,
and the words that are left. -/
structure Given where
  values : List (String × GivenValue) := []
  rest : List String := []
deriving DecidableEq, Repr

namespace Given

/-- What is given for a parameter. -/
def value (given : Given) (name : String) : GivenValue :=
  ((given.values.find? (·.1 == name)).map (·.2)).getD .nothing

/-- Gives something for a parameter in place of what was given before. -/
def set (given : Given) (name : String) (value : GivenValue) : Given :=
  { given with
    values :=
      if given.values.any (·.1 == name) then
        given.values.map fun old => if old.1 = name then (name, value) else old
      else given.values ++ [(name, value)] }

end Given

namespace Grammar

/-- The options that can be named by a word, with what the word does. -/
def spelled? (grammar : Grammar) (word : String) : Option (Parameter × OptionEffect) :=
  grammar.parameters.findSome? fun parameter =>
    (parameter.spellings.find? (·.1 == word)).map fun (_, effect) => (parameter, effect)

/-- A spelling consists of a single letter after a single dash. -/
def isShort (spelling : String) : Bool :=
  match spelling.toList with
  | ['-', c] => c != '-'
  | _ => false

/-- The spellings that are looked up as a whole. -/
def longSpellings (grammar : Grammar) : List String :=
  (grammar.parameters.flatMap fun p => p.spellings.map (·.1)).filter (!isShort ·)

/-- An occurrence of an option that takes no value. -/
def occur (given : Given) (parameter : Parameter) : OptionEffect → Given
  | .takesValue => given
  | .switches isOn => given.set parameter.name (.switch isOn)
  | .counts =>
      match given.value parameter.name with
      | .count n => given.set parameter.name (.count (n + 1))
      | _ => given.set parameter.name (.count 1)

/-- The option of a name as it stands, with the value attached to it and the words that follow. -/
def takeOption (given : Given) (name : String) (parameter : Parameter) (effect : OptionEffect)
    (attached : Option String) (rest : List String) : Except UsageError (Given × List String) :=
  match effect, attached, rest with
  | .takesValue, some value, _ => .ok (given.set parameter.name (.text value), rest)
  | .takesValue, none, value :: rest => .ok (given.set parameter.name (.text value), rest)
  | .takesValue, none, [] => .error (.needsValue name)
  | _, some _, _ => .error (.takesNoValue name)
  | _, none, _ => .ok (occur given parameter effect, rest)

/-- Options of one letter each, all behind one dash. -/
def takeLetters (grammar : Grammar) (given : Given) (rest : List String) :
    List Char → Except UsageError (Given × List String)
  | [] => .ok (given, rest)
  | c :: letters =>
      let name := String.ofList ['-', c]
      match (if isShort name then grammar.spelled? name else none) with
      | none => .error (.noSuchOption name [])
      | some (parameter, .takesValue) =>
          let attached := if letters.isEmpty then none else some (String.ofList letters)
          takeOption given name parameter .takesValue attached rest
      | some (parameter, effect) => takeLetters grammar (occur given parameter effect) rest letters

/-- The word and the value attached to it by an equals sign. -/
def splitValue (word : String) : String × Option String :=
  match Text.cutAt? ['='] word.toList with
  | some (name, value) => (String.ofList name, some (String.ofList value))
  | none => (word, none)

/-- Reads a word that begins with a dash, with the words that follow. -/
def takeDashed (grammar : Grammar) (given : Given) (word : String) (rest : List String) :
    Except UsageError (Given × List String) :=
  let (name, attached) := splitValue word
  let known := if isShort name then none else grammar.spelled? name
  match known with
  | some (parameter, effect) => takeOption given name parameter effect attached rest
  | none =>
      if "--".toList.isPrefixOf word.toList then
        .error (.noSuchOption name (Text.similarWords name grammar.longSpellings))
      else takeLetters grammar given rest (word.toList.drop 1)

def isDashed (word : String) : Bool :=
  match word.toList with
  | '-' :: _ :: _ => true
  | _ => false

/-- Reads the options among at most `fuel` words; `loose` has the words before them that are none. -/
def takeOptions (grammar : Grammar) :
    Nat → Given → List String → List String → Except UsageError Given
  | 0, given, loose, words => .ok { given with rest := loose ++ words }
  | _, given, loose, [] => .ok { given with rest := loose }
  | fuel + 1, given, loose, word :: rest =>
      if word = "--" then .ok { given with rest := loose ++ rest }
      else if isDashed word then
        match takeDashed grammar given word rest with
        | .ok (given, rest) => takeOptions grammar fuel given loose rest
        | .error error => .error error
      else if grammar.allowsMixing then takeOptions grammar fuel given (loose ++ [word]) rest
      else .ok { given with rest := loose ++ word :: rest }

/-- Gives the words that are left to the arguments in their order. -/
def takeArguments (given : Given) : List Parameter → Given
  | [] => given
  | argument :: arguments =>
      match given.rest with
      | [] => takeArguments (given.set argument.name .nothing) arguments
      | word :: rest =>
          takeArguments ({ given with rest }.set argument.name (.text word)) arguments

def take (grammar : Grammar) (words : List String) : Except UsageError Given := do
  let given ← grammar.takeOptions words.length {} [] words
  return takeArguments given (grammar.parameters.filter (·.isArgument))

/-- The parameters in the order in which their values are read. -/
def readingOrder (grammar : Grammar) (given : Given) : List Parameter :=
  let occurring := given.values.filterMap fun (name, _) => grammar.parameters.find? (·.name == name)
  let missing := grammar.parameters.filter fun p => !given.values.any (·.1 == p.name)
  let ordered := occurring ++ missing
  ordered.filter (·.replacesCommand) ++ ordered.filter (!·.replacesCommand)

/-- The values of parameters. -/
abbrev Values := List (String × ParameterValue)

/-- The values of all parameters. -/
def settle (grammar : Grammar) (given : Given) (environment : List (String × String))
    (tree : FileTree) : Except UsageError Values :=
  (grammar.readingOrder given).mapM fun parameter => do
    let found := match given.value parameter.name with
      | .nothing => parameter.fallback environment
      | found => found
    return (parameter.name, ← parameter.read tree found)

/-- The first option that was given and replaces the command. -/
def replacement? (grammar : Grammar) (given : Given) : Option String :=
  ((grammar.readingOrder given).find? fun parameter =>
    parameter.replacesCommand && given.value parameter.name == .switch true).map (·.name)

end Grammar

namespace Grammar.Values

def value (values : Values) (name : String) : ParameterValue :=
  ((values.find? (·.1 == name)).map (·.2)).getD .nothing

def text? (values : Values) (name : String) : Option String :=
  match values.value name with
  | .text text => some text
  | _ => none

/-- The text of a parameter, empty if it has none. -/
def text (values : Values) (name : String) : String := (values.text? name).getD ""

def switch? (values : Values) (name : String) : Option Bool :=
  match values.value name with
  | .switch isOn => some isOn
  | _ => none

def number? (values : Values) (name : String) : Option Nat :=
  match values.value name with
  | .number n => some n.toNat
  | _ => none

end Grammar.Values

end ManifestLens
