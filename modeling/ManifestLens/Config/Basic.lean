import ManifestLens.Error.Basic
import ManifestLens.Index.Url
import ManifestLens.Json.Basic
import ManifestLens.Log.Record

/-!
# Configuration

The options of the tool with their defaults, and reading them off a table. A table may hold known options only,
each with a value of the option's kind.
-/

namespace ManifestLens

/-- The options of the tool. -/
structure Config where
  indexUrl : List Char := IndexUrl.publicIndex
  /-- Pre-releases are on offer unless a call says otherwise. -/
  listPreReleases : Bool := false
  /-- Milliseconds. -/
  requestTimeout : Int := 10000
  cacheMinutes : Int := 10
  cacheCapacity : Int := 1000
  retryAttempts : Int := 3
  /-- Milliseconds. -/
  retryDelay : Int := 1000
  /-- Seconds between two sweeps of the cache. -/
  sweepPeriod : Int := 300
  /-- The file that the options come from. -/
  source : Option String := none
deriving DecidableEq, Repr

/-- The value of an option as a file states it. -/
inductive OptionValue where
  | text (s : String)
  | flag (b : Bool)
  | integer (n : Int)
  /-- A value of a kind that no option has. -/
  | other (kindName : String)
deriving DecidableEq, Repr

namespace OptionValue

def kindName : OptionValue → String
  | .text _ => "str"
  | .flag _ => "bool"
  | .integer _ => "int"
  | .other name => name

def ofJson : Json → OptionValue
  | .string s => .text s
  | .bool b => .flag b
  | .number (.int n) => .integer n
  | value => .other value.kindName

end OptionValue

/-- An option that a user can set. -/
inductive ConfigOption where
  | indexUrl
  | listPreReleases
  | requestTimeout
  | cacheMinutes
  | cacheCapacity
  | retryAttempts
  | retryDelay
  | sweepPeriod
deriving DecidableEq, Repr

namespace ConfigOption

def all : List ConfigOption :=
  [.indexUrl, .listPreReleases, .requestTimeout, .cacheMinutes, .cacheCapacity, .retryAttempts,
    .retryDelay, .sweepPeriod]

def key : ConfigOption → String
  | .indexUrl => "pypi_index_url"
  | .listPreReleases => "list_pre_releases"
  | .requestTimeout => "request_timeout"
  | .cacheMinutes => "cache_timeout_minutes"
  | .cacheCapacity => "max_cache_size"
  | .retryAttempts => "retry_attempts"
  | .retryDelay => "retry_delay"
  | .sweepPeriod => "cache_check_period"

def ofKey? (key : String) : Option ConfigOption := all.find? (·.key == key)

def wantedKind : ConfigOption → String
  | .indexUrl => "a string"
  | .listPreReleases => "a boolean"
  | _ => "an integer"

def valueIn (config : Config) : ConfigOption → OptionValue
  | .indexUrl => .text (String.ofList config.indexUrl)
  | .listPreReleases => .flag config.listPreReleases
  | .requestTimeout => .integer config.requestTimeout
  | .cacheMinutes => .integer config.cacheMinutes
  | .cacheCapacity => .integer config.cacheCapacity
  | .retryAttempts => .integer config.retryAttempts
  | .retryDelay => .integer config.retryDelay
  | .sweepPeriod => .integer config.sweepPeriod

/-- The configuration with an option set, if the value is of the option's kind. A flag is no integer. -/
def set? (config : Config) : ConfigOption → OptionValue → Option Config
  | .indexUrl, .text s => some { config with indexUrl := s.toList }
  | .listPreReleases, .flag b => some { config with listPreReleases := b }
  | .requestTimeout, .integer n => some { config with requestTimeout := n }
  | .cacheMinutes, .integer n => some { config with cacheMinutes := n }
  | .cacheCapacity, .integer n => some { config with cacheCapacity := n }
  | .retryAttempts, .integer n => some { config with retryAttempts := n }
  | .retryDelay, .integer n => some { config with retryDelay := n }
  | .sweepPeriod, .integer n => some { config with sweepPeriod := n }
  | _, _ => none

end ConfigOption

namespace Config

/-- The texts sorted by their characters. -/
def sortedTexts (texts : List String) : List String :=
  texts.mergeSort fun a b =>
    (Ord.compare (a.toList.map Char.toNat) (b.toList.map Char.toNat)).isLE

def setAll (path : String) (config : Config) :
    List (String × OptionValue) → Except Failure Config
  | [] => .ok config
  | (key, value) :: rest =>
      match ConfigOption.ofKey? key with
      | none => setAll path config rest
      | some option =>
          match option.set? config value with
          | some config => setAll path config rest
          | none =>
              .error (.config
                (key ++ " must be " ++ option.wantedKind ++ ", got " ++ value.kindName) path key)

/-- The configuration that a table states, for messages with the path of its file. -/
def ofTable (path : String) (table : List (String × OptionValue)) : Except Failure Config :=
  match (table.map Prod.fst).filter fun key => (ConfigOption.ofKey? key).isNone with
  | [] => setAll path {} table
  | unknown =>
      .error (.config
        ("Unknown configuration keys: " ++ ", ".intercalate (sortedTexts unknown)) path none)

def optionMembers (config : Config) : List (String × Json) :=
  ConfigOption.all.map fun option =>
    (option.key, match option.valueIn config with
      | .text s => .string s
      | .flag b => .bool b
      | .integer n => Json.number (.int n)
      | .other _ => .null)

/-- The settings whose change needs another client or cache. -/
def significantOptions : List ConfigOption :=
  [.indexUrl, .requestTimeout, .cacheMinutes, .cacheCapacity, .retryAttempts, .retryDelay]

/-- Moving from one configuration to another needs another client or cache. -/
def isSignificantChange (old new : Config) : Bool :=
  significantOptions.any fun option => option.valueIn old != option.valueIn new

end Config

end ManifestLens

/-!
## Validating a configuration

Values outside the range of their option are moved to its nearest end, and the URL of the index is brought into
its normal form. Each correction is reported, except that of a URL which is valid as it is.
-/

namespace ManifestLens

/-- A correction of an option. -/
structure ConfigCorrection where
  option : String
  message : String
deriving DecidableEq, Repr

namespace Config

/-- The options with a range, and its ends. -/
def ranges : List (ConfigOption × Int × Int) :=
  [(.requestTimeout, 1000, 60000), (.cacheMinutes, 1, 1440), (.cacheCapacity, 10, 10000),
    (.retryAttempts, 1, 10)]

/-- A number moved into a range. -/
def clamp (low high value : Int) : Int := min (max value low) high

/-- An option moved into its range, and the report if it lay outside. -/
def clampOption (config : Config) (option : ConfigOption) (low high : Int) :
    Config × List ConfigCorrection :=
  match option.valueIn config with
  | .integer value =>
      let clamped := clamp low high value
      if clamped = value then (config, [])
      else
        ((option.set? config (.integer clamped)).getD config,
          [⟨option.key,
            option.key ++ "=" ++ toString value ++ " is outside " ++ toString low ++ ".." ++
              toString high ++ "; using " ++ toString clamped⟩])
  | _ => (config, [])

/-- The index URL in its normal form, and the report if it was none. -/
def normalizeUrl (config : Config) : Except UrlFault (Config × List ConfigCorrection) := do
  let url ← IndexUrl.normalize config.indexUrl
  if url = config.indexUrl then return (config, [])
  else
    let corrections :=
      if ← IndexUrl.isValid config.indexUrl then []
      else
        [⟨ConfigOption.indexUrl.key,
          "Invalid index URL " ++ String.ofList (Text.quoted config.indexUrl) ++ "; using " ++
            String.ofList IndexUrl.publicIndex⟩]
    return ({ config with indexUrl := url }, corrections)

/-- The configuration with every option valid, and what was corrected. -/
def validate (config : Config) : Except UrlFault (Config × List ConfigCorrection) := do
  let (config, corrections) ← normalizeUrl config
  return ranges.foldl (fun (config, corrections) (option, low, high) =>
    let (config, more) := clampOption config option low high
    (config, corrections ++ more)) (config, corrections)

/-- What the log says of a correction. -/
def correctionRecord (correction : ConfigCorrection) : LogRecord :=
  .of "config" .warning ("Configuration: " ++ correction.message)

end Config

end ManifestLens
