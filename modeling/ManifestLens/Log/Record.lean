/-!
# Log records

What the tool says about its own work. A record has a level and the name of the part that it comes from;
all names lie below one root name.
-/

namespace ManifestLens

/-- How grave a record is. -/
inductive LogLevel where
  /-- Below every threshold. -/
  | unset
  | debug
  | info
  | warning
  | error
  | critical
deriving DecidableEq, Repr

namespace LogLevel

def text : LogLevel → String
  | .unset => "NOTSET"
  | .debug => "DEBUG"
  | .info => "INFO"
  | .warning => "WARNING"
  | .error => "ERROR"
  | .critical => "CRITICAL"

/-- The rank of a level among the others. -/
def rank : LogLevel → Nat
  | .unset => 0
  | .debug => 1
  | .info => 2
  | .warning => 3
  | .error => 4
  | .critical => 5

/-- The colour code of a level on a terminal. -/
def colorCode? : LogLevel → Option String
  | .unset => none
  | .debug => some "\x1b[36m"
  | .info => some "\x1b[32m"
  | .warning => some "\x1b[33m"
  | .error => some "\x1b[31m"
  | .critical => some "\x1b[35m"

/-- The lowest level that passes where this one is asked for. Where none is, warnings pass. -/
def threshold : LogLevel → LogLevel
  | .unset => .warning
  | level => level

end LogLevel

/-- A record of the log. -/
structure LogRecord where
  /-- The full name of the part that the record comes from. -/
  source : String
  level : LogLevel
  message : String
  /-- The record tells of a failure that nobody expected, and is followed by where it arose. -/
  hasTrace : Bool := false
deriving DecidableEq, Repr

namespace LogRecord

/-- The name above all others. -/
def rootName : String := "tombo"

/-- The full name of a part: below the root name unless it lies there already. -/
def sourceName (part : String) : String :=
  if part = "" ∨ part = rootName then rootName
  else if (rootName ++ ".").toList.isPrefixOf part.toList then part
  else rootName ++ "." ++ part

/-- A record of the part with the given name. -/
def of (part : String) (level : LogLevel) (message : String) : LogRecord :=
  ⟨sourceName part, level, message, false⟩

end LogRecord

/-- The settings of a log that is shown. -/
structure LogFormat where
  level : LogLevel
  /-- Each record starts with the time and the name of its source. -/
  isVerbose : Bool
  isColored : Bool
deriving DecidableEq, Repr

namespace LogFormat

/-- What introduces the account of where an unexpected failure arose. -/
def traceHeader : String := "Traceback (most recent call last):\n"

/-- The record passes the threshold. -/
def shows (format : LogFormat) (record : LogRecord) : Bool :=
  format.level.threshold.rank ≤ record.level.rank

/-- The level as shown. -/
def levelText (format : LogFormat) (level : LogLevel) : String :=
  match if format.isColored then level.colorCode? else none with
  | some code => code ++ level.text ++ "\x1b[0m"
  | none => level.text

/-- A record as shown, with the given time. -/
def line (format : LogFormat) (time : String) (record : LogRecord) : String :=
  (if format.isVerbose then
    time ++ " - " ++ record.source ++ " - " ++ format.levelText record.level ++ " - "
  else format.levelText record.level ++ ": ") ++ record.message ++ "\n" ++
    if record.hasTrace then traceHeader else ""

/-- The records that pass, one after another. -/
def text (format : LogFormat) (time : String) (records : List LogRecord) : String :=
  String.join ((records.filter format.shows).map (format.line time))

end LogFormat

end ManifestLens
