import ManifestLens.Json.Basic

/-!
# Errors

The failures that are reported to a user. Each has a message and details in a fixed order. Failures
of the package index form a closed taxonomy, which says of each whether asking again may help.
-/

namespace ManifestLens

/-- What went wrong between the client and the package index. -/
inductive IndexFault where
  | unclassified
  /-- No connection, a server error, or an answer of no other class. -/
  | network
  | timeout
  | packageNotFound
  | rateLimited
  /-- A successful answer whose body is not the expected document. -/
  | invalidResponse
deriving DecidableEq, Repr

namespace IndexFault

/-- The stable code of a fault. -/
def code : IndexFault → String
  | .unclassified => "UNKNOWN_ERROR"
  | .network => "NETWORK_ERROR"
  | .timeout => "TIMEOUT"
  | .packageNotFound => "PACKAGE_NOT_FOUND"
  | .rateLimited => "RATE_LIMITED"
  | .invalidResponse => "INVALID_RESPONSE"

/-- The name under which errors of a fault are shown. -/
def typeName : IndexFault → String
  | .unclassified => "PyPIError"
  | .network => "NetworkError"
  | .timeout => "RequestTimeoutError"
  | .packageNotFound => "PackageNotFoundError"
  | .rateLimited => "RateLimitError"
  | .invalidResponse => "InvalidResponseError"

end IndexFault

/-- A failure of the package index. -/
structure IndexError where
  fault : IndexFault
  message : String
  /-- The package that the request was about. -/
  package : Option String := none
  url : Option String := none
  /-- The status of the answer, if one came. -/
  status : Option Int := none
  /-- The wait in seconds that the server asked for. -/
  retryAfter : Option Number := none
  /-- The body of the answer. -/
  body : Option String := none
deriving DecidableEq, Repr

/-- The first 200 characters of a text, with dots if it is longer. -/
def shortened (text : String) : String :=
  if text.length ≤ 200 then text else String.ofList (text.toList.take 200) ++ "..."

namespace IndexError

/-- Asking again may succeed. A rate limit is worth it only if the server said how long to wait. -/
def isRetryable (error : IndexError) : Bool :=
  match error.fault with
  | .network | .timeout => true
  | .rateLimited => error.retryAfter.isSome
  | _ => false

/-- The error with a package named, unless it names one already. -/
def forPackage (package : String) (error : IndexError) : IndexError :=
  match error.package with
  | some _ => error
  | none => { error with package := some package }

def details (error : IndexError) : List (String × Json) :=
  [("code", Json.string error.fault.code)] ++
    (error.package.map fun p => ("package", Json.string p)).toList ++
    (error.url.map fun u => ("url", Json.string u)).toList ++
    (error.status.map fun s => ("status_code", Json.number (.int s))).toList ++
    (error.retryAfter.map fun r => ("retry_after", Json.number r)).toList ++
    (error.body.map fun b => ("response", Json.string (shortened b))).toList

end IndexError

/-- A failure with its message and details. -/
inductive Failure where
  | general (message : String) (details : List (String × Json))
  | index (error : IndexError)
  /-- A configuration that cannot be loaded, with its file and the option at fault. -/
  | config (message : String) (path option : Option String)
  /-- A failed operation on a file, with the reason that the system gave. -/
  | file (message : String) (path operation cause : Option String)

namespace Failure

/-- The name under which errors of the kind are shown. -/
def typeName : Failure → String
  | .general _ _ => "TomboError"
  | .index error => error.fault.typeName
  | .config _ _ _ => "ConfigError"
  | .file _ _ _ _ => "FileOperationError"

/-- The message alone. -/
def message : Failure → String
  | .general message _ => message
  | .index error => error.message
  | .config message _ _ => message
  | .file message _ _ _ => message

def detail (key : String) (value : Option String) : List (String × Json) :=
  (value.map fun v => (key, Json.string v)).toList

/-- The details in their order. A cause without words is left out. -/
def details : Failure → List (String × Json)
  | .general _ details => details
  | .index error => error.details
  | .config _ path option => detail "path" path ++ detail "option" option
  | .file _ path operation cause =>
      detail "path" path ++ detail "operation" operation ++
        detail "original_error" (cause.filter (· ≠ ""))

/-- The message followed by the details in parentheses. -/
def text (failure : Failure) : String :=
  match failure.details with
  | [] => failure.message
  | details =>
      failure.message ++ " (" ++
        ", ".intercalate (details.map fun (key, value) => key ++ "=" ++ value.display) ++ ")"

def inspect (failure : Failure) : String :=
  failure.typeName ++ "(message=" ++ Text.quotedString failure.message ++ ", details=" ++
    (Json.object failure.details).inspect ++ ")"

end Failure

end ManifestLens
