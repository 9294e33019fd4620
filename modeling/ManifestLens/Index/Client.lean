import ManifestLens.Index.Answer
import ManifestLens.Index.Fault
import ManifestLens.Log.Record

/-!
# The index client

A client asks an index for documents. Every answer is either a response with a good status or a classified
failure; a failure that may pass is asked again, after a wait that doubles each time or that the server
stated, until the attempts are used up. The client remembers its settings and nothing else.
-/

namespace ManifestLens

/-- The settings of a client. -/
structure IndexClient where
  baseUrl : List Char
  /-- Seconds after which a request is given up. -/
  timeout : Number
  /-- The number of attempts at a request, the first one included; at least one. -/
  attempts : Int
  /-- Seconds before the first retry. -/
  retryDelay : Number
  userAgent : String
  /-- The longest wait in seconds that a server may ask for. -/
  maxRetryAfter : Number
  /-- A connection has been opened and not been closed since. -/
  isOpen : Bool := false
deriving DecidableEq, Repr

namespace IndexClient

/-- What clients call themselves unless told otherwise. -/
def defaultUserAgent : String := "tombo/0.1.0.dev0 (PyPI metadata for dependency manifests)"

def make (baseUrl : List Char) (timeout : Number) (attempts : Int) (retryDelay : Number)
    (userAgent : Option String := none)
    (maxRetryAfter : Number := .float (.finite 60)) : Except UrlFault IndexClient := do
  let baseUrl ← IndexUrl.normalize baseUrl
  return {
    baseUrl, timeout, retryDelay, maxRetryAfter
    attempts := max 1 attempts
    userAgent := match userAgent with
      | some name => if name = "" then defaultUserAgent else name
      | none => defaultUserAgent }

/-- The client with another index. -/
def withBaseUrl (client : IndexClient) (url : List Char) : Except UrlFault IndexClient := do
  return { client with baseUrl := ← IndexUrl.normalize url }

/-- The client with those settings changed that are given. -/
def configure (client : IndexClient) (timeout : Option Number) (attempts : Option Int)
    (retryDelay : Option Number) : IndexClient :=
  { client with
    timeout := timeout.getD client.timeout
    attempts := (attempts.map (max 1)).getD client.attempts
    retryDelay := retryDelay.getD client.retryDelay }

end IndexClient

/-- What a request sets for itself. -/
structure RequestOptions where
  timeout : Option Number := none
  attempts : Option Int := none
  retryDelay : Option Number := none
  headers : Option (List (String × String)) := none

/-- How a request is made and made again. -/
structure RequestPlan where
  url : List Char
  timeout : Number
  headers : Option (List (String × String))
  /-- The number of attempts, at least one. -/
  attempts : Nat
  baseDelay : Number
  maxRetryAfter : Number

/-- The plan for requesting a path below the base of a client. -/
def IndexClient.plan (client : IndexClient) (path : List Char) (options : RequestOptions := {}) :
    RequestPlan :=
  { url := IndexUrl.join client.baseUrl [path]
    timeout := options.timeout.getD client.timeout
    headers := options.headers
    attempts := (max 1 (options.attempts.getD client.attempts)).toNat
    baseDelay := options.retryDelay.getD client.retryDelay
    maxRetryAfter := client.maxRetryAfter }

/-- A request as it is sent. -/
structure SentRequest where
  url : List Char
  timeout : Number
  headers : Option (List (String × String)) := none
deriving DecidableEq, Repr

namespace RequestPlan

/-- The request that is sent at every attempt. -/
def request (plan : RequestPlan) : SentRequest := ⟨plan.url, plan.timeout, plan.headers⟩

/-- The failure that a status stands for, unless it is a good one. -/
def statusFault? (url : String) (now : DateTime) (response : HttpResponse) :
    Option Fault :=
  let status := response.status
  if 200 ≤ status ∧ status < 300 then none
  else if status = 404 then
    some (.index {
      fault := .packageNotFound
      message := "Package not found"
      url := url
      status := some 404 })
  else if status = 429 then
    match RetryAfter.seconds? now ((response.header? "Retry-After").getD "").toList with
    | .error _ => some .dateOverflow
    | .ok wait =>
        some (.index {
          fault := .rateLimited
          message := "Rate limited by package index"
          url := url
          status := some 429
          retryAfter := wait.map .float })
  else
    some (.index {
      fault := .network
      message :=
        if 500 ≤ status then "Server error (" ++ toString status ++ ")"
        else "HTTP " ++ toString status ++ " error"
      url := url
      status := some status
      body := some response.text })

/-- An answer as a response with a good status or a failure. -/
def classify (plan : RequestPlan) (now : DateTime) (answer : IndexAnswer) :
    Except Fault HttpResponse :=
  let url := String.ofList plan.url
  match answer with
  | .timedOut =>
      .error (.index {
        fault := .timeout
        message := "Request timed out after " ++ plan.timeout.generalText ++ "s"
        url := url })
  | .transportFailed reason =>
      .error (.index { fault := .network, message := "Network error: " ++ reason, url := url })
  | .requestFailed reason =>
      .error (.index { fault := .network, message := "Request failed: " ++ reason, url := url })
  | .crashed reason => .error (.crashed reason)
  | .response response =>
      match statusFault? url now response with
      | some fault => .error fault
      | none => .ok response

/-- The wait in seconds before the attempt after the given one. A wait that the server asked for
counts instead of the doubled delay, up to a limit. -/
def waitAfter (plan : RequestPlan) (attempt : Nat) (error : IndexError) : Number :=
  match error.fault, error.retryAfter with
  | .rateLimited, some wait => Number.minOf wait plan.maxRetryAfter
  | _, _ => plan.baseDelay * .int (Nat.pow 2 (attempt - 1))

/-- What follows an attempt: the end of the request, or another attempt after a wait. -/
inductive Verdict where
  | finished (result : Except Fault HttpResponse)
  | retry (wait : Number) (error : IndexError)

/-- What follows the given attempt, of which the first has the number one. -/
def verdict (plan : RequestPlan) (now : DateTime) (attempt : Nat) (answer : IndexAnswer) :
    Verdict :=
  match plan.classify now answer with
  | .ok response => .finished (.ok response)
  | .error (.index error) =>
      if error.isRetryable && attempt < plan.attempts then
        .retry (plan.waitAfter attempt error) error
      else .finished (.error (.index error))
  | .error fault => .finished (.error fault)

/-- What the log says of a retry. -/
def retryRecord (plan : RequestPlan) (attempt : Nat) (wait : Number) (error : IndexError) :
    LogRecord :=
  .of "http" .warning <|
    error.fault.code ++ " (attempt " ++ toString attempt ++ "/" ++ toString plan.attempts ++
      "), retrying in " ++ wait.fixedText 2 ++ "s: " ++ String.ofList plan.url

/-- The JSON object that a response holds. -/
def document (plan : RequestPlan) (response : HttpResponse) :
    Except Fault (List (String × Json)) :=
  let failed (message : String) (body : Option String) : Except Fault (List (String × Json)) :=
    .error (.index {
      fault := .invalidResponse
      message
      url := String.ofList plan.url
      status := some response.status
      body })
  match response.json? with
  | none => failed "Invalid JSON response" (some response.text)
  | some (.object members) => .ok members
  | some _ => failed "Expected a JSON object" none

end RequestPlan

/-- The index can be reached: it answers, and not with a failure of the server. -/
def IndexAnswer.isReachable : IndexAnswer → Except Fault Bool
  | .response r => .ok (r.status < 500)
  | .crashed reason => .error (.crashed reason)
  | _ => .ok false

end ManifestLens
