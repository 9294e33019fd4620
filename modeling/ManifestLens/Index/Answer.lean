import ManifestLens.Json.Reader
import ManifestLens.Number.Basic
import ManifestLens.Text.Character
import ManifestLens.Text.Trim
import ManifestLens.Text.Utf8

/-!
# Answers of an index

What can come back from a request: a response with its body in bytes, or one of several ways to fail before
there is a response.
-/

namespace ManifestLens

/-- A response of a server. -/
structure HttpResponse where
  status : Int
  headers : List (String × String) := []
  body : List UInt8 := []
deriving DecidableEq, Repr

namespace HttpResponse

/-- The values of a header, whose name may be written in any case, as one text. -/
def header? (response : HttpResponse) (name : String) : Option String :=
  let wanted := Text.lower name.toList
  match response.headers.filter fun (key, _) => Text.lower key.toList == wanted with
  | [] => none
  | found => some (", ".intercalate (found.map Prod.snd))

def text (response : HttpResponse) : String := String.ofList (Text.Utf8.decodeReplacing response.body)

/-- The body as a JSON value. -/
def json? (response : HttpResponse) : Option Json :=
  (Text.decodeDocument? response.body).bind Json.read?

/-- The response to a request for what is not there. -/
def notFound : HttpResponse := { status := 404 }

end HttpResponse

/-- What comes back from a request. -/
inductive IndexAnswer where
  | response (response : HttpResponse)
  | timedOut
  /-- The connection failed. -/
  | transportFailed (reason : String)
  /-- The request failed in another way that the client knows. -/
  | requestFailed (reason : String)
  /-- Something failed that the client does not know. -/
  | crashed (reason : String)
deriving DecidableEq, Repr

/-- An answer and the seconds until it comes. -/
structure Exchange where
  answer : IndexAnswer
  delay : Number := 0
deriving DecidableEq, Repr

/-- The answers that are still to come. -/
inductive AnswerScript where
  /-- Answers used one after another; after the last one nothing is found any more. -/
  | sequence (exchanges : List Exchange)
  /-- Answers by package, used one after another, of which the last one repeats. -/
  | byPackage (rows : List (String × List Exchange))
  /-- The same answer every time. -/
  | constant (exchange : Exchange)
deriving DecidableEq, Repr

namespace AnswerScript

/-- The key of requests that do not ask for a package document. -/
def rootKey : String := "/"

/-- The package that a URL asks for: in lower case what stands before the final `json`. -/
def keyOf (url : List Char) : String :=
  match (Text.splitOn '/' url).reverse with
  | last :: package :: _ =>
      if last = "json".toList then String.ofList (Text.lower package) else rootKey
  | _ => rootKey

/-- What answers a request that no row is for: the index itself is there, and packages are not. -/
def fallback (key : String) : Exchange :=
  ⟨.response { HttpResponse.notFound with status := if key = rootKey then 200 else 404 }, 0⟩

/-- The rows with the next answer of a row used up, unless it is the last one. -/
def advance (key : String) : List (String × List Exchange) → List (String × List Exchange)
  | [] => []
  | (k, exchanges) :: rest =>
      if k = key then
        match exchanges with
        | _ :: second :: more => (k, second :: more) :: rest
        | _ => (k, exchanges) :: rest
      else (k, exchanges) :: advance key rest

/-- The answer to a request, and the answers after it. -/
def next (script : AnswerScript) (url : List Char) : Exchange × AnswerScript :=
  match script with
  | .sequence [] => (⟨.response .notFound, 0⟩, script)
  | .sequence (exchange :: rest) => (exchange, .sequence rest)
  | .byPackage rows =>
      let key := keyOf url
      match rows.find? (·.1 == key) with
      | some (_, exchange :: _) => (exchange, .byPackage (advance key rows))
      | _ => (fallback key, script)
  | .constant exchange => (exchange, script)

end AnswerScript

end ManifestLens
