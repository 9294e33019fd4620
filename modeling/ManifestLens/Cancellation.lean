/-!
# Cancellation

A token shared between the owner of a request and those who serve it. Callbacks registered before
the cancellation run in their order when it happens; those registered later run at once. A callback
works on the token itself, so it may register others.
-/

namespace ManifestLens

/-- A callback: the name it leaves in the log, and the callbacks that it registers after that. -/
inductive Callback where
  | mk (name : String) (registers : List Callback)

/-- The state of a token: whether it is cancelled, the callbacks that wait for it, and the names left
by those that ran. -/
structure Cancellation where
  isCancelled : Bool := false
  waiting : List Callback := []
  log : List String := []

namespace Cancellation

mutual

/-- Calls a callback, which leaves its name and then registers its callbacks. -/
def call (token : Cancellation) : Callback → Cancellation
  | .mk name registers => registerAll { token with log := token.log ++ [name] } registers

/-- Registers callbacks one after another. One that finds the token cancelled is called at once,
before the next one is registered; otherwise it waits. -/
def registerAll (token : Cancellation) : List Callback → Cancellation
  | [] => token
  | callback :: rest =>
      registerAll
        (if token.isCancelled then call token callback
        else { token with waiting := token.waiting ++ [callback] })
        rest

end

/-- Registers a callback, which is called at once if the token is cancelled. -/
def register (token : Cancellation) (callback : Callback) : Cancellation :=
  token.registerAll [callback]

/-- Requests cancellation. Only the first request calls the callbacks that wait, and by then they wait
no more and the token is cancelled. -/
def cancel (token : Cancellation) : Cancellation :=
  if token.isCancelled then token
  else token.waiting.foldl call { token with isCancelled := true, waiting := [] }

def text (token : Cancellation) : String :=
  "CancellationToken(cancelled=" ++ (if token.isCancelled then "True" else "False") ++ ")"

end Cancellation

end ManifestLens
