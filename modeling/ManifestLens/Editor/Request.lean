import ManifestLens.Editor.Action
import ManifestLens.Editor.Completion
import ManifestLens.Editor.Line
import ManifestLens.Service.Call

/-!
# Editor requests

Completion, hover and quick actions for a place in a buffer. A package that cannot be looked up yields no
result instead of a failure, and a request that the user has cancelled yields nothing.
-/

namespace ManifestLens

/-- What is shown for the package under the cursor. -/
structure Hover where
  contents : String
  line : Nat
  span : Span
deriving DecidableEq, Repr

namespace Work

def logAll (records : List LogRecord) : Work Unit :=
  Process.modify fun world => { world with log := world.log ++ records }

def isCancelled : Work Bool := Process.read fun _ world => world.isCancelled

/-- What the log says of a failed lookup. -/
def failureRecord (name : String) : Fault → LogRecord
  | .index error =>
      if error.fault = .packageNotFound then
        .of "providers" .debug ("Package " ++ name ++ " not found")
      else
        .of "providers" .warning ("Could not fetch metadata for " ++ name ++ ": " ++
          (Failure.index error).text)
  | _ =>
      { LogRecord.of "providers" .error ("Unexpected error while fetching metadata for " ++ name)
        with hasTrace := true }

/-- The result of a lookup; nothing if it failed or if the request has been cancelled meanwhile. -/
def guarded {α : Type} (name : String) (lookup : FallibleWork α) : FallibleWork (Option α) :=
  ExceptT.mk <| lookup.run.andThen fun
    | .error .cancelled => pure (.error .cancelled)
    | .error fault => do
        log (failureRecord name fault)
        return .ok none
    | .ok value => do
        if ← isCancelled then
          log (.of "providers" .debug ("Request for " ++ name ++ " cancelled"))
          return .ok none
        else return .ok (some value)

def complete (buffer : Buffer) (position : Position) (includePre : Option Bool) :
    FallibleWork (List Suggestion) := do
  ExceptT.lift (logAll (buffer.searchRecords position.line))
  match buffer.completionSite? position with
  | none => return []
  | some site =>
      if ← ExceptT.lift isCancelled then return []
      let name := String.ofList site.dependency.name
      match ← guarded name (metadata name includePre) with
      | none => return []
      | some metadata =>
          let items ← ExceptT.mk (pure (Suggestion.ofMetadata metadata site position.line))
          ExceptT.lift <| log <| .of "providers.completion" .debug
            ("Offering " ++ toString items.length ++ " versions of " ++ name)
          return items

/-- The three views of a package, which share one fetch. -/
def views (name : String) : FallibleWork (PackageOverview × List Release × PackageProfile) := do
  let tasks ← [Lookup.metadata true, .releases true, .info].mapM fun view =>
    ExceptT.lift (Process.start (.lookup view name))
  match ← ExceptT.lift (Process.awaitAll tasks true) with
  | .all [.finished (.ok (.metadata metadata)), .finished (.ok (.releases releases)),
      .finished (.ok (.info info))] => return (metadata, releases, info)
  | .failed (.finished (.error fault)) => throw fault
  | _ => throw .cancelled

/-- What is shown for a position, for an interpreter version. -/
def hover (buffer : Buffer) (position : Position) (python : String) :
    FallibleWork (Option Hover) := do
  ExceptT.lift (logAll (buffer.searchRecords position.line))
  match buffer.dependencyNamedAt? position with
  | none => return none
  | some dependency =>
      if ← ExceptT.lift isCancelled then return none
      let name := String.ofList dependency.name
      match ← guarded name (views name) with
      | none => return none
      | some (metadata, releases, info) =>
          let contents ← ExceptT.mk (pure (Card.render metadata releases info python))
          return some ⟨contents, dependency.line, dependency.nameSpan⟩

/-- The actions for some dependencies, after those found so far; none at all once the request is
cancelled. -/
def actionsFor (found : List QuickAction) :
    List Dependency → FallibleWork (Option (List QuickAction))
  | [] => return some found
  | dependency :: rest => do
      if ← ExceptT.lift isCancelled then return none
      let name := String.ofList dependency.name
      match ← guarded name (metadata name (some false)) with
      | none =>
          if ← ExceptT.lift isCancelled then return none
          actionsFor found rest
      | some metadata => actionsFor (found ++ QuickAction.ofMetadata dependency metadata) rest

def actions (buffer : Buffer) (line : Int) : FallibleWork (List QuickAction) := do
  ExceptT.lift (logAll (buffer.searchRecords line))
  match ← actionsFor [] (buffer.dependenciesOn line) with
  | none => return []
  | some actions =>
      ExceptT.lift <| log <| .of "providers.actions" .debug
        ("Offering " ++ toString actions.length ++ " actions on line " ++ toString line)
      return actions

end Work

end ManifestLens
