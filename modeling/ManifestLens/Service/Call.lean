import ManifestLens.Editor.Card
import ManifestLens.Service.World

/-!
# Calls

What can be asked of the service, and how each call runs. A lookup reads the cache, joins the fetch of its
package or starts it, and stores the view that it derives. Calls wait for nothing but fetches, slots and
time, so everything between two waits happens at once.
-/

namespace ManifestLens

/-- A view of a package as it is asked for. -/
inductive Lookup where
  | metadata (includePre : Bool)
  | releases (includePre : Bool)
  | info
deriving DecidableEq, Repr

/-- A call of the service. -/
inductive ServiceCall where
  | metadata (name : String) (includePre : Option Bool)
  | releases (name : String) (includePre : Option Bool)
  | info (name : String)
  | latest (name : String)
  | compatible (name : String) (includePre : Option Bool) (python : String)
  | card (name : String) (includePre : Option Bool) (python : String)
  | prefetch (names : List String) (includePre : Option Bool) (concurrency : Int)
  | connectivity
  | wait (seconds : Number)
  | emptyCache
  | setBaseUrl (url : List Char)
  | adopt (config : Config)
  | statistics
  | keys
  | beginSweeping
  | close
  | settings
  /-- Several calls at once. -/
  | together (calls : List ServiceCall)
deriving Inhabited

/-- A task of the service. -/
inductive Errand where
  /-- The document of a package. -/
  | fetch (name : String)
  | call (call : ServiceCall)
  /-- One lookup of a prefetch, which takes a slot. -/
  | prefetchOne (name : String) (includePre : Option Bool) (slots : Nat)
  | lookup (lookup : Lookup) (name : String)
  | sweep

/-- The settings and cache use of a service. -/
structure ServiceStatistics where
  cache : CacheStatistics
  baseUrl : List Char
  timeout : Number
  attempts : Int
  inFlight : Nat

/-- What a call gives. -/
inductive Reply where
  | nothing
  | document (members : List (String × Json))
  | metadata (metadata : PackageOverview)
  | releases (releases : List Release)
  | info (info : PackageProfile)
  | value (value : Json)
  | flag (answer : Bool)
  | text (text : String)
  /-- A failure that belongs to the result. -/
  | failed (error : IndexError)
  | prefetched (results : List (String × Except IndexError PackageOverview))
  | statistics (statistics : ServiceStatistics)
  | keys (keys : List String)
  | settings (service : Service)
  | replies (replies : List (Except Fault Reply))

/-- How a task ends. -/
abbrev Outcome := Except Fault Reply

/-- Work of the service. -/
abbrev Work (α : Type) := Process World Errand Outcome α

/-- Work that may end in a fault. -/
abbrev FallibleWork (α : Type) := ExceptT Fault (Process World Errand Outcome) α

namespace Work

def log (record : LogRecord) : Work Unit := Process.modify (·.logged record)

/-- Reads something off the service. -/
def ofService {α : Type} (f : Service → α) : Work α := Process.read fun _ world => f world.service

/-- A change of the world that may fail, in which case nothing changes. -/
def attempt (f : World → Except Fault World) : FallibleWork Unit :=
  ExceptT.mk <| Process.update fun _ world =>
    match f world with
    | .ok world => (.ok (), world)
    | .error fault => (.error fault, world)

/-! ### Requests -/

/-- Sends a request and waits for what comes back. -/
def send (request : SentRequest) : Work IndexAnswer := do
  let exchange ← Process.update fun moment world => world.send moment.task request
  if 0 < exchange.delay then Process.wait exchange.delay
  Process.update fun moment world => ((), world.receive moment request exchange.answer)
  return exchange.answer

/-- Sends a request until it is finished, from the attempt with a number on and with that attempt at most
`left` times. Nothing comes of it if it is not finished then. -/
def request (plan : RequestPlan) (attempt : Nat) : Nat → Work (Option (Except Fault HttpResponse))
  | 0 => return none
  | left + 1 => do
      let answer ← send plan.request
      let today ← Process.read fun _ world => world.today
      match plan.verdict today attempt answer with
      | .finished result => return some result
      | .retry wait error => do
          log (plan.retryRecord attempt wait error)
          Process.modify fun world => { world with waits := world.waits ++ [wait] }
          Process.wait wait
          request plan (attempt + 1) left

/-- What nothing coming of a request would end with. -/
def unfinished : Fault := .crashed "unreachable"

/-- Requests a path below the base of the client and reads the JSON object that comes back. -/
def getDocument (path : List Char) (options : RequestOptions := {}) :
    FallibleWork (List (String × Json)) := do
  let plan ← ExceptT.lift <| ofService fun service => service.client.plan path options
  match ← ExceptT.lift (request plan 1 plan.attempts) with
  | some result => ExceptT.mk (pure (result.bind plan.document))
  | none => throw unfinished

/-- Asks whether the index answers at all, once. -/
def ping (timeout : Option Number := none) : FallibleWork Bool := do
  let client ← ExceptT.lift <| ofService Service.client
  let answer ← ExceptT.lift <| send ⟨client.baseUrl, timeout.getD client.timeout, none⟩
  match answer with
  | .transportFailed reason | .requestFailed reason =>
      ExceptT.lift <| log (.of "http" .debug
        ("Connectivity check to " ++ String.ofList client.baseUrl ++ " failed: " ++ reason))
  | .timedOut =>
      ExceptT.lift <| log (.of "http" .debug
        ("Connectivity check to " ++ String.ofList client.baseUrl ++ " failed: "))
  | _ => pure ()
  ExceptT.mk (pure answer.isReachable)

/-! ### Lookups -/

/-- The spelling under which a package is cached and fetched. -/
def normalized (name : String) : String := String.ofList (Package.normalizeName name.toList)

/-- The key of a view in the cache. -/
def cacheKey (lookup : Lookup) (name : String) : String :=
  match lookup with
  | .metadata includePre => CacheKey.package (normalized name) includePre
  | .releases includePre => CacheKey.versions (normalized name) includePre
  | .info => CacheKey.info (normalized name)

/-- The view of a document. -/
def derive (lookup : Lookup) (name : String) (document : List (String × Json)) :
    Except Fault CachedView :=
  match lookup with
  | .metadata includePre => (PackageDocument.metadata name document includePre).map .metadata
  | .releases includePre => (PackageDocument.releases name document includePre).map .releases
  | .info => (PackageDocument.info name document).map .info

def documentPath (name : String) : List Char :=
  IndexUrl.join [] [Text.trim name.toList, "json".toList]

/-- The fetch of a package that is under way, started if there is none. -/
def sharedFetch (name : String) : Work Nat := do
  let key := normalized name
  match ← ofService fun service => service.inFlight.find? (·.1 == key) with
  | some (_, task) => return task
  | none =>
      let task ← Process.start (.fetch name)
      Process.modify fun world => world.withService fun service =>
        { service with inFlight := service.inFlight ++ [(key, task)] }
      return task

/-- The document of a package. A failure is told under the spelling that was asked for. -/
def fetchDocument (name : String) : FallibleWork (List (String × Json)) := do
  let task ← ExceptT.lift (sharedFetch name)
  match ← ExceptT.lift (Process.await task) with
  | .finished (.ok (.document members)) => return members
  | .finished (.error fault) => throw (fault.forPackage name)
  | _ => throw .cancelled

/-- Looks up a view of a package. -/
def lookup (lookup : Lookup) (name : String) : FallibleWork CachedView := do
  let key := cacheKey lookup name
  match ← ExceptT.lift <| Process.update fun moment world => world.cached moment.now key with
  | some view => return view
  | none =>
      let document ← fetchDocument name
      let view ← ExceptT.mk (pure (derive lookup name document))
      ExceptT.lift <| Process.update fun moment world => ((), world.store moment.now key view)
      return view

/-- The preference for pre-releases that a call has, or that of the service. -/
def admitsPre (includePre : Option Bool) : Work Bool :=
  ofService fun service => includePre.getD service.includePre

def metadata (name : String) (includePre : Option Bool) : FallibleWork PackageOverview := do
  let includePre ← ExceptT.lift (admitsPre includePre)
  match ← lookup (.metadata includePre) name with
  | .metadata metadata => return metadata
  | _ => throw .cancelled

def releases (name : String) (includePre : Option Bool) : FallibleWork (List Release) := do
  let includePre ← ExceptT.lift (admitsPre includePre)
  match ← lookup (.releases includePre) name with
  | .releases releases => return releases
  | _ => throw .cancelled

/-- The descriptive view of a package. -/
def info (name : String) : FallibleWork PackageProfile := do
  match ← lookup .info name with
  | .info info => return info
  | _ => throw .cancelled

/-! ### Prefetching -/

/-- Changes some slots and tells which task to wake. -/
def updateSlots {α : Type} (index : Nat) (f : Moment → Slots → α × Slots) (default : α) :
    Work α :=
  Process.update fun moment world =>
    match world.slots[index]? with
    | some slots =>
        let (value, slots) := f moment slots
        (value, { world with slots := world.slots.set index slots })
    | none => (default, world)

/-- Wakes a task if one is given. -/
def rouse : Option Nat → Work Unit
  | some task => Process.rouse task
  | none => pure ()

/-- Takes a slot, waiting for one if necessary. -/
def takeSlot (index : Nat) : Work Unit := do
  if ← updateSlots index (fun moment slots => slots.take moment.task) true then return
  Process.pause
  rouse (← updateSlots index (fun moment slots => slots.leave moment.task) none)

/-- Gives a slot back. -/
def giveSlot (index : Nat) : Work Unit := do
  rouse (← updateSlots index (fun _ slots => slots.release) none)

/-- One lookup of a prefetch. A failure of the index is its result. -/
def prefetchOne (name : String) (includePre : Option Bool) (slots : Nat) : Work Outcome := do
  takeSlot slots
  let result ← (metadata name includePre).run
  let outcome ← match result with
    | .ok metadata => pure (.ok (.metadata metadata))
    | .error (.index error) => do
        log (.of "service" .debug
          ("Prefetch of " ++ name ++ " failed: " ++ (Failure.index error).text))
        pure (.ok (.failed error))
    | .error fault => pure (.error fault)
  giveSlot slots
  return outcome

/-- The first occurrence of each text. -/
def distinctNames (names : List String) : List String :=
  names.foldl (fun seen name => if seen.contains name then seen else seen ++ [name]) []

def prefetchResult : TaskResult Outcome → Except Fault (Except IndexError PackageOverview)
  | .finished (.ok (.metadata metadata)) => .ok (.ok metadata)
  | .finished (.ok (.failed error)) => .ok (.error error)
  | .finished (.error fault) => .error fault
  | _ => .error .cancelled

/-- Looks up many packages at once, with a bounded number of lookups at a time. -/
def prefetch (names : List String) (includePre : Option Bool) (concurrency : Int) :
    FallibleWork (List (String × Except IndexError PackageOverview)) := do
  let names := distinctNames names
  let slots ← ExceptT.lift <| Process.update fun _ world =>
    (world.slots.length,
      { world with slots := world.slots ++ [{ free := (max 1 concurrency).toNat }] })
  let tasks ← names.mapM fun name =>
    ExceptT.lift (Process.start (.prefetchOne name includePre slots))
  match ← ExceptT.lift (Process.awaitAll tasks true) with
  | .failed result =>
      let _ ← ExceptT.mk (pure (prefetchResult result))
      throw .cancelled
  | .all results =>
      let results ← ExceptT.mk (pure (results.mapM prefetchResult))
      return names.zip results

/-! ### Lifecycle -/

/-- Seconds for which it is remembered whether an index can be reached. -/
def connectivityLifetime : Number := 30

/-- Remembers whether the index can be reached. -/
def noteReachable (key : String) (answer : Bool) : Work Unit := do
  if !answer then
    let baseUrl ← ofService fun service => String.ofList service.client.baseUrl
    log (.of "service" .warning ("Package index " ++ baseUrl ++ " is not reachable"))
  Process.update fun moment world =>
    ((), world.store moment.now key (.reachable answer) (some connectivityLifetime))

/-- Whether the index can be reached. -/
def connectivity : FallibleWork Bool := do
  let key ← ExceptT.lift <| ofService fun service =>
    CacheKey.connectivity (String.ofList service.client.baseUrl)
  match ← ExceptT.lift <| Process.update fun moment world => world.cached moment.now key with
  | some (.reachable answer) => return answer
  | _ =>
      let answer ← ping
      ExceptT.lift (noteReachable key answer)
      return answer

/-- Starts the sweeper unless it runs. -/
def beginSweeping : FallibleWork Unit := do
  let (disposed, running) ← ExceptT.lift <| ofService fun service =>
    (service.isDisposed, service.sweeper.isSome)
  if disposed then throw .disposed
  if !running then
    ExceptT.lift do
      let task ← Process.start .sweep
      Process.modify fun world => world.withService fun service =>
        { service with sweeper := some task }

/-- Ends all fetches, drops everything cached and closes the connection. Only the first time counts. -/
def close : Work Unit := do
  let service ← ofService id
  if service.isClosed then return
  Process.modify fun world => world.withService fun service =>
    { service with isClosed := true, inFlight := [] }
  for (_, task) in service.inFlight do
    Process.stop task
  match service.sweeper with
  | some task => Process.stop task
  | none => pure ()
  Process.modify fun world => world.withService fun service =>
    { service with
      sweeper := none
      isDisposed := true
      cache := service.cache.clear
      client := { service.client with isOpen := false } }

/-- Removes expired entries once a period, at most `sweeps` times. -/
def sweep : Nat → Work Outcome
  | 0 => pure (.ok .nothing)
  | sweeps + 1 => do
      let period ← ofService Service.sweepPeriod
      Process.wait period
      Process.update fun moment world =>
        let now : Number := .float moment.now
        let cache := world.service.cache
        let expired := cache.expiredCount now
        let world := world.withService fun service => { service with cache := cache.purge now }
        ((), if expired = 0 then world
          else world.logged
            (.of "cache" .debug ("Swept " ++ toString expired ++ " expired cache entries")))
      sweep sweeps

def statistics : Work ServiceStatistics :=
  Process.read fun moment world =>
    let service := world.service
    { cache := service.cache.statistics (.float moment.now)
      baseUrl := service.client.baseUrl
      timeout := service.client.timeout
      attempts := service.client.attempts
      inFlight := service.inFlight.length }

def outcomeOf : TaskResult Outcome → Outcome
  | .finished outcome => outcome
  | _ => .error .cancelled

def perform : ServiceCall → FallibleWork Reply
  | .metadata name includePre => return .metadata (← metadata name includePre)
  | .releases name includePre => return .releases (← releases name includePre)
  | .info name => return .info (← info name)
  | .latest name => return .value (← metadata name (some false)).latest
  | .compatible name includePre python => do
      let metadata ← metadata name includePre
      return .flag (← ExceptT.mk (pure (metadata.runsOn python.toList)))
  | .card name includePre python => do
      let metadata ← metadata name includePre
      let releases ← releases name includePre
      let info ← info name
      return .text (← ExceptT.mk (pure (Card.render metadata releases info python)))
  | .prefetch names includePre concurrency =>
      return .prefetched (← prefetch names includePre concurrency)
  | .connectivity => return .flag (← connectivity)
  | .wait seconds => do
      ExceptT.lift (Process.wait seconds)
      return .nothing
  | .emptyCache => do
      ExceptT.lift (Process.modify World.emptyCache)
      return .nothing
  | .setBaseUrl url => do
      attempt (·.setBaseUrl url)
      return .nothing
  | .adopt config => do
      ExceptT.mk (Process.update fun _ world => world.adopt config)
      return .nothing
  | .statistics => return .statistics (← ExceptT.lift statistics)
  | .keys => return .keys (← ExceptT.lift (ofService fun service => service.cache.keys))
  | .beginSweeping => do
      beginSweeping
      return .nothing
  | .close => do
      ExceptT.lift close
      return .nothing
  | .settings => return .settings (← ExceptT.lift (ofService id))
  | .together calls => do
      let tasks ← calls.mapM fun call => ExceptT.lift (Process.start (.call call))
      match ← ExceptT.lift (Process.awaitAll tasks false) with
      | .failed result => return .replies [outcomeOf result]
      | .all results => return .replies (results.map outcomeOf)

def replyOf : CachedView → Reply
  | .metadata metadata => .metadata metadata
  | .releases releases => .releases releases
  | .info info => .info info
  | .reachable answer => .flag answer

/-- A bound on the sweeps of one sweeper. -/
def maxSweeps : Nat := 1000000000

/-- What a task does. -/
def run : Errand → Work Outcome
  | .fetch name =>
      ((getDocument (documentPath name)).run).andThen fun result => pure (result.map .document)
  | .call call => (perform call).run
  | .prefetchOne name includePre slots => prefetchOne name includePre slots
  | .lookup view name => ((lookup view name).run).andThen fun result => pure (result.map replyOf)
  | .sweep => sweep maxSweeps

/-- The tasks of the service. A fetch that has ended is under way no longer. -/
def program : Program World Errand Outcome where
  body := run
  onCancel task world := world.settle task
  onEnd task world := world.withService fun service =>
    { service with inFlight := service.inFlight.filter (·.2 != task) }
  fails
    | .ok _ => false
    | .error _ => true

end Work

end ManifestLens

/-!
## Running the service

A run of the service is a scheduler over the world of the service. Work is executed in it from outside.
-/

namespace ManifestLens

/-- A run of the service. -/
abbrev ServiceRun := Scheduler World Errand Outcome

namespace ServiceRun

/-- The greatest number of turns that one piece of work is given. -/
def maxTurns : Nat := 1000000

/-- Executes work to its end. Work that never ends counts as cancelled. -/
def execute {α : Type} (run : ServiceRun) (work : FallibleWork α) : ServiceRun × Except Fault α :=
  match run.run Work.program maxTurns work.run with
  | (run, some result) => (run, result)
  | (run, none) => (run, .error .cancelled)

end ServiceRun

end ManifestLens
