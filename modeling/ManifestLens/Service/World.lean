import ManifestLens.Cache.Basic
import ManifestLens.Config.Basic
import ManifestLens.Index.Client
import ManifestLens.Index.Document
import ManifestLens.Package.Name
import ManifestLens.Schedule.Scheduler

/-!
# The metadata service and its surroundings

The service caches the views of packages and shares one fetch between all who ask for a package at the same
time. Its surroundings are the index that answers, the calendar, and the record of what was sent, received,
waited and logged.
-/

namespace ManifestLens

/-- A cached value. -/
inductive CachedView where
  | metadata (metadata : PackageOverview)
  | releases (releases : List Release)
  | info (info : PackageProfile)
  | reachable (answer : Bool)

/-- The metadata service. -/
structure Service where
  client : IndexClient
  cache : Cache Number CachedView
  /-- Seconds between two sweeps. -/
  sweepPeriod : Number
  /-- The task of the sweeper, once it has been started. -/
  sweeper : Option Nat := none
  isDisposed : Bool := false
  /-- Pre-releases are on offer unless a call says otherwise. -/
  includePre : Bool
  /-- The unfinished fetches by normalised package name. -/
  inFlight : List (String × Nat) := []
  isClosed : Bool := false
  config : Option Config := none

namespace Service

def seconds (milliseconds : Int) : Number := .float ((Number.int milliseconds).divNat 1000)

/-- The service with the settings of a configuration. -/
def ofConfig (config : Config) : Except Fault Service := do
  let client ← (IndexClient.make config.indexUrl (seconds config.requestTimeout)
    config.retryAttempts (seconds config.retryDelay)).mapError .badUrl
  if config.cacheCapacity < 1 then throw .noCapacity
  return {
    client
    cache := .empty (.int (config.cacheMinutes * 60)) config.cacheCapacity.toNat
    sweepPeriod := .int config.sweepPeriod
    includePre := config.listPreReleases
    config }

end Service

/-- A bounded number of slots, and the tasks that wait for one with those marked that have been woken. -/
structure Slots where
  free : Nat
  waiting : List (Nat × Bool) := []

namespace Slots

/-- Gives a free slot to the first task that has not been woken. -/
def wakeNext (slots : Slots) : Option Nat × Slots :=
  match slots.waiting.find? (!·.2) with
  | some (task, _) =>
      (some task,
        { free := slots.free - 1
          waiting := slots.waiting.map fun w => if w.1 = task then (task, true) else w })
  | none => (none, slots)

/-- Takes a slot if one is free and nobody waits; otherwise the task waits. -/
def take (slots : Slots) (task : Nat) : Bool × Slots :=
  if 0 < slots.free && slots.waiting.isEmpty then (true, { slots with free := slots.free - 1 })
  else (false, { slots with waiting := slots.waiting ++ [(task, false)] })

/-- A woken task waits no longer; a slot that is free beyond its own goes to the next one. -/
def leave (slots : Slots) (task : Nat) : Option Nat × Slots :=
  let slots := { slots with waiting := slots.waiting.filter (·.1 != task) }
  if 0 < slots.free then slots.wakeNext else (none, slots)

/-- Gives a slot back. -/
def release (slots : Slots) : Option Nat × Slots := { slots with free := slots.free + 1 }.wakeNext

end Slots

/-- An answer that came back from a request. -/
structure Receipt where
  /-- When the answer was there. -/
  time : Binary64
  request : SentRequest
  answer : IndexAnswer

/-- The service with its surroundings. -/
structure World where
  service : Service
  script : AnswerScript
  /-- The moment that dates are compared with. -/
  today : DateTime
  sent : List SentRequest := []
  received : List Receipt := []
  waits : List Number := []
  log : List LogRecord := []
  /-- The tasks with an open request. -/
  openRequests : List Nat := []
  /-- The greatest number of requests open at once. -/
  peak : Nat := 0
  slots : List Slots := []
  /-- The user has cancelled the request. -/
  isCancelled : Bool := false
  /-- The user cancels as soon as something is sent. -/
  cancelsOnSend : Bool := false

namespace World

def withService (world : World) (f : Service → Service) : World :=
  { world with service := f world.service }

def logged (world : World) (record : LogRecord) : World := { world with log := world.log ++ [record] }

/-- Sends a request: the exchange that follows, and the world after. -/
def send (world : World) (task : Nat) (request : SentRequest) : Exchange × World :=
  let (exchange, script) := world.script.next request.url
  let openRequests := task :: world.openRequests
  (exchange,
    { world with
      script, openRequests
      service := { world.service with client := { world.service.client with isOpen := true } }
      sent := world.sent ++ [request]
      peak := max world.peak openRequests.length
      isCancelled := world.isCancelled || world.cancelsOnSend })

/-- The request of a task is over. -/
def settle (world : World) (task : Nat) : World :=
  { world with openRequests := world.openRequests.erase task }

/-- The answer to the request of a task is there. -/
def receive (world : World) (moment : Moment) (request : SentRequest) (answer : IndexAnswer) : World :=
  { world.settle moment.task with received := world.received ++ [⟨moment.now, request, answer⟩] }

/-- Reads a cached value. -/
def cached (world : World) (now : Binary64) (key : String) : Option CachedView × World :=
  let before := world.service.cache
  let (view, cache) := before.get (.float now) key
  let world := world.withService fun s => { s with cache }
  (view,
    if view.isNone && (before.entry? key).isSome then
      world.logged (.of "cache" .debug ("Cache entry expired: " ++ key))
    else world)

/-- What the log says of evicted keys. -/
def evictionRecords (before after : List String) : List LogRecord :=
  (before.filter fun key => !after.contains key).map fun key =>
    .of "cache" .debug ("Evicted least recently used cache entry: " ++ key)

/-- Stores a value in the cache. -/
def store (world : World) (now : Binary64) (key : String) (view : CachedView)
    (ttl : Option Number := none) : World :=
  let before := world.service.cache
  let cache := before.set (.float now) key view ttl
  { world.withService fun s => { s with cache } with
    log := world.log ++ evictionRecords before.keys cache.keys }

/-- Drops everything cached. -/
def emptyCache (world : World) : World :=
  let count := world.service.cache.size
  let world := world.withService fun s => { s with cache := s.cache.clear }
  if count = 0 then world
  else world.logged (.of "cache" .debug ("Cleared " ++ toString count ++ " cache entries"))

/-- Points the service at another index and drops everything cached. -/
def setBaseUrl (world : World) (url : List Char) : Except Fault World := do
  let client ← (world.service.client.withBaseUrl url).mapError .badUrl
  let name := String.ofList client.baseUrl
  let world := (world.withService fun s => { s with client }).logged
    (.of "http" .debug ("Base URL set to " ++ name))
  return world.emptyCache.logged
    (.of "service" .info ("Package index changed to " ++ name ++ "; cache cleared"))

/-- Changes lifetime and capacity of the cache. -/
def resizeCache (world : World) (config : Config) : Bool × World :=
  let before := world.service.cache
  let (cache, accepted) :=
    before.adjust (some (.int (config.cacheMinutes * 60))) (some config.cacheCapacity)
  (accepted,
    { world.withService fun s => { s with cache } with
      log := world.log ++ evictionRecords before.keys cache.keys })

/-- Takes over a changed configuration. Only the preference for pre-releases changes unless a setting of
client or cache did; another index drops everything cached. Settings changed before a fault stay
changed. -/
def adopt (world : World) (config : Config) : Except Fault Unit × World :=
  let previous := world.service.config
  let world := world.withService fun s =>
    { s with config, includePre := config.listPreReleases }
  if previous.any fun old => !Config.isSignificantChange old config then
    (.ok (), world.logged
      (.of "service" .debug "Configuration change needs no client or cache rebuild"))
  else
    let world := world.withService fun s =>
      { s with
        client := s.client.configure (some (Service.seconds config.requestTimeout))
          (some config.retryAttempts) (some (Service.seconds config.retryDelay)) }
    let (accepted, world) := world.resizeCache config
    if !accepted then (.error .noCapacity, world)
    else
      match IndexUrl.normalize config.indexUrl with
      | .error fault => (.error (.badUrl fault), world)
      | .ok url =>
          if url = world.service.client.baseUrl then (.ok (), world)
          else
            match world.setBaseUrl config.indexUrl with
            | .ok world => (.ok (), world)
            | .error fault => (.error fault, world)

end World

end ManifestLens
