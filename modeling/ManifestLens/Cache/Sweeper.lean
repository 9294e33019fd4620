import ManifestLens.Cache.Basic
import ManifestLens.Number.Basic

/-!
# Sweeping a cache

A sweeper removes the expired entries of a cache once every period. Time here jumps from one event to
the next. Where a sweep and the end of a wait fall on the same instant, the one whose timer was set
first comes first; a sweep that comes second happens when the next wait begins.
-/

namespace ManifestLens

variable {T V : Type}

/-- What a sweeper is waiting for. -/
inductive SweeperState (T : Type) where
  /-- For the first wait to begin, when it sets its timer. -/
  | starting
  /-- For its timer. -/
  | sleeping (due : T)
  /-- For the next wait to begin, with a sweep that is due already. -/
  | waking
deriving DecidableEq, Repr

/-- A cache with its clock and its sweeper. -/
structure SweptCache (T V : Type) where
  cache : Cache T V
  now : T
  period : T
  sweeper : Option (SweeperState T)
  isDisposed : Bool

namespace SweptCache

def isRunning (swept : SweptCache T V) : Bool := swept.sweeper.isSome

/-- Starts the sweeper unless it runs. A disposed cache has none any more. -/
def start? (swept : SweptCache T V) : Option (SweptCache T V) :=
  if swept.isDisposed then none
  else if swept.isRunning then some swept
  else some { swept with sweeper := some .starting }

/-- What is said of starting the sweeper of a disposed cache. -/
def disposedMessage : String := "Cannot start sweeper on a disposed cache"

/-- Stops the sweeper for good and drops all entries. -/
def dispose (swept : SweptCache T V) : SweptCache T V :=
  { swept with cache := swept.cache.clear, sweeper := none, isDisposed := true }

section Clock

variable [Add T] [Sub T] [LE T] [DecidableLE T] [LT T] [DecidableLT T]

/-- Removes the expired entries and sets the timer for the next sweep. -/
def sweep (swept : SweptCache T V) : SweptCache T V :=
  { swept with
    cache := swept.cache.purge swept.now
    sweeper := some (.sleeping (swept.now + swept.period)) }

/-- Lets the sweeper do what it only waits for a wait to begin for. -/
def yield (swept : SweptCache T V) : SweptCache T V :=
  match swept.sweeper with
  | some .starting => { swept with sweeper := some (.sleeping (swept.now + swept.period)) }
  | some .waking => swept.sweep
  | _ => swept

/-- Sweeps until the end of a wait, at most `fuel` times. `first` tells that the timer of the sweeper
was set before that of the wait. -/
def sweepUntil (fuel : Nat) (finish : T) (first : Bool) (swept : SweptCache T V) :
    SweptCache T V :=
  match fuel, swept.sweeper with
  | fuel + 1, some (.sleeping due) =>
      if due < finish ∨ (due ≤ finish ∧ first) then
        sweepUntil fuel finish false { swept with now := due }.sweep
      else if due ≤ finish then { swept with now := finish, sweeper := some .waking }
      else { swept with now := finish }
  | _, _ => { swept with now := finish }

/-- Waits until an instant, at which the timer is set after the sweeper's if that one sleeps. -/
def waitUntil (fuel : Nat) (finish : T) (swept : SweptCache T V) : SweptCache T V :=
  let first := match swept.sweeper with
    | some (.sleeping _) => true
    | _ => false
  sweepUntil fuel finish first swept.yield

/-- Waits for a time in which the sweeper sweeps at most `fuel` times; a time that is not positive only lets
the sweeper catch up. -/
def advanceBy [OfNat T 0] (fuel : Nat) (swept : SweptCache T V) (wait : T) : SweptCache T V :=
  if wait ≤ 0 then swept.yield else swept.waitUntil fuel (swept.now + wait)

end Clock

/-- A bound on the number of sweeps in a wait, one every period. -/
def sweepCount (wait period : Rat) : Nat := 2 * (wait / period).floor.toNat + 10

/-- The bound for times as they are written. -/
def sweepBound (wait period : Number) : Nat :=
  match wait.toBinary64.toRat?, period.toBinary64.toRat? with
  | some wait, some period => if 0 < period then sweepCount wait period else 0
  | _, _ => 0

/-- Waits for a time in seconds. -/
def advance {V : Type} (swept : SweptCache Number V) (wait : Number) : SweptCache Number V :=
  swept.advanceBy (sweepBound wait swept.period) wait

end SweptCache

end ManifestLens
