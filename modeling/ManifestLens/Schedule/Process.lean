import ManifestLens.Number.Basic

/-!
# Cooperative processes

A process works on a state that it shares with others. It runs without interruption until it waits: for a time
to pass, for another task to finish, or to be woken. Tasks are started from descriptions, so that processes
can be written down before anything runs.
-/

namespace ManifestLens

/-- When and in which task something happens. -/
structure Moment where
  now : Binary64
  task : Nat
deriving Repr

/-- How a task has ended, or that it has not. -/
inductive TaskResult (ρ : Type) where
  | running
  | cancelled
  | finished (result : ρ)

/-- What a wait for several tasks ends with: their results, or that of the one whose failure ended it. -/
inductive GroupResult (ρ : Type) where
  | all (results : List (TaskResult ρ))
  | failed (result : TaskResult ρ)

/-- A process over states `σ` in a world of tasks with descriptions `δ` and results `ρ`. -/
inductive Process (σ δ ρ α : Type) where
  | done (value : α)
  /-- Looks at the moment and the state. -/
  | look (next : Moment → σ → Process σ δ ρ α)
  /-- Changes the state. -/
  | change (f : σ → σ) (next : Process σ δ ρ α)
  /-- Starts a task, which runs when its turn comes. -/
  | spawn (task : δ) (next : Nat → Process σ δ ρ α)
  /-- Asks a task to end. -/
  | cancel (task : Nat) (next : Process σ δ ρ α)
  /-- Waits for a number of seconds, or for a turn of the others if it is not positive. -/
  | sleep (seconds : Number) (next : Process σ δ ρ α)
  /-- Waits for a task, without being able to end it. -/
  | join (task : Nat) (next : TaskResult ρ → Process σ δ ρ α)
  /-- Waits for tasks: for all of them, or if `eager` until one of them fails. -/
  | joinAll (tasks : List Nat) (eager : Bool) (next : GroupResult ρ → Process σ δ ρ α)
  /-- Waits to be woken. -/
  | park (next : Process σ δ ρ α)
  /-- Wakes a task that waits to be woken. -/
  | wake (task : Nat) (next : Process σ δ ρ α)

namespace Process

variable {σ δ ρ α β : Type}

/-- Goes on with another process after a process is done. -/
def andThen (p : Process σ δ ρ α) (f : α → Process σ δ ρ β) : Process σ δ ρ β :=
  match p with
  | .done value => f value
  | .look next => .look fun moment state => (next moment state).andThen f
  | .change g next => .change g (next.andThen f)
  | .spawn task next => .spawn task fun id => (next id).andThen f
  | .cancel task next => .cancel task (next.andThen f)
  | .sleep seconds next => .sleep seconds (next.andThen f)
  | .join task next => .join task fun result => (next result).andThen f
  | .joinAll tasks eager next => .joinAll tasks eager fun result => (next result).andThen f
  | .park next => .park (next.andThen f)
  | .wake task next => .wake task (next.andThen f)

instance : Monad (Process σ δ ρ) where
  pure := .done
  bind := andThen

/-- Reads something off the moment and the state. -/
def read (f : Moment → σ → α) : Process σ δ ρ α :=
  .look fun moment state => .done (f moment state)

def modify (f : σ → σ) : Process σ δ ρ Unit := .change f (.done ())

/-- Changes the state and reads something off it. -/
def update (f : Moment → σ → α × σ) : Process σ δ ρ α :=
  .look fun moment state =>
    let (value, state) := f moment state
    .change (fun _ => state) (.done value)

def start (task : δ) : Process σ δ ρ Nat := .spawn task .done

/-- Asks a task to end. -/
def stop (task : Nat) : Process σ δ ρ Unit := .cancel task (.done ())

def wait (seconds : Number) : Process σ δ ρ Unit := .sleep seconds (.done ())

/-- Waits to be woken. -/
def pause : Process σ δ ρ Unit := .park (.done ())

def rouse (task : Nat) : Process σ δ ρ Unit := .wake task (.done ())

def await (task : Nat) : Process σ δ ρ (TaskResult ρ) := .join task .done

def awaitAll (tasks : List Nat) (eager : Bool) : Process σ δ ρ (GroupResult ρ) :=
  .joinAll tasks eager .done

end Process

end ManifestLens
