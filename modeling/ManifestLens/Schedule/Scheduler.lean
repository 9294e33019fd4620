import ManifestLens.Schedule.Process
import ManifestLens.Schedule.TimerHeap

/-!
# Running processes in virtual time

A scheduler gives turns in the order in which they were asked for. Time does not pass while anyone has a turn;
then it jumps to the first timer. That a task has ended is passed on in turns of its own, so whoever waits for
it goes on after everything that was ready before.
-/

namespace ManifestLens

variable {σ δ ρ α : Type}

/-- What the tasks of a world do. -/
structure Program (σ δ ρ : Type) where
  body : δ → Process σ δ ρ ρ
  /-- What a cancelled task undoes. -/
  onCancel : Nat → σ → σ
  /-- What follows the end of a task before anyone is told. -/
  onEnd : Nat → σ → σ
  /-- A result that ends an eager wait. -/
  fails : ρ → Bool

/-- What a paused process goes on with. -/
inductive Paused (σ δ ρ α : Type) where
  | plain (next : Process σ δ ρ α)
  | joining (task : Nat) (next : TaskResult ρ → Process σ δ ρ α)
  | gathering (tasks : List Nat) (next : GroupResult ρ → Process σ δ ρ α)

/-- How far a task is. -/
inductive TaskStatus (σ δ ρ : Type) where
  /-- Run from outside the scheduler. -/
  | outside
  | fresh (task : δ)
  | paused (paused : Paused σ δ ρ ρ)
  | ended (result : TaskResult ρ)

/-- Who is to be told of the end of a task. -/
inductive Watcher where
  /-- A task that waits for it. -/
  | waiter (task : Nat)
  /-- A task that waits for several. -/
  | gatherer (task : Nat)
deriving DecidableEq, Repr

/-- A task. -/
structure TaskState (σ δ ρ : Type) where
  status : TaskStatus σ δ ρ
  /-- What the task was started for; nothing in the task that is run from outside. -/
  errand : Option δ := none
  isCancelled : Bool := false
  /-- The timer that the task waits for. -/
  timer : Option Nat := none
  watchers : List Watcher := []
  /-- The number of tasks that are still waited for together, and whether a failure ends the wait. -/
  group : Option (Nat × Bool) := none
  /-- The task whose failure ended the wait. -/
  failed : Option Nat := none

/-- A turn that was asked for. -/
inductive Turn where
  | run (task : Nat)
  | ended (task : Nat)
  | tell (watcher : Nat)
  | settle (child watcher : Nat)
deriving DecidableEq, Repr

/-- The state of all tasks. The task with the number zero is run from outside. -/
structure Scheduler (σ δ ρ : Type) where
  now : Binary64 := .finite 0
  state : σ
  timers : TimerHeap := {}
  timerCount : Nat := 0
  cancelledTimers : List Nat := []
  ready : List Turn := []
  tasks : Array (TaskState σ δ ρ) := #[{ status := .outside }]

namespace Scheduler

def ask (s : Scheduler σ δ ρ) (turn : Turn) : Scheduler σ δ ρ := { s with ready := s.ready ++ [turn] }

def modifyTask (s : Scheduler σ δ ρ) (task : Nat) (f : TaskState σ δ ρ → TaskState σ δ ρ) :
    Scheduler σ δ ρ :=
  { s with tasks := s.tasks.modify task f }

def errandOf (s : Scheduler σ δ ρ) (task : Nat) : Option δ := s.tasks[task]?.bind TaskState.errand

def resultOf (s : Scheduler σ δ ρ) (task : Nat) : TaskResult ρ :=
  match s.tasks[task]? with
  | some { status := .ended result, .. } => result
  | _ => .running

def hasEnded (s : Scheduler σ δ ρ) (task : Nat) : Bool :=
  match s.resultOf task with
  | .running => false
  | _ => true

def watch (s : Scheduler σ δ ρ) (task : Nat) (watcher : Watcher) : Scheduler σ δ ρ :=
  s.modifyTask task fun t => { t with watchers := t.watchers ++ [watcher] }

def setTimer (s : Scheduler σ δ ρ) (task : Nat) (seconds : Number) : Scheduler σ δ ρ :=
  let due := s.now.add seconds.toBinary64
  { s with
    timers := s.timers.insert ⟨due, task, s.timerCount⟩
    timerCount := s.timerCount + 1 }.modifyTask task fun t =>
      { t with timer := some s.timerCount }

/-- Enters a task that has not begun. -/
def enter (s : Scheduler σ δ ρ) (description : δ) : Scheduler σ δ ρ :=
  { s with tasks := s.tasks.push { status := .fresh description, errand := some description } }

/-- Asks a task to end. One that waits for a timer or for another task gets a turn for it. -/
def requestCancel (s : Scheduler σ δ ρ) (task : Nat) : Scheduler σ δ ρ :=
  if s.hasEnded task then s
  else
    let flagged := s.modifyTask task fun t => { t with isCancelled := true, timer := none }
    match s.tasks[task]? with
    | some { timer := some serial, .. } =>
        { flagged with cancelledTimers := serial :: flagged.cancelledTimers }.ask (.run task)
    | some { status := .paused (.joining _ _), .. } => flagged.ask (.run task)
    | _ => flagged

/-- Enters a task as waiting for others, of which some may have ended. -/
def gather (s : Scheduler σ δ ρ) (task : Nat) (children : List Nat) (eager : Bool) :
    Scheduler σ δ ρ :=
  let s := s.modifyTask task fun t =>
    { t with group := some (children.length, eager), failed := none }
  children.foldl (fun s child =>
    if s.hasEnded child then s.ask (.settle child task) else s.watch child (.gatherer task)) s

/-- Runs a process in a task until it is done or waits. -/
def advance (s : Scheduler σ δ ρ) (task : Nat) :
    Process σ δ ρ α → Scheduler σ δ ρ × (α ⊕ Paused σ δ ρ α)
  | .done value => (s, .inl value)
  | .look next => advance s task (next ⟨s.now, task⟩ s.state)
  | .change f next => advance { s with state := f s.state } task next
  | .spawn description next =>
      let id := s.tasks.size
      let s := (s.enter description).ask (.run id)
      advance s task (next id)
  | .cancel other next => advance (s.requestCancel other) task next
  | .sleep seconds next =>
      if seconds ≤ 0 then (s.ask (.run task), .inr (.plain next))
      else (s.setTimer task seconds, .inr (.plain next))
  | .join other next =>
      if s.hasEnded other then advance s task (next (s.resultOf other))
      else (s.watch other (.waiter task), .inr (.joining other next))
  | .joinAll others eager next =>
      if others.isEmpty then advance s task (next (.all []))
      else (s.gather task others eager, .inr (.gathering others next))
  | .park next => (s, .inr (.plain next))
  | .wake other next => advance (s.ask (.run other)) task next

/-- What the paused process of a task goes on with. -/
def resume (s : Scheduler σ δ ρ) (task : Nat) : Paused σ δ ρ α → Process σ δ ρ α
  | .plain next => next
  | .joining other next => next (s.resultOf other)
  | .gathering others next =>
      match s.tasks[task]?.bind TaskState.failed with
      | some child => next (.failed (s.resultOf child))
      | none => next (.all (others.map s.resultOf))

/-- Ends a task and asks for the turns in which others learn of it. -/
def finish (s : Scheduler σ δ ρ) (task : Nat) (result : TaskResult ρ) : Scheduler σ δ ρ :=
  let watchers := (s.tasks[task]?.map TaskState.watchers).getD []
  let s := s.modifyTask task fun t => { t with status := .ended result, watchers := [] }
  watchers.foldl (fun s watcher =>
    match watcher with
    | .waiter other => s.ask (.tell other)
    | .gatherer other => s.ask (.settle task other)) (s.ask (.ended task))

/-- Runs a process that is all of a task. -/
def proceed (s : Scheduler σ δ ρ) (task : Nat) (process : Process σ δ ρ ρ) : Scheduler σ δ ρ :=
  match s.advance task process with
  | (s, .inl result) => s.finish task (.finished result)
  | (s, .inr paused) => s.modifyTask task fun t => { t with status := .paused paused }

/-- Gives a task its turn. -/
def runTask (program : Program σ δ ρ) (s : Scheduler σ δ ρ) (task : Nat) : Scheduler σ δ ρ :=
  match s.tasks[task]? with
  | some t =>
      if t.isCancelled && !s.hasEnded task then
        { s with state := program.onCancel task s.state }.finish task .cancelled
      else
        match t.status with
        | .fresh description => s.proceed task (program.body description)
        | .paused paused => s.proceed task (s.resume task paused)
        | _ => s
  | none => s

/-- A task of a group has ended: whoever waits for the group is told when it was the last one, or when
a failure ends the wait. -/
def settle (program : Program σ δ ρ) (s : Scheduler σ δ ρ) (child watcher : Nat) :
    Scheduler σ δ ρ :=
  match s.tasks[watcher]?.bind TaskState.group with
  | none => s
  | some (remaining, eager) =>
      let failed := match s.resultOf child with
        | .finished result => program.fails result
        | _ => true
      if eager && failed then
        (s.modifyTask watcher fun t => { t with group := none, failed := some child }).ask
          (.run watcher)
      else if remaining ≤ 1 then
        (s.modifyTask watcher fun t => { t with group := none }).ask (.run watcher)
      else s.modifyTask watcher fun t => { t with group := some (remaining - 1, eager) }

/-- Takes a turn of a task inside. -/
def take (program : Program σ δ ρ) (s : Scheduler σ δ ρ) : Turn → Scheduler σ δ ρ
  | .run task => s.runTask program task
  | .ended task => { s with state := program.onEnd task s.state }
  | .tell watcher => s.ask (.run watcher)
  | .settle child watcher => s.settle program child watcher

/-- How far apart timers may be to fire together. -/
def resolution : Binary64 := .ofDecimal false 1 (-9)

/-- The scheduler without cancelled timers at the root, at most `fuel` of them. -/
def dropCancelled : Nat → Scheduler σ δ ρ → Scheduler σ δ ρ
  | 0, s => s
  | fuel + 1, s =>
      match s.timers.first? with
      | some timer =>
          if s.cancelledTimers.contains timer.serial then
            dropCancelled fuel { s with timers := s.timers.dropFirst }
          else s
      | none => s

/-- Fires the timers that are due by now or before `limit`, at most `fuel` of them. -/
def fireDue : Nat → Binary64 → Scheduler σ δ ρ → Scheduler σ δ ρ
  | 0, _, s => s
  | fuel + 1, limit, s =>
      match s.timers.first? with
      | some timer =>
          if timer.due.le s.now || !limit.le timer.due then
            let s := { s with timers := s.timers.dropFirst }
            let s :=
              if s.cancelledTimers.contains timer.serial then s
              else (s.modifyTask timer.task fun t => { t with timer := none }).ask (.run timer.task)
            fireDue fuel limit s
          else s
      | none => s

/-- Jumps to the first timer; none if there is no timer. -/
def jump? (s : Scheduler σ δ ρ) : Option (Scheduler σ δ ρ) :=
  let s := dropCancelled s.timers.timers.size s
  s.timers.first?.map fun timer =>
    let now := if s.now.lt timer.due then timer.due else s.now
    fireDue s.timers.timers.size (now.add resolution) { s with now }

/-- Gives turns until the process run from outside is done, at most `fuel` turns and jumps. -/
def complete (program : Program σ δ ρ) :
    Nat → Scheduler σ δ ρ → Paused σ δ ρ α → Scheduler σ δ ρ × Option α
  | 0, s, _ => (s, none)
  | fuel + 1, s, paused =>
      match s.ready with
      | [] =>
          match s.jump? with
          | some s => complete program fuel s paused
          | none => (s, none)
      | turn :: ready =>
          let s := { s with ready }
          if turn = .run 0 then
            match s.advance 0 (s.resume 0 paused) with
            | (s, .inl value) => (s, some value)
            | (s, .inr paused) => complete program fuel s paused
          else complete program fuel (s.take program turn) paused

/-- Runs a process from outside until it is done; none if it waits for something that never comes. -/
def run (program : Program σ δ ρ) (fuel : Nat) (s : Scheduler σ δ ρ) (process : Process σ δ ρ α) :
    Scheduler σ δ ρ × Option α :=
  match s.advance 0 process with
  | (s, .inl value) => (s, some value)
  | (s, .inr paused) => complete program fuel s paused

end Scheduler

end ManifestLens
