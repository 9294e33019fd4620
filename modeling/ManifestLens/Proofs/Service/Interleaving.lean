import ManifestLens.Proofs.Cache.Basic
import ManifestLens.Proofs.Schedule.Tasks
import ManifestLens.Proofs.Service.Lookup

/-!
# Calls among one another

Many calls, the fetches that they share and changes of the settings, in any order: an event is a new call, a
turn of any of those that were asked for, a timer that goes off, a call that is cancelled, a change of the
settings, or a change of the surroundings. What a state of such a run is like is one invariant, whose parts
say what each task is about, why each turn was asked for, and which fetches are listed as under way. A ledger
fixes what is asked of the documents: from which indexes they have to come, and since when.
-/

namespace ManifestLens

namespace ServiceCall

/-- The call looks up a single view. -/
def isLookup (call : ServiceCall) : Bool := (call.sought? true).isSome

/-- The call changes the settings of the service or empties its cache, all at once. -/
def isManagement : ServiceCall → Bool
  | .emptyCache | .setBaseUrl _ | .adopt _ => true
  | _ => false

theorem exists_sought {call : ServiceCall} (h : call.isLookup = true) (preferred : Bool) :
    ∃ view name, call.sought? preferred = some (view, name) := by
  cases call <;> first | exact ⟨_, _, rfl⟩ | cases h

end ServiceCall

/-! ### Events -/

/-- What can happen while calls are under way. -/
inductive ServiceEvent where
  /-- Somebody looks up a view. -/
  | call (call : ServiceCall)
  /-- The turn at a place of the queue is taken. -/
  | turn (place : Nat)
  /-- The timer of a task goes off. -/
  | alarm (task : Nat)
  /-- Time passes until the first timers are due, and they go off. -/
  | jump
  /-- Somebody gives up waiting for a call. -/
  | cancel (task : Nat)
  /-- The settings are changed, or the cache is emptied. -/
  | manage (call : ServiceCall)
  /-- The clock shows another time. -/
  | clock (now : Binary64)
  /-- The index comes to give other answers, on another day. -/
  | index (script : AnswerScript) (today : DateTime)

namespace ServiceRun

/-- What an event makes of a run. -/
def step (s : ServiceRun) : ServiceEvent → ServiceRun
  | .call call => if call.isLookup then (s.enter (.call call)).ask (.run s.tasks.size) else s
  | .turn place =>
      match s.ready[place]? with
      | some turn => Scheduler.take Work.program { s with ready := s.ready.eraseIdx place } turn
      | none => s
  | .alarm task =>
      match s.tasks[task]?.bind TaskState.timer with
      | some _ => (s.modifyTask task fun t => { t with timer := none }).ask (.run task)
      | none => s
  | .jump => s.jump?.getD s
  | .cancel task =>
      match s.errandOf task with
      | some (.call _) => s.requestCancel task
      | _ => s
  | .manage call => if call.isManagement then (s.advance 0 (Work.perform call).run).1 else s
  | .clock now => { s with now }
  | .index script today => { s with state := { s.state with script, today } }

/-- What events make of a run, one after another. -/
def after (s : ServiceRun) (events : List ServiceEvent) : ServiceRun := events.foldl step s

theorem after_cons (s : ServiceRun) (event : ServiceEvent) (events : List ServiceEvent) :
    s.after (event :: events) = (s.step event).after events := rfl

theorem after_append (s : ServiceRun) (events more : List ServiceEvent) :
    s.after (events ++ more) = (s.after events).after more := List.foldl_append

/-- What the scheduler does on its own is one event after another. -/
theorem exists_step_complete {α : Type} (s : ServiceRun) (fuel : Nat) (paused : Paused World Errand Outcome α)
    (houtside : s.ready.head? ≠ some (.run 0)) (hgoing : s.ready ≠ [] ∨ s.jump?.isSome = true) :
    ∃ event, Scheduler.complete Work.program (fuel + 1) s paused
      = Scheduler.complete Work.program fuel (s.step event) paused := by
  cases hready : s.ready with
  | nil =>
      obtain ⟨later, hjump⟩ := Option.isSome_iff_exists.mp (hgoing.resolve_left fun hne => hne hready)
      refine ⟨.jump, ?_⟩
      rw [Scheduler.complete, hready]
      simp only [step, hjump, Option.getD_some]
  | cons turn rest =>
      rw [hready] at houtside
      refine ⟨.turn 0, ?_⟩
      rw [Scheduler.complete, hready]
      simp only [step, hready, List.getElem?_cons_zero, List.eraseIdx_cons_zero]
      rw [if_neg fun heq => houtside (congrArg some heq)]

end ServiceRun

/-! ### What is asked of documents -/

/-- What is asked of the documents of a run: they come from one of some indexes, in answers noted after the
first ones, unless they are those of old fetches. -/
structure Ledger where
  /-- The indexes that documents come from. -/
  bases : List Char → Prop
  /-- The number of answers noted before. -/
  past : Nat
  /-- The fetches of whose documents nothing is asked. -/
  old : Nat → Prop
  /-- Those old fetches whose documents may still reach somebody. -/
  live : Nat → Prop
  /-- The number of tasks entered before. -/
  since : Nat
  old_lt : ∀ fetch, old fetch → fetch < since

namespace Ledger

variable (ledger : Ledger)

/-- The ledger of a run of which nothing is asked. -/
def any : Ledger := ⟨fun _ => True, 0, fun _ => False, fun _ => False, 0, fun _ hold => hold.elim⟩

/-- A fetch may make a request. -/
def Allows (fetch : Nat) (spelling : String) (past : Nat) (request : SentRequest) : Prop :=
  ledger.old fetch ∨ past = ledger.past ∧ ∃ base, ledger.bases base ∧
    request.url = IndexUrl.join base [Work.documentPath spelling]

/-- A document of a package came in an answer as it is asked for: to a request of one of the indexes, after the
first answers. -/
def Received (s : ServiceRun) (name : String) (document : List (String × Json)) : Prop :=
  ∃ spelling base request answer, Work.normalized spelling = Work.normalized name ∧ ledger.bases base ∧
    request.url = IndexUrl.join base [Work.documentPath spelling] ∧
    Work.Noted ledger.past request s.state answer ∧ answer.Carries document

/-- A document of a package is that with which a live fetch has ended. -/
def Brought (s : ServiceRun) (name : String) (document : List (String × Json)) : Prop :=
  ∃ spelling fetch, Work.normalized spelling = Work.normalized name ∧ ledger.live fetch ∧
    s.errandOf fetch = some (.fetch spelling) ∧ s.resultOf fetch = .finished (.ok (.document document))

/-- A document of a package that may be had. -/
def Has (s : ServiceRun) (name : String) (document : List (String × Json)) : Prop :=
  ledger.Received s name document ∨ ledger.Brought s name document

end Ledger

/-! ### The invariant -/

section Invariant

variable (ledger : Ledger) (s : ServiceRun)

/-- A cached value is the view of a document. -/
def EntrySound (key : String) (value : CachedView) : Prop :=
  ∃ view name document, key = Work.cacheKey view name ∧ Work.derive view name document = .ok value ∧
    ledger.Has s name document

/-- Somebody who waits for a fetch is going to be woken: by the fetch, or by a turn that was asked for. -/
def Awaits (task fetch : Nat) : Prop :=
  .waiter task ∈ s.watchersOf fetch ∨ .tell task ∈ s.ready ∨ .run task ∈ s.ready

/-- The reply to a call is the view of a document. -/
def AnswerSound (call : ServiceCall) (reply : Reply) : Prop :=
  ∃ preferred view name spelling found document, call.sought? preferred = some (view, name) ∧
    Work.normalized spelling = Work.normalized name ∧ Work.derive view spelling document = .ok found ∧
    call.replyTo found = .ok reply ∧ ledger.Has s spelling document

/-- What a task is about and how far it is. -/
inductive TaskSound (task : Nat) (t : TaskState World Errand Outcome) : Prop where
  | outside (htask : task = 0) (hstatus : t.status = .outside) (herrand : t.errand = none)
  | asked (call : ServiceCall) (herrand : t.errand = some (.call call)) (hlookup : call.isLookup = true)
      (hstatus : t.status = .fresh (.call call))
  | waiting (call : ServiceCall) (view : Lookup) (name : String) (fetch : Nat)
      (herrand : t.errand = some (.call call))
      (hsought : ∃ preferred, call.sought? preferred = some (view, name))
      (hstatus : t.status = .paused (.joining fetch (Work.conclude view name call.replyTo)))
      (hfetch : ∃ spelling, s.errandOf fetch = some (.fetch spelling) ∧
        Work.normalized spelling = Work.normalized name)
      (hlive : ledger.old fetch → ledger.live fetch) (hawaits : Awaits s task fetch)
  | replied (call : ServiceCall) (result : TaskResult Outcome) (herrand : t.errand = some (.call call))
      (hstatus : t.status = .ended result) (hresult : result ≠ .running)
      (hanswer : ledger.since ≤ task → ∀ reply, result = .finished (.ok reply) →
        AnswerSound ledger s call reply)
  | begun (spelling : String) (herrand : t.errand = some (.fetch spelling)) (hkept : t.isCancelled = false)
      (hstatus : t.status = .fresh (.fetch spelling))
  | fetching (spelling : String) (past : Nat) (request : SentRequest) (next : Work Outcome)
      (herrand : t.errand = some (.fetch spelling)) (hkept : t.isCancelled = false)
      (hstatus : t.status = .paused (.plain next)) (hallowed : ledger.Allows task spelling past request)
      (hnext : ∀ later, s.state.Notes later →
        next.Keeps World.OnlyAsks World.Notes (Work.FetchEnd past request) later)
  | fetched (spelling : String) (past : Nat) (request : SentRequest) (outcome : Outcome)
      (herrand : t.errand = some (.fetch spelling)) (hkept : t.isCancelled = false)
      (hstatus : t.status = .ended (.finished outcome)) (hallowed : ledger.Allows task spelling past request)
      (hend : Work.FetchEnd past request s.state outcome)

/-- A turn of a task does no harm: if the task waits for another one and was not cancelled, that one has
ended. -/
def MayRun (t : TaskState World Errand Outcome) : Prop :=
  ∀ fetch next, t.status = .paused (.joining fetch next) → t.isCancelled = true ∨ s.hasEnded fetch = true

/-- The task has begun. -/
def HasBegun (t : TaskState World Errand Outcome) : Prop := ∀ description, t.status ≠ .fresh description

namespace HasBegun

variable {t : TaskState World Errand Outcome}

theorem of_paused {paused : Paused World Errand Outcome Outcome} (h : t.status = .paused paused) : HasBegun t := by
  intro description hfresh
  rw [h] at hfresh
  cases hfresh

theorem of_ended {result : TaskResult Outcome} (h : t.status = .ended result) : HasBegun t := by
  intro description hfresh
  rw [h] at hfresh
  cases hfresh

end HasBegun

instance (t : TaskState World Errand Outcome) : Decidable (HasBegun t) :=
  match h : t.status with
  | .fresh description => isFalse fun hbegun => hbegun description h
  | .paused _ => isTrue (.of_paused h)
  | .ended _ => isTrue (.of_ended h)
  | .outside => isTrue fun _ hfresh => by rw [h] at hfresh; cases hfresh

/-- Why a turn was asked for. -/
def TurnSound : Turn → Prop
  | .run task => ∃ t, s.tasks[task]? = some t ∧ task ≠ 0 ∧ MayRun s t
  | .tell task => ∃ t, s.tasks[task]? = some t ∧ task ≠ 0 ∧ MayRun s t ∧ HasBegun t
  | .ended task => s.hasEnded task = true
  | .settle .. => False

/-- Who watches a task: somebody who has begun and waits for nobody else. -/
def WatcherSound (fetch : Nat) (watcher : Watcher) : Prop :=
  ∃ task t, watcher = .waiter task ∧ s.tasks[task]? = some t ∧ task ≠ 0 ∧ HasBegun t ∧
    ∀ other next, t.status = .paused (.joining other next) → other = fetch

/-- A timer of the heap is that of a fetch that has begun. -/
def Sleeps (task : Nat) : Prop :=
  (∃ spelling, s.errandOf task = some (.fetch spelling)) ∧ ∃ t, s.tasks[task]? = some t ∧ HasBegun t

/-- Whoever waits for a timer is a fetch that has begun. -/
def TimerSound (t : TaskState World Errand Outcome) : Prop :=
  t.timer.isSome = true → (∃ spelling, t.errand = some (.fetch spelling)) ∧ HasBegun t

/-- The tasks and the turns of a run. While a task has its turn, it is left open how far that one is. -/
structure TasksSound (running : Option Nat) : Prop where
  size : 0 < s.tasks.size
  outside : s.errandOf 0 = none
  since : ledger.since ≤ s.tasks.size
  task : ∀ (id : Nat) t, s.tasks[id]? = some t → running ≠ some id → TaskSound ledger s id t
  /-- Who has not begun has exactly one turn coming. -/
  fresh : ∀ (id : Nat) t description, s.tasks[id]? = some t → t.status = .fresh description → running ≠ some id →
    s.ready.count (.run id) = 1
  timer : ∀ (id : Nat) t, s.tasks[id]? = some t → TimerSound t
  timers : ∀ timer ∈ s.timers.timers, Sleeps s timer.task
  turn : ∀ turn ∈ s.ready, TurnSound s turn
  watcher : ∀ fetch, ∀ watcher ∈ s.watchersOf fetch, WatcherSound s fetch watcher
  unwatched : ∀ id, s.hasEnded id = true → s.watchersOf id = []

/-- The index to which the service points, the notes and the cache. -/
structure WorldSound : Prop where
  base : ledger.bases s.state.service.client.baseUrl
  past : ledger.past ≤ s.state.received.length
  cache : s.state.service.cache.Every fun key value _ _ => EntrySound ledger s key value

/-- What it means that a fetch is listed under a key. -/
structure Listed (key : String) (fetch : Nat) : Prop where
  errand : ∃ spelling, s.errandOf fetch = some (.fetch spelling) ∧ Work.normalized spelling = key
  ended : s.hasEnded fetch = true → .ended fetch ∈ s.ready
  live : ledger.old fetch → ledger.live fetch

/-- The fetches that are listed as under way: those that have not ended, and those of which nobody has taken
notice yet that they have. -/
structure TableSound : Prop where
  keys : (s.state.service.inFlight.map Prod.fst).Nodup
  listed : ∀ key fetch, (key, fetch) ∈ s.state.service.inFlight → Listed ledger s key fetch
  complete : ∀ fetch spelling, s.errandOf fetch = some (.fetch spelling) → s.hasEnded fetch = false →
    (Work.normalized spelling, fetch) ∈ s.state.service.inFlight

/-- **The invariant** of a run of calls among one another. -/
structure Sound (running : Option Nat) : Prop where
  tasks : TasksSound ledger s running
  world : WorldSound ledger s
  table : TableSound ledger s

end Invariant

end ManifestLens
