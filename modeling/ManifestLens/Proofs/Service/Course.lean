import ManifestLens.Proofs.Service.Preservation

/-!
# The course of a caller

Events only add to a run, and a task stays where it is until it gets a turn. So once a call has attached to a
fetch, its course is fixed: it is given up, or it waits until the fetch has ended and ends with what comes of
the result.
-/

namespace ManifestLens

variable {ledger : Ledger} {s s' : ServiceRun} {id fetch : Nat} {t : TaskState World Errand Outcome}

/-! ### What events leave as it is -/

theorem World.notes_looked (view : Lookup) (name : String) : s.state.Notes (s.looked view name).state :=
  .of_eq (cached_received ..)

theorem World.notes_kept (view : Lookup) (name : String) (result : TaskResult Outcome) (now : Binary64)
    (world : World) : world.Notes (Work.kept view name result now world) := by
  obtain ⟨_, -, hreceived, -⟩ := Work.kept_service view name result now world
  exact .of_eq hreceived

/-- What is known stays known, and everybody stays where they are but for the one that is moved, if any. -/
structure Leaves (s s' : ServiceRun) (moved : Option Nat) : Prop where
  grows : Grows s s'
  stays : ∀ id, moved ≠ some id → Stays s s' id

namespace Leaves

variable {moved : Option Nat}

theorem refl (s : ServiceRun) : Leaves s s moved := ⟨.refl s, fun _ _ => .of_eq rfl⟩

theorem trans {s'' : ServiceRun} (h : Leaves s s' moved) (h' : Leaves s' s'' moved) : Leaves s s'' moved :=
  ⟨h.grows.trans h'.grows, fun id hid => (h.stays id hid).trans (h'.stays id hid)⟩

theorem of_tasks_eq (htasks : s'.tasks = s.tasks) (hnotes : s.state.Notes s'.state) : Leaves s s' moved := by
  refine ⟨⟨fun herrand => ?_, fun _ => ?_, hnotes⟩, fun id _ => .of_eq (by rw [htasks])⟩
  · rw [Scheduler.errandOf, htasks]
    exact herrand
  · rw [Scheduler.resultOf, htasks, Scheduler.resultOf]

theorem withState {world : World} (hnotes : s.state.Notes world) : Leaves s { s with state := world } moved :=
  .of_tasks_eq rfl hnotes

end Leaves

/-! ### Turns -/

theorem HadTurn.leaves {t' : TaskState World Errand Outcome} {asked : List Turn}
    (h : HadTurn s s' id t t' asked) (ht : s.tasks[id]? = some t) (hrunning : t.status.result = .running) :
    Leaves s s' (some id) := by
  refine ⟨h.grows ht ?_, fun other hother => .of_eq (h.other other fun heq => hother (heq ▸ rfl))⟩
  rw [Scheduler.hasEnded_eq_false_iff, Scheduler.resultOf_of_getElem? _ ht, hrunning]

theorem leaves_finish {world : World} (hnotes : s.state.Notes world) (ht : s.tasks[id]? = some t)
    (htimer : TimerSound t) (hrunning : t.status.result = .running) {result : TaskResult Outcome}
    (hresult : result ≠ .running) :
    Leaves s (({ s with state := world } : ServiceRun).finish id result) (some id) :=
  (Leaves.withState hnotes).trans
    ((hadTurn_finish (s := { s with state := world }) ht htimer hresult).leaves ht hrunning)

theorem leaves_entering {errand : Errand} {world : World} {moved : Option Nat} (hnotes : s.state.Notes world) :
    Leaves s (entering s errand world) moved :=
  ⟨grows_entering hnotes, fun _ _ t ht => ⟨t, Scheduler.enter_of_getElem? ht, rfl, rfl⟩⟩

theorem leaves_joining {u : TaskState World Errand Outcome} {next : TaskResult Outcome → Work Outcome}
    (ht : s.tasks[id]? = some t) (hrunning : t.status.result = .running) (hu : s.tasks[fetch]? = some u)
    (hne : id ≠ fetch) : Leaves s (joining s id fetch next) (some id) := by
  refine ⟨grows_joining ht hne ?_, fun other hother => stays_joining hu hne fun heq => hother (heq ▸ rfl)⟩
  rw [Scheduler.hasEnded_eq_false_iff, Scheduler.resultOf_of_getElem? _ ht, hrunning]

theorem FirstTurn.leaves {call : ServiceCall} {view : Lookup} {name : String}
    (hturn : FirstTurn s id call view name s') (h : Sound ledger s (some id)) (ht : s.tasks[id]? = some t)
    (herrand : t.errand = some (.call call)) (hrunning : t.status.result = .running) :
    Leaves s s' (some id) := by
  have htimer := h.tasks.timer id t ht
  have hlooked : Leaves s (s.looked view name) (some id) := .withState (World.notes_looked view name)
  cases hturn with
  | hit => exact leaves_finish (World.notes_looked view name) ht htimer hrunning (by simp)
  | late =>
      exact leaves_finish ((World.notes_looked view name).trans (World.notes_kept view name _ _ _)) ht htimer
        hrunning (by simp)
  | joins hlisted =>
      obtain ⟨spelling, hfetch, -⟩ := (h.table.listed _ _ hlisted).errand
      obtain ⟨u, hu, -⟩ := (Scheduler.errandOf_eq_some_iff _).mp hfetch
      exact hlooked.trans
        (leaves_joining (s := s.looked view name) ht hrunning hu (ne_fetch ht herrand hfetch))
  | starts =>
      have hentered : Leaves (s.looked view name) (entering (s.looked view name) (.fetch name)
          (Work.enlist (Work.normalized name) s.tasks.size (s.looked view name).state)) (some id) :=
        leaves_entering (.refl _)
      exact hlooked.trans (hentered.trans (leaves_joining (Scheduler.enter_of_getElem? ht) hrunning
        Scheduler.enter_self (Scheduler.ne_size_of_getElem? ht)))

/-- **A turn of a task** leaves everybody else where they are. -/
theorem TaskTurn.leaves (hturn : TaskTurn ledger s id t s') (h : Sound ledger s (some id))
    (ht : s.tasks[id]? = some t) : Leaves s s' (some id) := by
  have htimer := h.tasks.timer id t ht
  cases hturn with
  | ended => exact .refl s
  | fetch spelling world t' asked _ _ hrunning hasks hturn =>
      exact (Leaves.withState hasks.received).trans (hturn.leaves ht hrunning)
  | givenUp call _ hrunning =>
      have hnotes : s.state.Notes (s.state.settle id) := .refl _
      exact leaves_finish hnotes ht htimer hrunning (by simp)
  | first call view name herrand hstatus _ _ hfirst =>
      exact hfirst.leaves h ht herrand (by rw [hstatus]; rfl)
  | concludes call view name fetch _ _ hstatus =>
      exact leaves_finish (World.notes_kept view name _ _ _) ht htimer (by rw [hstatus]; rfl) (by simp)

/-! ### Timers and calls that are given up -/

theorem grows_modifyTask {f : TaskState World Errand Outcome → TaskState World Errand Outcome}
    (hstatus : ∀ t, (f t).status = t.status) (herrand : ∀ t, (f t).errand = t.errand) (s : ServiceRun)
    (id : Nat) : Grows s (s.modifyTask id f) :=
  ⟨fun hknown => (Scheduler.errandOf_modifyTask herrand _).trans hknown,
    fun _ => Scheduler.resultOf_modifyTask hstatus _, .refl _⟩

/-- The timer of a task goes off. -/
theorem leaves_wake (s : ServiceRun) (id : Nat) :
    Leaves s ((s.modifyTask id fun t => { t with timer := none }).ask (.run id)) none := by
  have hmodified : Leaves s (s.modifyTask id fun t => { t with timer := none }) none := by
    refine ⟨grows_modifyTask (f := fun t => { t with timer := none }) (fun _ => rfl) (fun _ => rfl) s id, ?_⟩
    intro other _
    by_cases hother : other = id
    · subst hother
      exact fun t ht => ⟨_, Scheduler.modifyTask_self ht, rfl, rfl⟩
    · exact .of_eq (Scheduler.modifyTask_of_ne hother)
  exact hmodified.trans (.of_tasks_eq rfl (.refl _))

/-- Somebody gives up waiting for a task: nothing happens to anybody else. -/
theorem leaves_requestCancel (s : ServiceRun) (id : Nat) : Leaves s (s.requestCancel id) (some id) := by
  have hflagged : Leaves s (s.modifyTask id fun t => { t with isCancelled := true, timer := none }) (some id) :=
    ⟨grows_modifyTask (f := fun t => { t with isCancelled := true, timer := none }) (fun _ => rfl)
      (fun _ => rfl) s id, fun other hother => .of_eq (Scheduler.modifyTask_of_ne fun heq => hother (heq ▸ rfl))⟩
  have hasked : ∀ s' : ServiceRun, s'.tasks = (s.modifyTask id fun t =>
      { t with isCancelled := true, timer := none }).tasks → s'.state = s.state → Leaves s s' (some id) := by
    intro s' htasks hstate
    exact hflagged.trans (.of_tasks_eq htasks (hstate ▸ .refl _))
  unfold Scheduler.requestCancel
  split
  · exact .refl s
  · simp only
    split
    · exact hasked _ rfl rfl
    · exact hasked _ rfl rfl
    · exact hflagged

theorem leaves_fireDue (fuel : Nat) (limit : Binary64) (s : ServiceRun) :
    Leaves s (Scheduler.fireDue fuel limit s) none := by
  induction fuel generalizing s with
  | zero => exact .refl s
  | succ fuel ih =>
      have hdropped : Leaves s { s with timers := s.timers.dropFirst } none := .of_tasks_eq rfl (.refl _)
      rw [Scheduler.fireDue]
      split
      · split
        · refine hdropped.trans (.trans ?_ (ih _))
          split
          · exact .refl _
          · exact leaves_wake _ _
        · exact .refl s
      · exact .refl s

theorem leaves_dropCancelled (fuel : Nat) (s : ServiceRun) :
    Leaves s (Scheduler.dropCancelled fuel s) none := by
  induction fuel generalizing s with
  | zero => exact .refl s
  | succ fuel ih =>
      have hdropped : Leaves s { s with timers := s.timers.dropFirst } none := .of_tasks_eq rfl (.refl _)
      rw [Scheduler.dropCancelled]
      split
      · split
        · exact hdropped.trans (ih _)
        · exact .refl s
      · exact .refl s

theorem leaves_jump (s : ServiceRun) : Leaves s (s.step .jump) none := by
  have hdropped := leaves_dropCancelled s.timers.timers.size s
  simp only [ServiceRun.step, Scheduler.jump?]
  generalize Scheduler.dropCancelled s.timers.timers.size s = dropped at hdropped
  cases dropped.timers.first? with
  | none => exact .refl s
  | some timer =>
      have hclock : Leaves dropped { dropped with
          now := if dropped.now.lt timer.due then timer.due else dropped.now } none :=
        .of_tasks_eq rfl (.refl _)
      exact hdropped.trans (hclock.trans (leaves_fireDue _ _ _))

/-! ### Events -/

/-- The task that an event moves: the one whose turn it is, or the one that is given up. -/
def ServiceRun.movedBy (s : ServiceRun) : ServiceEvent → Option Nat
  | .turn place =>
      match s.ready[place]? with
      | some (.run id) => some id
      | _ => none
  | .cancel id => some id
  | _ => none

theorem ServiceRun.movedBy_turn {place : Nat} (hplace : s.ready[place]? = some (.run id)) :
    s.movedBy (.turn place) = some id := by
  simp only [movedBy, hplace]

theorem ServiceRun.eq_of_movedBy {event : ServiceEvent} (h : s.movedBy event = some id) :
    (∃ place, event = .turn place ∧ s.ready[place]? = some (.run id)) ∨ event = .cancel id := by
  cases event with
  | turn place =>
      simp only [movedBy] at h
      split at h
      · next other hplace =>
        cases h
        exact .inl ⟨place, rfl, hplace⟩
      · cases h
  | cancel other =>
      cases h
      exact .inr rfl
  | call | alarm | jump | manage | clock | index => cases h

/-- **An event** leaves everybody where they are but for the task that it moves. -/
theorem Sound.step_leaves (h : Sound ledger s none) (event : ServiceEvent) :
    Leaves s (s.step event) (s.movedBy event) := by
  cases event with
  | call call =>
      simp only [ServiceRun.step]
      split
      · exact leaves_entering (.refl _)
      · exact .refl s
  | turn place =>
      cases hplace : s.ready[place]? with
      | none =>
          simp only [ServiceRun.step, hplace]
          exact .refl s
      | some turn =>
          rw [ServiceRun.step_turn hplace]
          cases turn with
          | run id =>
              obtain ⟨hrunning, t, ht, hid, hmay, -, -⟩ := h.run (ServiceRun.perm_of_getElem? hplace)
              have hready : Leaves s { s with ready := s.ready.eraseIdx place } (some id) :=
                .of_tasks_eq rfl (.refl _)
              rw [ServiceRun.movedBy_turn hplace]
              exact hready.trans ((h.taskTurn (s.ready.eraseIdx place) ht hid hmay).leaves hrunning ht)
          | tell id => exact .of_tasks_eq rfl (.refl _)
          | ended id => exact .of_tasks_eq rfl (.refl _)
          | settle child watcher => exact (h.tasks.turn _ (List.mem_of_getElem? hplace)).elim
  | alarm id =>
      simp only [ServiceRun.step]
      split
      · exact leaves_wake s id
      · exact .refl s
  | jump => exact leaves_jump s
  | cancel id =>
      simp only [ServiceRun.step]
      split
      · exact leaves_requestCancel s id
      · exact .refl s
  | manage call =>
      simp only [ServiceRun.step]
      split
      · next hmanages =>
        obtain ⟨world, hadvance, hmanaged⟩ := s.exists_managed hmanages
        rw [hadvance]
        exact .of_tasks_eq rfl (.of_eq hmanaged.received)
      · exact .refl s
  | clock now => exact .of_tasks_eq rfl (.refl _)
  | index script today => exact .of_tasks_eq rfl (.refl _)

/-! ### A call that has attached to a fetch -/

namespace ServiceRun

/-- With the turn at a place a call begins that nobody has given up. -/
structure Begins (s : ServiceRun) (place caller : Nat) (call : ServiceCall) (view : Lookup) (name : String) :
    Prop where
  turn : s.ready[place]? = some (.run caller)
  fresh : ∃ t, s.tasks[caller]? = some t ∧ t.status = .fresh (.call call) ∧ t.isCancelled = false
  sought : call.sought? s.state.service.includePre = some (view, name)

/-- A call that nobody has given up waits for a fetch, to draw its conclusion from what it ends with. -/
def WaitsFor (s : ServiceRun) (caller fetch : Nat) (call : ServiceCall) (view : Lookup) (name : String) : Prop :=
  ∃ t, s.tasks[caller]? = some t ∧ t.isCancelled = false ∧
    t.status = .paused (.joining fetch (Work.conclude view name call.replyTo))

/-- A fetch and a call have ended, the call with what comes of the result of the fetch. -/
def HasConcluded (s : ServiceRun) (caller fetch : Nat) (call : ServiceCall) (view : Lookup) (name : String) :
    Prop :=
  s.hasEnded fetch = true ∧
    s.resultOf caller = .finished (Work.conclusion view name call.replyTo (s.resultOf fetch))

/-- The course of a call that has attached to a fetch. -/
def Attached (s : ServiceRun) (caller fetch : Nat) (call : ServiceCall) (view : Lookup) (name : String) : Prop :=
  s.WaitsFor caller fetch call view name ∨ s.HasConcluded caller fetch call view name

end ServiceRun

theorem state_finish (s : ServiceRun) (id : Nat) (result : TaskResult Outcome) :
    (s.finish id result).state = s.state := by
  rw [Scheduler.finish_eq]
  rfl

theorem getElem?_finish (ht : s.tasks[id]? = some t) (result : TaskResult Outcome) :
    (s.finish id result).tasks[id]? = some { t with status := .ended result, watchers := [] } := by
  rw [Scheduler.finish_eq]
  exact Scheduler.modifyTask_self ht

theorem resultOf_finish_self (ht : s.tasks[id]? = some t) (result : TaskResult Outcome) :
    (s.finish id result).resultOf id = result := Scheduler.resultOf_of_getElem? _ (getElem?_finish ht result)

variable {caller : Nat} {call : ServiceCall} {view : Lookup} {name : String}

namespace ServiceRun

theorem HasConcluded.grows (h : s.HasConcluded caller fetch call view name) (hgrows : Grows s s') :
    ServiceRun.HasConcluded s' caller fetch call view name := by
  obtain ⟨hended, hresult⟩ := h
  refine ⟨hgrows.hasEnded hended, ?_⟩
  rw [hgrows.result hended, hgrows.result (Scheduler.hasEnded_iff.mpr (by simp [hresult])), hresult]

/-- Who waits for a fetch keeps what comes of its result in a turn, and ends with that. -/
theorem WaitsFor.step_turn (h : s.WaitsFor caller fetch call view name) {place : Nat}
    (hplace : s.ready[place]? = some (.run caller)) : s.step (.turn place) =
      ({ s with
        ready := s.ready.eraseIdx place
        state := Work.kept view name (s.resultOf fetch) s.now s.state } : ServiceRun).finish caller
          (.finished (Work.conclusion view name call.replyTo (s.resultOf fetch))) := by
  obtain ⟨t, ht, hkept, hstatus⟩ := h
  rw [ServiceRun.step_turn hplace, Scheduler.take,
    Scheduler.runTask_paused (s := { s with ready := s.ready.eraseIdx place }) ht hkept hstatus,
    Scheduler.resume, proceed_conclude]
  rfl

/-- A call that waits for a fetch concludes in its next turn. -/
theorem WaitsFor.hasConcluded (h : s.WaitsFor caller fetch call view name) (hs : Sound ledger s none)
    {place : Nat} (hplace : s.ready[place]? = some (.run caller)) :
    ServiceRun.HasConcluded (s.step (.turn place)) caller fetch call view name := by
  have hstep := h.step_turn hplace
  obtain ⟨t, ht, hcancelled, hstatus⟩ := h
  have hgrows := (hs.step_leaves (.turn place)).grows
  obtain ⟨u, hu, -, hmay⟩ := hs.tasks.turn _ (List.mem_of_getElem? hplace)
  obtain rfl : t = u := by simpa [ht] using hu
  have hended : s.hasEnded fetch = true := (hmay _ _ hstatus).resolve_left (by simp [hcancelled])
  refine ⟨hgrows.hasEnded hended, ?_⟩
  rw [hgrows.result hended, hstep]
  exact resultOf_finish_self (s := { s with
    ready := s.ready.eraseIdx place
    state := Work.kept view name (s.resultOf fetch) s.now s.state }) ht _

/-- **An event in the course of a call** that has attached to a fetch and is not given up. -/
theorem Attached.step (h : s.Attached caller fetch call view name) (hs : Sound ledger s none)
    {event : ServiceEvent} (hkept : event ≠ .cancel caller) :
    ServiceRun.Attached (s.step event) caller fetch call view name := by
  have hleaves := hs.step_leaves event
  rcases h with hwaits | hconcluded
  · by_cases hmoved : s.movedBy event = some caller
    · obtain ⟨place, rfl, hplace⟩ := (eq_of_movedBy hmoved).resolve_right hkept
      exact .inr (hwaits.hasConcluded hs hplace)
    · obtain ⟨t, ht, hcancelled, hstatus⟩ := hwaits
      obtain ⟨t', ht', hstatus', hcancelled'⟩ := hleaves.stays caller hmoved t ht
      exact .inl ⟨t', ht', hcancelled'.trans hcancelled, hstatus'.trans hstatus⟩
  · exact .inr (hconcluded.grows hleaves.grows)

/-- **The course of a call** that has attached to a fetch and is not given up. -/
theorem Attached.after (h : s.Attached caller fetch call view name) (hs : Sound .any s none)
    {events : List ServiceEvent} (hkept : .cancel caller ∉ events) :
    ServiceRun.Attached (s.after events) caller fetch call view name := by
  induction events generalizing s with
  | nil => exact h
  | cons event events ih =>
      have hnow : event ≠ .cancel caller := fun heq => hkept (heq ▸ List.mem_cons_self)
      exact ih (h.step hs hnow) (hs.step event trivial) fun hmem => hkept (List.mem_cons_of_mem _ hmem)

end ServiceRun

theorem Sound.grows_after (h : Sound .any s none) (events : List ServiceEvent) : Grows s (s.after events) := by
  induction events generalizing s with
  | nil => exact .refl s
  | cons event events ih => exact (h.step_leaves event).grows.trans (ih (h.step event trivial))

end ManifestLens

/-!
## Moving to another index

When the service is pointed at another index, what is cached is dropped, but what is under way goes on. So
from then on everything that is cached, and whatever calls get that are made afterwards, comes from the indexes
that the service has pointed to since, or else from a fetch that was under way when it was moved.
-/

namespace ManifestLens

variable {s : ServiceRun} {fetch : Nat}

namespace ServiceRun

/-- A fetch has begun and may still reach somebody: it is listed, or a call waits for it. -/
structure IsPending (s : ServiceRun) (fetch : Nat) : Prop where
  begun : ∃ t, s.tasks[fetch]? = some t ∧ HasBegun t
  reaches : (∃ key, (key, fetch) ∈ s.state.service.inFlight) ∨
    ∃ (caller : Nat) (t : TaskState World Errand Outcome) (next : TaskResult Outcome → Work Outcome),
      s.tasks[caller]? = some t ∧ t.status = .paused (.joining fetch next)

/-- What is asked of documents after a run has come to a state, while the service points to some indexes: they
come from these indexes, in answers that are noted from then on, unless from fetches pending in that state. -/
def ledger (s : ServiceRun) (bases : List Char → Prop) : Ledger where
  bases := bases
  past := s.state.received.length
  old fetch := ∃ t, s.tasks[fetch]? = some t ∧ HasBegun t
  live := ServiceRun.IsPending s
  since := s.tasks.size
  old_lt := by
    rintro fetch ⟨t, ht, -⟩
    exact (Array.getElem?_eq_some_iff.mp ht).1

end ServiceRun

/-- Where nothing is cached one may begin to ask where documents come from. -/
theorem Sound.ledger (h : Sound .any s none) (hempty : s.state.service.cache.entries = [])
    (bases : List Char → Prop) (hbase : bases s.state.service.client.baseUrl) :
    Sound (ServiceRun.ledger s bases) s none := by
  refine ⟨⟨h.tasks.size, h.tasks.outside, Nat.le_refl _, ?_, h.tasks.fresh, h.tasks.timer, h.tasks.timers,
    h.tasks.turn, h.tasks.watcher, h.tasks.unwatched⟩,
    ⟨hbase, Nat.le_refl _, fun key entry hmem => absurd (hempty ▸ hmem) List.not_mem_nil⟩,
    ⟨h.table.keys, ?_, h.table.complete⟩⟩
  · intro id t ht _
    have hlt : id < s.tasks.size := (Array.getElem?_eq_some_iff.mp ht).1
    have hold : HasBegun t → (ServiceRun.ledger s bases).old id := fun hbegun => ⟨t, ht, hbegun⟩
    cases h.tasks.task id t ht (by simp) with
    | outside hid hstatus herrand => exact .outside hid hstatus herrand
    | asked call herrand hlookup hstatus => exact .asked call herrand hlookup hstatus
    | waiting call view name fetch herrand hsought hstatus hfetch _ hawaits =>
        exact .waiting call view name fetch herrand hsought hstatus hfetch
          (fun hbegun => ⟨hbegun, .inr ⟨id, t, _, ht, hstatus⟩⟩) hawaits
    | replied call result herrand hstatus hresult =>
        exact .replied call result herrand hstatus hresult fun hsince => absurd hsince (Nat.not_le.mpr hlt)
    | begun spelling herrand hkept hstatus => exact .begun spelling herrand hkept hstatus
    | fetching spelling past request next herrand hkept hstatus _ hnext =>
        exact .fetching spelling past request next herrand hkept hstatus (.inl (hold (.of_paused hstatus))) hnext
    | fetched spelling past request outcome herrand hkept hstatus _ hend =>
        exact .fetched spelling past request outcome herrand hkept hstatus (.inl (hold (.of_ended hstatus))) hend
  · intro key fetch hmem
    obtain ⟨herrand, hended, -⟩ := h.table.listed key fetch hmem
    exact ⟨herrand, hended, fun hbegun => ⟨hbegun, .inl ⟨key, hmem⟩⟩⟩

/-- The reply to a call that is made while everything is sound comes from a document that may be had. -/
theorem Sound.answerSound {ledger : Ledger} (h : Sound ledger s none) {caller : Nat} {call : ServiceCall}
    {reply : Reply}
    (hsince : ledger.since ≤ caller) (hcall : s.errandOf caller = some (.call call))
    (hreply : s.resultOf caller = .finished (.ok reply)) : AnswerSound ledger s call reply := by
  obtain ⟨t, ht, herrand⟩ := (Scheduler.errandOf_eq_some_iff _).mp hcall
  rw [Scheduler.resultOf_of_getElem? _ ht] at hreply
  cases h.tasks.task caller t ht (by simp) with
  | outside _ _ hnone => rw [hnone] at herrand; cases herrand
  | asked _ _ _ hstatus => rw [hstatus] at hreply; cases hreply
  | waiting _ _ _ _ _ _ hstatus => rw [hstatus] at hreply; cases hreply
  | replied asked result hasked hstatus _ hanswer =>
      obtain rfl : asked = call := by
        rw [hasked] at herrand
        cases herrand
        rfl
      rw [hstatus] at hreply
      exact hanswer hsince reply hreply
  | begun _ hfetching => rw [hfetching] at herrand; cases herrand
  | fetching _ _ _ _ hfetching => rw [hfetching] at herrand; cases herrand
  | fetched _ _ _ _ hfetching => rw [hfetching] at herrand; cases herrand

/-- Who waits for a fetch keeps the view of its document, whatever has happened to the cache since. -/
theorem ServiceRun.WaitsFor.exists_entry {place caller : Nat} {call : ServiceCall} {view : Lookup}
    {name : String} {document : List (String × Json)} {found : CachedView}
    (h : s.WaitsFor caller fetch call view name)
    (hplace : s.ready[place]? = some (.run caller))
    (hresult : s.resultOf fetch = .finished (.ok (.document document)))
    (hderive : Work.derive view name document = .ok found) :
    ∃ entry, (s.step (.turn place)).state.service.cache.entry? (Work.cacheKey view name) = some entry ∧
      entry.data = found := by
  have hkept : Work.kept view name (s.resultOf fetch) s.now s.state
      = s.state.store s.now (Work.cacheKey view name) found := by
    rw [Work.kept, hresult, Work.told]
    simp only [Except.bind, hderive]
  rw [h.step_turn hplace, state_finish, hkept]
  exact ⟨_, Cache.entry?_set _ _ _ _ _, rfl⟩

/-! ### After the service was moved -/

namespace ServiceRun

/-- The service points to an index at some time in the course of events. -/
def PointsTo (s : ServiceRun) (events : List ServiceEvent) (base : List Char) : Prop :=
  ∃ count, (s.after (events.take count)).state.service.client.baseUrl = base

/-- What holds of a run some events after the service was moved to another index. -/
structure IsMoved (moved : ServiceRun) (events : List ServiceEvent) : Prop where
  /-- Whatever is cached is the view of a document that has come since from an index to which the service pointed
  since, or that a fetch brought which was pending then. -/
  cached : ∀ key entry, (key, entry) ∈ (moved.after events).state.service.cache.entries →
    EntrySound (moved.ledger (moved.PointsTo events)) (moved.after events) key entry.data
  /-- So is what calls get that were made since. -/
  replied : ∀ caller call reply, moved.tasks.size ≤ caller →
    (moved.after events).errandOf caller = some (.call call) →
    (moved.after events).resultOf caller = .finished (.ok reply) →
      AnswerSound (moved.ledger (moved.PointsTo events)) (moved.after events) call reply
  /-- Where no fetch was pending, no document has another origin than answers that have come since. -/
  received : (∀ fetch, ¬ moved.IsPending fetch) → ∀ name document,
    (moved.ledger (moved.PointsTo events)).Has (moved.after events) name document →
      (moved.ledger (moved.PointsTo events)).Received (moved.after events) name document
  /-- What a fetch brings that was pending is cached nevertheless, if a call waits for it. -/
  stored : ∀ place caller fetch call view name document found,
    (moved.after events).WaitsFor caller fetch call view name →
    (moved.after events).ready[place]? = some (.run caller) →
    (moved.after events).resultOf fetch = .finished (.ok (.document document)) →
    Work.derive view name document = .ok found →
      ∃ entry, (moved.after (events ++ [.turn place])).state.service.cache.entry? (Work.cacheKey view name)
        = some entry ∧ entry.data = found

theorem step_manage_moved {call : ServiceCall}
    (hmoves : (s.step (.manage call)).state.service.client.baseUrl ≠ s.state.service.client.baseUrl) :
    (s.step (.manage call)).state.service.cache.entries = [] := by
  simp only [step] at hmoves ⊢
  split at hmoves
  · next hmanages =>
    rw [if_pos hmanages]
    obtain ⟨world, hadvance, hmanaged⟩ := s.exists_managed hmanages
    rw [hadvance] at hmoves ⊢
    exact hmanaged.moved hmoves
  · exact absurd rfl hmoves

/-- **Moving.** Once the service has been pointed at another index, everything that is cached and every reply to a
later call comes from the indexes to which it has pointed since, with the exception of what the fetches bring
that were pending at the time. -/
theorem isMoved {world : World} (hfetch : world.service.inFlight = [])
    (hcache : world.service.cache.entries = []) (before : List ServiceEvent) (call : ServiceCall)
    (hmoves : (ServiceRun.after { state := world } (before ++ [.manage call])).state.service.client.baseUrl
      ≠ (ServiceRun.after { state := world } before).state.service.client.baseUrl) (events : List ServiceEvent) :
    (ServiceRun.after { state := world } (before ++ [.manage call])).IsMoved events := by
  have hbefore : Sound .any (ServiceRun.after { state := world } before) none :=
    (sound_start hfetch hcache trivial (Nat.zero_le _) (Nat.zero_le _)).after before fun _ => trivial
  rw [after_append] at hmoves ⊢
  generalize ServiceRun.after { state := world } before = s at hbefore hmoves
  have hempty : (s.step (.manage call)).state.service.cache.entries = [] := step_manage_moved hmoves
  have hmoved := hbefore.step (.manage call) trivial
  change (s.step (.manage call)).IsMoved events
  generalize s.step (.manage call) = moved at hempty hmoved
  have hlast := (hmoved.ledger hempty (moved.PointsTo events) ⟨0, rfl⟩).after events
    fun count => ⟨count, rfl⟩
  refine ⟨fun key entry hmem => hlast.world.cache key entry hmem,
    fun caller call reply hsince hcall hreply => hlast.answerSound hsince hcall hreply, ?_, ?_⟩
  · intro hnone name document hhas
    refine hhas.resolve_right ?_
    rintro ⟨-, fetch, -, hlive, -⟩
    exact hnone fetch hlive
  · intro place caller fetch call view name document found hwaits hplace hresult hderive
    rw [after_append]
    exact hwaits.exists_entry hplace hresult hderive

/-- A service that is moved while it waits to ask for a package again. -/
theorem isMoved_mirror :
    let world := (ServiceRun.opening (.sequence [⟨.timedOut, 0⟩])).state
    let before : List ServiceEvent := [.call (.info "Flask"), .turn 0, .turn 0]
    let mirror := "https://mirror.local/pypi".toList
    (ServiceRun.after { state := world } (before ++ [.manage (.setBaseUrl mirror)])).IsPending 2 ∧
      ∀ events, (ServiceRun.after { state := world } (before ++ [.manage (.setBaseUrl mirror)])).IsMoved events := by
  intro world before mirror
  have hbefore : (ServiceRun.after { state := world } before).state.service.client.baseUrl
      = IndexUrl.publicIndex := by decide +kernel
  have hmoved : (ServiceRun.after { state := world }
      (before ++ [.manage (.setBaseUrl mirror)])).state.service.client.baseUrl = mirror := by decide +kernel
  have hlisted : ("flask", 2) ∈ (ServiceRun.after { state := world }
      (before ++ [.manage (.setBaseUrl mirror)])).state.service.inFlight := by decide +kernel
  have hbegun : (ServiceRun.after { state := world } (before ++ [.manage (.setBaseUrl mirror)])).tasks[2]?.any
      (decide <| HasBegun ·) = true := by decide +kernel
  obtain ⟨t, ht, hbegun⟩ := (Option.any_eq_true _ _).mp hbegun
  refine ⟨⟨⟨t, ht, of_decide_eq_true hbegun⟩, .inl ⟨"flask", hlisted⟩⟩,
    @ServiceRun.isMoved world rfl rfl before (.setBaseUrl mirror) fun hsame => ?_⟩
  exact absurd (hmoved.symm.trans (hsame.trans hbefore)) (by decide)
end ServiceRun

end ManifestLens
