import ManifestLens.Proofs.Service.Sharing
import ManifestLens.Proofs.Service.Shut

/-!
# Closing

Closing a service ends the fetches that are listed and the sweeper, drops everything cached and closes the
connection. The sweeper never comes back. But only the sweeper is refused to a service that is closed: who asks for a
package after that, or has been waiting for a slot, sends a request and opens the connection again, and as only
the first time counts that a service is closed, it stays open then. The connection keeps closed just as long as
nobody asks for anything, and the fetches and the sweeper that were on their way send nothing any more.
-/

namespace ManifestLens

namespace Scheduler

variable {σ δ ρ α : Type}

theorem requestCancel_withState (s : Scheduler σ δ ρ) (state : σ) (task : Nat) :
    ({ s with state } : Scheduler σ δ ρ).requestCancel task = { s.requestCancel task with state } := by
  have hended : ({ s with state } : Scheduler σ δ ρ).hasEnded task = s.hasEnded task := rfl
  unfold requestCancel
  rw [hended]
  split
  · rfl
  · simp only
    split <;> rfl

theorem foldl_requestCancel_withState (s : Scheduler σ δ ρ) (state : σ) (tasks : List Nat) :
    tasks.foldl requestCancel { s with state } = { tasks.foldl requestCancel s with state } := by
  induction tasks generalizing s with
  | nil => rfl
  | cons task tasks ih => rw [List.foldl_cons, requestCancel_withState, ih, List.foldl_cons]

theorem advance_stopAll (s : Scheduler σ δ ρ) (task : Nat) (others : List Nat) (next : Process σ δ ρ α) :
    s.advance task (Process.stopAll others next) = (others.foldl requestCancel s).advance task next := by
  induction others generalizing s with
  | nil => rfl
  | cons other others ih => exact ih (s.requestCancel other)

end Scheduler

/-! ### What closing does -/

/-- The world in which the service has been closed. -/
def World.closed (world : World) : World := world.withService fun service =>
  { service with
    isClosed := true
    isDisposed := true
    inFlight := []
    sweeper := none
    cache := service.cache.clear
    client := { service.client with isOpen := false } }

theorem World.isShut_closed (world : World) : world.closed.service.IsShut := ⟨rfl, rfl, rfl⟩

namespace ServiceRun

/-- The tasks that end with the service: the fetches that are listed, and the sweeper. -/
def dependants (s : ServiceRun) : List Nat :=
  s.state.service.inFlight.map Prod.snd ++ s.state.service.sweeper.toList

def closed (s : ServiceRun) : ServiceRun :=
  s.dependants.foldl Scheduler.requestCancel { s with state := s.state.closed }

variable {s : ServiceRun}

theorem state_closed (s : ServiceRun) : s.closed.state = s.state.closed := by
  rw [closed, Scheduler.foldl_requestCancel_withState]

/-- **Closing**, whoever does it, happens at once. -/
theorem advance_close (h : s.state.service.isClosed = false) (task : Nat) :
    s.advance task Work.close = (s.closed, .inl ()) := by
  rw [Work.close_eq, Scheduler.advance, h]
  simp only [Bool.false_eq_true, if_false]
  rw [Scheduler.advance, Scheduler.advance_stopAll, Scheduler.foldl_requestCancel_withState s, closed,
    Scheduler.foldl_requestCancel_withState s s.state.closed]
  rfl

theorem advance_close_of_closed (h : s.state.service.isClosed = true) (task : Nat) :
    s.advance task Work.close = (s, .inl ()) := by
  rw [Work.close_eq, Scheduler.advance, h]
  rfl

/-- The service is closed, by who looks on from outside or by a call that has its turn. -/
inductive IsClosedBy (s : ServiceRun) : ServiceRun → Prop
  | outside (task : Nat) : IsClosedBy s (s.advance task Work.close).1
  | turn {place task : Nat} {t : TaskState World Errand Outcome} (hplace : s.ready[place]? = some (.run task))
      (ht : s.tasks[task]? = some t) (hstatus : t.status = .fresh (.call .close)) (hkept : t.isCancelled = false) :
      IsClosedBy s (ServiceRun.step s (.turn place))

theorem step_turn_close {place task : Nat} {t : TaskState World Errand Outcome}
    (h : s.state.service.isClosed = false) (hplace : s.ready[place]? = some (.run task))
    (ht : s.tasks[task]? = some t) (hstatus : t.status = .fresh (.call .close)) (hkept : t.isCancelled = false) :
    ServiceRun.step s (.turn place)
      = (ServiceRun.closed { s with ready := s.ready.eraseIdx place }).finish task (.finished (.ok .nothing)) := by
  have ht' : ({ s with ready := s.ready.eraseIdx place } : ServiceRun).tasks[task]? = some t := ht
  have hopen : ({ s with ready := s.ready.eraseIdx place } : ServiceRun).state.service.isClosed = false := h
  have hbody : Work.program.body (.call .close) = Work.close.andThen fun _ => .done (.ok .nothing) := by
    change (Work.perform .close).run = _
    rw [Work.perform, Process.run_bind, Process.run_lift, Process.andThen_assoc]
    rfl
  rw [step_turn hplace, Scheduler.take, Scheduler.runTask_fresh ht' hkept hstatus, Scheduler.proceed, hbody,
    Scheduler.advance_andThen, advance_close hopen]
  rfl

/-! ### Silence -/

end ServiceRun

theorem Work.abides_conclude_silentRule {view : Lookup} {name : String} {reply : CachedView → Outcome}
    {result : TaskResult Outcome} {world : World} :
    (conclude view name reply result).Abides World.silentRule world := by
  unfold conclude
  split
  · trivial
  · exact fun _ => ⟨.of_service rfl rfl, trivial⟩

namespace ServiceRun

variable {s : ServiceRun}

/-- Nothing is left to be sent but by the tasks that end with the service: whatever the others still do, they send
nothing and start nobody who does. -/
def HasNothingQueued (s : ServiceRun) : Prop :=
  ∀ (id : Nat) t, s.tasks[id]? = some t → id ∈ s.dependants ∨ t.Abides World.silentRule

theorem HasNothingQueued.abides_closed (h : s.HasNothingQueued) : s.closed.Abides World.silentRule :=
  Scheduler.abides_foldl_requestCancel (World.isShut_closed _) h

/-- **Nothing is queued among lookups** once each of them has had its first turn: who waits for a fetch only
stores what it brings, and the fetches that are under way are listed. -/
theorem hasNothingQueued_of_sound {ledger : Ledger} (h : Sound ledger s none)
    (hbegun : ∀ (id : Nat) t call, s.tasks[id]? = some t → t.status ≠ .fresh (.call call)) : s.HasNothingQueued := by
  intro id t ht
  have hlisted : ∀ {spelling}, t.errand = some (.fetch spelling) → t.status.result = .running → id ∈ s.dependants := by
    intro spelling herrand hrunning
    have hfetch : s.errandOf id = some (.fetch spelling) := by
      rw [Scheduler.errandOf, ht]
      exact herrand
    have hgoing : s.hasEnded id = false :=
      Scheduler.hasEnded_eq_false_iff.mpr ((s.resultOf_of_getElem? ht).trans hrunning)
    exact List.mem_append_left _ (List.mem_map_of_mem (h.table.complete id spelling hfetch hgoing))
  have hidle : t.status.Abides World.silentRule → id ∈ s.dependants ∨ t.Abides World.silentRule := fun hstatus =>
    .inr (.inr hstatus)
  cases h.tasks.task id t ht (Option.some_ne_none id).symm with
  | outside _ hstatus =>
      refine hidle ?_
      rw [hstatus]
      trivial
  | replied _ _ _ hstatus | fetched _ _ _ _ _ _ hstatus =>
      refine hidle ?_
      rw [hstatus]
      trivial
  | asked call _ _ hstatus => exact absurd hstatus (hbegun id t call ht)
  | waiting call view name fetch _ _ hstatus =>
      refine hidle ?_
      rw [hstatus]
      exact fun result later _ => Work.abides_conclude_silentRule ..
  | begun _ herrand _ hstatus => exact .inl (hlisted herrand (by rw [hstatus]; rfl))
  | fetching _ _ _ _ herrand _ hstatus => exact .inl (hlisted herrand (by rw [hstatus]; rfl))

end ServiceRun

/-- Somebody may ask the index for something. -/
def Happening.Asks : Happening → Prop
  | .adopt _ => False
  | .call asked => asked.Asks
  | .event (.call asked) => asked.isLookup = true
  | .event _ => False

theorem ServiceCall.not_asks_of_isManagement {call : ServiceCall} (h : call.isManagement = true) : ¬ call.Asks := by
  rintro (⟨hlookup⟩ | _ | _ | _ | _ | _)
  · cases call <;> first | (cases h; done) | cases hlookup
  all_goals cases h

theorem Happening.isAdmitted_silentRule {happening : Happening} (h : ¬ happening.Asks) :
    happening.IsAdmitted World.silentRule := by
  cases happening with
  | adopt config => exact @ServiceCall.not_asks_of_isManagement (.adopt config) rfl
  | call asked => exact h
  | event event =>
      cases event with
      | call asked => exact fun hlookup => absurd hlookup h
      | manage asked => exact fun hmanages => ServiceCall.not_asks_of_isManagement hmanages
      | _ => trivial

theorem Happening.isAdmitted_lifeRule (happening : Happening) : happening.IsAdmitted World.lifeRule := by
  cases happening with
  | adopt | call => trivial
  | event event =>
      cases event with
      | call | manage => exact fun _ => trivial
      | _ => trivial

/-! ### Requests of a service that is closed -/

section Requests

variable {α : Type} {s : ServiceRun} (id : Nat)

theorem Work.sent_advance_send {request : SentRequest} {next : IndexAnswer → Work α}
    (horderly : s.state.service.IsOrderly)
    (h : Process.Abides World.lifeRule ((send request).andThen next) s.state) :
    s.state.sent ++ [request] <+: (s.advance id ((send request).andThen next)).1.state.sent := by
  rw [send_eq, Process.look_andThen] at h ⊢
  obtain ⟨hchange, hrest⟩ := h ⟨s.now, id⟩
  exact (Scheduler.advance_abides { s with state := (s.state.send id request).2 } id
    (World.lifeRule.keeps horderly hchange) hrest).1.change.sent

theorem ServiceRun.state_proceed (s : ServiceRun) (id : Nat) (work : Work Outcome) :
    (s.proceed id work).state = (s.advance id work).1.state := by
  rw [Scheduler.proceed]
  split
  · next hadvance => rw [state_finish, hadvance]
  · next hadvance => rw [hadvance]; rfl

theorem Work.sent_proceed_fetch (horderly : s.state.service.IsOrderly) (name : String) :
    s.state.sent ++ [(s.planFor name).request] <+: (s.proceed id (Work.run (.fetch name))).state.sent := by
  have hobeys : Process.Abides World.lifeRule (Work.run (.fetch name)) s.state :=
    Work.obeys_run World.admitsWork_lifeRule trivial s.state horderly
  obtain ⟨left, hleft⟩ : ∃ left, (s.planFor name).attempts = left + 1 :=
    ⟨(s.planFor name).attempts - 1, by
      have hpos : 1 ≤ (s.planFor name).attempts := by
        simp only [ServiceRun.planFor, IndexClient.plan]
        omega
      omega⟩
  rw [ServiceRun.state_proceed]
  unfold run at hobeys ⊢
  simp only at hobeys ⊢
  rw [getDocument_run, Process.look_andThen] at hobeys ⊢
  replace hobeys := hobeys ⟨s.now, id⟩
  rw [Scheduler.advance]
  change Process.Abides World.lifeRule
    (((request (s.planFor name) 1 (s.planFor name).attempts).andThen _).andThen _) s.state at hobeys
  change _ <+: (s.advance id
    (((request (s.planFor name) 1 (s.planFor name).attempts).andThen _).andThen _)).1.state.sent
  rw [hleft, request_succ, Process.andThen_assoc, Process.andThen_assoc] at hobeys ⊢
  exact sent_advance_send id horderly hobeys

theorem Work.sent_advance_askReachable {key : String} (horderly : s.state.service.IsOrderly)
    (h : Process.Abides World.lifeRule (askReachable key) s.state) :
    s.state.sent ++ [pinged s.state.service.client] <+: (s.advance id (askReachable key)).1.state.sent := by
  unfold askReachable ping at h ⊢
  simp only [Process.run_bind, Process.run_lift, ofService, Process.read, Process.look_andThen, Process.done_andThen,
    Process.andThen_assoc] at h ⊢
  exact sent_advance_send id horderly (h ⟨s.now, id⟩)

theorem Work.sent_proceed_connectivity (horderly : s.state.service.IsOrderly)
    (hmiss : (s.state.cached s.now (reachKey s.state.service.client)).1 = none) :
    s.state.sent ++ [pinged s.state.service.client] <+: (s.proceed id (perform .connectivity).run).state.sent := by
  have hobeys : Process.Abides World.lifeRule (perform .connectivity).run s.state :=
    Work.obeys_perform World.admitsWork_lifeRule trivial s.state horderly
  rw [ServiceRun.state_proceed]
  rw [perform_connectivity_run] at hobeys ⊢
  obtain ⟨hchange, hrest⟩ := hobeys ⟨s.now, id⟩ ⟨s.now, id⟩
  rw [Scheduler.advance, Scheduler.advance, Scheduler.advance]
  simp only [hmiss] at hrest ⊢
  have hclient : (s.state.cached s.now (reachKey s.state.service.client)).2.service.client
      = s.state.service.client := by rw [World.cached_service]
  have hsent := sent_advance_askReachable
    (s := { s with state := (s.state.cached s.now (reachKey s.state.service.client)).2 }) id
    (World.lifeRule.keeps horderly hchange) hrest
  rwa [World.cached_sent, hclient] at hsent

end Requests

namespace ServiceRun

variable {s : ServiceRun}

theorem step_turn_last (s : ServiceRun) (task : Nat) :
    ServiceRun.step (s.ask (.run task)) (.turn s.ready.length) = s.runTask Work.program task := by
  have hlast : (s.ask (.run task)).ready[s.ready.length]? = some (.run task) := by simp [Scheduler.ask]
  rw [step_turn hlast]
  simp [Scheduler.ask, Scheduler.take, List.eraseIdx_append_of_length_le]

theorem through_call_turn (s : ServiceRun) (call : ServiceCall) :
    s.through [.call call, .event (.turn s.ready.length)]
      = (s.enter (.call call)).runTask Work.program s.tasks.size :=
  step_turn_last (s.enter (.call call)) s.tasks.size

theorem sent_step_turn_fetch (horderly : s.state.service.IsOrderly) {place fetch : Nat}
    {t : TaskState World Errand Outcome} {name : String} (hplace : s.ready[place]? = some (.run fetch))
    (ht : s.tasks[fetch]? = some t) (hstatus : t.status = .fresh (.fetch name)) (hkept : t.isCancelled = false) :
    s.state.sent ++ [(s.planFor name).request] <+: (s.step (.turn place)).state.sent := by
  have ht' : ({ s with ready := s.ready.eraseIdx place } : ServiceRun).tasks[fetch]? = some t := ht
  rw [step_turn hplace, Scheduler.take, Scheduler.runTask_fresh ht' hkept hstatus]
  exact Work.sent_proceed_fetch (s := { s with ready := s.ready.eraseIdx place }) fetch horderly name

/-- A fetch that has been started for somebody sends a request if its turn comes next. -/
theorem sent_step_turn_started (horderly : s.state.service.IsOrderly) {caller : Nat} (hcaller : caller ≠ s.tasks.size)
    (name : String) (next : TaskResult Outcome → Work Outcome) :
    s.state.sent ++ [(s.planFor name).request] <+:
      (ServiceRun.step (joining (entering s (.fetch name) (Work.enlist (Work.normalized name) s.tasks.size s.state))
        caller s.tasks.size next) (.turn s.ready.length)).state.sent := by
  obtain ⟨started, hstarted⟩ : ∃ started, started = joining
      (entering s (.fetch name) (Work.enlist (Work.normalized name) s.tasks.size s.state)) caller s.tasks.size next :=
    ⟨_, rfl⟩
  have hplace : started.ready[s.ready.length]? = some (.run s.tasks.size) := by
    rw [hstarted]
    change (s.ready ++ [.run s.tasks.size])[s.ready.length]? = _
    simp
  have hfetch : started.tasks[s.tasks.size]? = some
      { status := .fresh (.fetch name), errand := some (.fetch name), watchers := [.waiter caller] } := by
    rw [hstarted]
    exact joining_fetch Scheduler.enter_self hcaller
  have hstate : started.state = Work.enlist (Work.normalized name) s.tasks.size s.state := by
    rw [hstarted]
    rfl
  have hsent := sent_step_turn_fetch (s := started) (by rw [hstate]; exact horderly) hplace hfetch rfl rfl
  rw [planFor, hstate] at hsent
  rw [← hstarted]
  exact hsent

/-- A lookup that finds nothing cached and no fetch under way starts one, whose turn comes next. -/
theorem sent_through_lookup (horderly : s.state.service.IsOrderly)
    (hcache : s.state.service.cache.entries = []) (hinFlight : s.state.service.inFlight = [])
    {call : ServiceCall} {view : Lookup} {name : String}
    (hsought : call.sought? s.state.service.includePre = some (view, name)) :
    s.state.sent ++ [(s.planFor name).request] <+: (s.through
      [.call call, .event (.turn s.ready.length), .event (.turn s.ready.length)]).state.sent := by
  have hfirst : FirstTurn (s.enter (.call call)) s.tasks.size call view name
      ((s.enter (.call call)).runTask Work.program s.tasks.size) :=
    firstTurn_runTask (s := s.enter (.call call)) Scheduler.enter_self rfl rfl hsought
  change _ <+: (ServiceRun.step (s.through [.call call, .event (.turn s.ready.length)])
    (.turn s.ready.length)).state.sent
  rw [through_call_turn]
  generalize Scheduler.runTask Work.program (s.enter (.call call)) s.tasks.size = begun at hfirst ⊢
  cases hfirst with
  | hit found hfound =>
      obtain ⟨entry, hentry, -⟩ := Cache.exists_entry_of_get hfound
      rw [Cache.entry?, show (s.enter (.call call)).state.service.cache.entries = [] from hcache] at hentry
      cases hentry
  | late hlisted | joins hlisted => exact absurd (hinFlight ▸ hlisted) List.not_mem_nil
  | starts =>
      have hservice := World.cached_service s.state s.now (Work.cacheKey view name)
      have horderly' : (ServiceRun.looked (s.enter (.call call)) view name).state.service.IsOrderly := by
        change (s.state.cached s.now (Work.cacheKey view name)).2.service.IsOrderly
        rw [hservice]
        exact horderly
      have hcaller : s.tasks.size ≠ (ServiceRun.looked (s.enter (.call call)) view name).tasks.size := by
        simp [ServiceRun.looked, Scheduler.enter]
      have hplan : (ServiceRun.looked (s.enter (.call call)) view name).planFor name = s.planFor name :=
        congrArg (fun service => service.client.plan (Work.documentPath name)) hservice
      have hbefore : (ServiceRun.looked (s.enter (.call call)) view name).state.sent = s.state.sent :=
        World.cached_sent ..
      have hsent := sent_step_turn_started horderly' hcaller name (Work.conclude view name call.replyTo)
      rwa [hplan, hbefore] at hsent

/-! ### The life of a service that was closed -/

/-- What a run is like some happenings after its service was closed. -/
structure IsAfterClose (closed later : ServiceRun) : Prop where
  /-- The service is closed for good, and no sweeper is on its way. -/
  shut : later.state.service.IsShut
  sent : closed.state.sent <+: later.state.sent
  /-- The connection is open just if something was sent since. -/
  isOpen_iff : later.state.service.client.isOpen = true ↔ closed.state.sent.length < later.state.sent.length
  /-- Closing the service again does nothing, so a connection that is open stays so. -/
  closes : ∀ task, later.advance task Work.close = (later, .inl ())
  /-- A fetch that nobody has given up sends a request in its first turn, as in any other service. -/
  fetches : ∀ (place fetch : Nat) t name, later.ready[place]? = some (.run fetch) →
    later.tasks[fetch]? = some t → t.status = .fresh (.fetch name) → t.isCancelled = false →
      later.state.sent ++ [(later.planFor name).request] <+: (ServiceRun.step later (.turn place)).state.sent

/-- What closing comes to. -/
structure ClosesTo (s closed : ServiceRun) : Prop where
  /-- Nothing is sent, but all of the service ends. -/
  state : closed.state = s.state.closed
  after : ∀ happenings, closed.IsAfterClose (closed.through happenings)
  /-- Nothing is sent any more if nothing was queued and nobody asks for anything. -/
  silent : s.HasNothingQueued → ∀ happenings, (∀ happening ∈ happenings, ¬ happening.Asks) →
    (closed.through happenings).state.sent = s.state.sent ∧
      (closed.through happenings).state.service.client.isOpen = false
  /-- Who looks something up then has a request sent. -/
  lookups : ∀ call view name, call.sought? s.state.service.includePre = some (view, name) →
    s.state.sent ++ [(s.planFor name).request] <+: (closed.through
      [.call call, .event (.turn closed.ready.length), .event (.turn closed.ready.length)]).state.sent
  /-- Who checks the index then sends a request. -/
  checks : s.state.sent ++ [Work.pinged s.state.service.client] <+:
    (closed.through [.call .connectivity, .event (.turn closed.ready.length)]).state.sent

theorem isAfterClose_through {closed : ServiceRun} (habides : closed.Abides World.lifeRule)
    (hshut : closed.state.service.IsShut) (hopen : closed.state.service.client.isOpen = false)
    (happenings : List Happening) : closed.IsAfterClose (closed.through happenings) := by
  have hmoves := moves_through World.admitsSurroundings_lifeRule habides fun happening (_ : happening ∈ happenings) =>
    happening.isAdmitted_lifeRule
  have hlingers := hmoves.change.lingers hshut
  have horderly := (hmoves.abides habides).holds
  refine ⟨hlingers.isShut hshut, hlingers.sent, ?_, ?_, fun _ _ _ _ hplace ht hstatus hkept =>
    sent_step_turn_fetch horderly hplace ht hstatus hkept⟩
  · rw [hlingers.isOpen_iff, hopen]
    simp
  · exact advance_close_of_closed (hlingers.isShut hshut).isClosed

/-- What closing comes to if all tasks live on then, and are silent if nothing was queued. -/
theorem closesTo_of_state {closed : ServiceRun} (hstate : closed.state = s.state.closed)
    (hlife : closed.Abides World.lifeRule) (hsilent : s.HasNothingQueued → closed.Abides World.silentRule) :
    s.ClosesTo closed := by
  have hshut : closed.state.service.IsShut := hstate ▸ World.isShut_closed _
  have hopen : closed.state.service.client.isOpen = false := by rw [hstate]; rfl
  have hsent : closed.state.sent = s.state.sent := by rw [hstate]; rfl
  refine ⟨hstate, isAfterClose_through hlife hshut hopen, ?_, ?_, ?_⟩
  · intro hqueued happenings hquiet
    have hmoves := moves_through World.admitsSurroundings_silentRule (hsilent hqueued) fun happening hmem =>
      Happening.isAdmitted_silentRule (hquiet happening hmem)
    exact ⟨hmoves.change.sent.trans hsent, hmoves.change.isOpen.trans hopen⟩
  · intro call view name hsought
    have hlooked := sent_through_lookup hlife.holds (by rw [hstate]; rfl) (by rw [hstate]; rfl)
      (hstate ▸ hsought : call.sought? closed.state.service.includePre = some (view, name))
    rw [planFor, hstate] at hlooked
    exact hlooked
  · have hmiss : (closed.state.cached closed.now (Work.reachKey closed.state.service.client)).1 = none := by
      rw [hstate]
      rfl
    have hchecked := Work.sent_proceed_connectivity (s := closed.enter (.call .connectivity)) closed.tasks.size
      hlife.holds hmiss
    have hpinged : Work.pinged (closed.enter (.call .connectivity)).state.service.client
        = Work.pinged s.state.service.client := by
      change Work.pinged closed.state.service.client = _
      rw [hstate]
      rfl
    have hbefore : (closed.enter (.call .connectivity)).state.sent = s.state.sent := hsent
    rw [through_call_turn, Scheduler.runTask_fresh Scheduler.enter_self rfl rfl, ← hbefore, ← hpinged]
    exact hchecked

theorem abides_closed (habides : s.Abides World.lifeRule) (h : s.state.service.isClosed = false) :
    s.closed.Abides World.lifeRule := by
  have hmoves := (Scheduler.advance_abides s 0 habides.holds (Work.obeys_close_lifeRule s.state habides.holds)).1
  rw [advance_close h] at hmoves
  exact hmoves.abides habides

theorem closesTo_of_isClosedBy {closed : ServiceRun} (habides : s.Abides World.lifeRule)
    (h : s.state.service.isClosed = false) (hclosed : s.IsClosedBy closed) : s.ClosesTo closed := by
  cases hclosed with
  | outside task =>
      rw [advance_close h]
      exact closesTo_of_state s.state_closed (abides_closed habides h) HasNothingQueued.abides_closed
  | @turn place task t hplace ht hstatus hkept =>
      rw [step_turn_close h hplace ht hstatus hkept]
      obtain ⟨dropped, hdropped⟩ : ∃ dropped : ServiceRun, dropped = { s with ready := s.ready.eraseIdx place } :=
        ⟨_, rfl⟩
      rw [← hdropped]
      have hstate : dropped.state = s.state := hdropped ▸ rfl
      have hmoves : Scheduler.Moves World.lifeRule s dropped := hdropped ▸ .of_eq rfl rfl
      have hends {rule : TaskRule World Errand} (hrule : dropped.closed.Abides rule) :
          (dropped.closed.finish task (.finished (.ok .nothing))).Abides rule :=
        (Scheduler.moves_finish _ task _).abides hrule
      refine closesTo_of_state ?_ (hends (abides_closed (hmoves.abides habides) (hstate ▸ h))) fun hqueued => ?_
      · rw [state_finish, state_closed, hstate]
      · have hsame : dropped.HasNothingQueued := hdropped ▸ hqueued
        exact hends hsame.abides_closed

/-- **Closing.** However a service has been used, whoever closes it first. -/
theorem closesTo_of_through {world : World} (horderly : world.service.IsOrderly) (now : Binary64)
    {happenings : List Happening} {closed : ServiceRun}
    (h : (ServiceRun.through { state := world, now } happenings).state.service.isClosed = false)
    (hclosed : IsClosedBy (ServiceRun.through { state := world, now } happenings) closed) :
    ClosesTo (ServiceRun.through { state := world, now } happenings) closed := by
  have hstart : Scheduler.Abides World.lifeRule ({ state := world, now } : ServiceRun) :=
    Scheduler.abides_initial horderly
  have hmoves := moves_through World.admitsSurroundings_lifeRule hstart
    fun happening (_ : happening ∈ happenings) => happening.isAdmitted_lifeRule
  exact closesTo_of_isClosedBy (hmoves.abides hstart) h hclosed

/-- A package that waits for a slot when the service is closed is asked for all the same, and the connection is
open again then. -/
theorem closesTo_of_through_waiting :
    let world := (ServiceRun.opening (.constant ⟨.timedOut, 5⟩)).state
    let used : List Happening := .call (.prefetch ["django", "flask"] none 1) :: List.replicate 4 (.event (.turn 0))
    let before := ServiceRun.through { state := world } used
    let closed : ServiceRun := (before.advance 0 Work.close).1
    let later := closed.through (List.replicate 9 (.event (.turn 0)))
    before.state.sent.map (·.url) = ["https://pypi.org/pypi/django/json".toList] ∧
      later.state.sent.map (·.url)
        = ["https://pypi.org/pypi/django/json".toList, "https://pypi.org/pypi/flask/json".toList] ∧
      closed.state.service.client.isOpen = false ∧ later.state.service.client.isOpen = true ∧
      before.ClosesTo closed := by
  intro world used before closed later
  have horderly : world.service.IsOrderly := fun hdisposed => absurd hdisposed Bool.false_ne_true
  have hopen : (ServiceRun.through { state := world } used).state.service.isClosed = false := by decide +kernel
  exact ⟨by decide +kernel, by decide +kernel, by decide +kernel, by decide +kernel,
    closesTo_of_through horderly _ hopen (.outside 0)⟩

end ServiceRun

end ManifestLens
