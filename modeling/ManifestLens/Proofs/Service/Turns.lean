import ManifestLens.Proofs.Schedule.Tasks
import ManifestLens.Proofs.Service.Coherence
import ManifestLens.Proofs.Service.Invariant

/-!
# What an event does

Every event comes to one of a few changes of the run. Nothing else than these has to be gone through where
something is shown to be kept.
-/

namespace ManifestLens

/-! ### Changes of the settings -/

/-- A change of the settings: nothing is cached that was not, and nothing at all once the service points at
another index. What is under way goes on. -/
structure World.Managed (before after : World) : Prop where
  inFlight : after.service.inFlight = before.service.inFlight
  received : after.received = before.received
  entries : after.service.cache.entries ⊆ before.service.cache.entries
  moved : after.service.client.baseUrl ≠ before.service.client.baseUrl → after.service.cache.entries = []

namespace World

variable {world : World}

theorem Managed.refl (world : World) : world.Managed world :=
  ⟨rfl, rfl, fun _ h => h, fun h => absurd rfl h⟩

theorem Managed.trans {mid after : World} (h : world.Managed mid) (h' : mid.Managed after) :
    world.Managed after := by
  refine ⟨h'.inFlight.trans h.inFlight, h'.received.trans h.received,
    fun _ hmem => h.entries (h'.entries hmem), fun hmoved => ?_⟩
  by_cases hlast : after.service.client.baseUrl = mid.service.client.baseUrl
  · exact List.subset_nil.mp (h.moved (hlast ▸ hmoved) ▸ h'.entries)
  · exact h'.moved hlast

theorem managed_emptyCache (world : World) : world.Managed world.emptyCache := by
  have hservice := world.emptyCache_service
  exact ⟨by rw [hservice], emptyCache_received _, by rw [hservice]; exact List.nil_subset _,
    fun _ => by rw [hservice]; rfl⟩

theorem managed_setBaseUrl {url : List Char} {moved : World} (h : world.setBaseUrl url = .ok moved) :
    world.Managed moved := by
  obtain ⟨client, -, hservice, hreceived, -⟩ := service_of_setBaseUrl h
  exact ⟨by rw [hservice], hreceived, by rw [hservice]; exact List.nil_subset _, fun _ => by rw [hservice]; rfl⟩

theorem managed_resizeCache (world : World) (config : Config) : world.Managed (world.resizeCache config).2 :=
  ⟨rfl, rfl, Cache.entries_adjust_subset world.service.cache (some (.int (config.cacheMinutes * 60)))
    (some config.cacheCapacity), fun h => absurd rfl h⟩

theorem managed_of_eq {after : World} (hinFlight : after.service.inFlight = world.service.inFlight)
    (hreceived : after.received = world.received) (hcache : after.service.cache = world.service.cache)
    (hbase : after.service.client.baseUrl = world.service.client.baseUrl) : world.Managed after :=
  ⟨hinFlight, hreceived, fun _ hmem => hcache ▸ hmem, fun h => absurd hbase h⟩

/-- Who takes over a configuration remembers it, sets up the client and the cache anew, and points the service at
another index, or does only the first of these. -/
theorem adopt_steps (R : World → World → Prop) (htrans : ∀ {a b c}, R a b → R b c → R a c) (config : Config)
    (hremember : ∀ world : World, R world (world.withService fun service =>
      { service with config, includePre := config.listPreReleases }))
    (hconfigure : ∀ world : World, R world (world.withService fun service =>
      { service with
        client := service.client.configure (some (Service.seconds config.requestTimeout))
          (some config.retryAttempts) (some (Service.seconds config.retryDelay)) }))
    (hresize : ∀ world : World, R world (world.resizeCache config).2)
    (hmove : ∀ {world moved : World}, world.setBaseUrl config.indexUrl = .ok moved → R world moved)
    (hlog : ∀ (world : World) (record : LogRecord), R world (world.logged record)) (world : World) :
    R world (world.adopt config).2 := by
  have hfirst := hremember world
  simp only [adopt]
  split
  · exact htrans hfirst (hlog _ _)
  · have hresized := htrans (htrans hfirst (hconfigure _)) (hresize _)
    split
    · exact hresized
    · split
      · exact hresized
      · split
        · exact hresized
        · split
          · next hmoved => exact htrans hresized (hmove hmoved)
          · exact hresized

theorem managed_adopt (world : World) (config : Config) : world.Managed (world.adopt config).2 :=
  adopt_steps Managed .trans config (fun _ => managed_of_eq rfl rfl rfl rfl)
    (fun _ => managed_of_eq rfl rfl rfl rfl) (fun world => managed_resizeCache world config) managed_setBaseUrl
    (fun _ _ => managed_of_eq rfl rfl rfl rfl) world

end World

theorem Work.perform_adopt_run (config : Config) : (perform (.adopt config)).run = .look fun _ world =>
    .change (fun _ => (world.adopt config).2) (.done ((world.adopt config).1.map fun _ => .nothing)) := by
  unfold perform
  simp only [Process.run_bind, Process.run_mk, Process.update, Process.look_andThen, Process.change_andThen,
    Process.done_andThen]
  congr 1
  funext moment world
  cases (world.adopt config).1 <;> rfl

/-- A change of the settings happens at once, to the world alone. -/
theorem ServiceRun.exists_managed (s : ServiceRun) {call : ServiceCall} (h : call.isManagement = true) :
    ∃ world, (s.advance 0 (Work.perform call).run).1 = { s with state := world } ∧ s.state.Managed world := by
  cases call with
  | emptyCache => exact ⟨_, rfl, World.managed_emptyCache _⟩
  | setBaseUrl url =>
      rw [Work.perform_setBaseUrl_run, Scheduler.advance]
      cases hmoved : s.state.setBaseUrl url with
      | ok moved => exact ⟨moved, rfl, World.managed_setBaseUrl hmoved⟩
      | error fault => exact ⟨s.state, rfl, World.Managed.refl _⟩
  | adopt config =>
      rw [Work.perform_adopt_run]
      exact ⟨_, rfl, World.managed_adopt _ config⟩
  | _ => cases h

/-! ### Turns of a call -/

/-- What a lookup comes to with the result of a fetch. -/
def Work.conclusion (view : Lookup) (name : String) (reply : CachedView → Outcome)
    (result : TaskResult Outcome) : Outcome := ((told name result).bind (derive view name)).bind reply

/-- What a lookup keeps of the result of a fetch. -/
def Work.kept (view : Lookup) (name : String) (result : TaskResult Outcome) (now : Binary64)
    (world : World) : World :=
  match (told name result).bind (derive view name) with
  | .ok found => world.store now (cacheKey view name) found
  | .error _ => world

namespace ServiceRun

variable (s : ServiceRun) (view : Lookup) (name : String)

/-- The cache has nothing for a view. -/
def Misses : Prop := (s.state.cached s.now (Work.cacheKey view name)).1 = none

/-- The run after somebody has looked for a view in the cache. -/
def looked : ServiceRun := { s with state := (s.state.cached s.now (Work.cacheKey view name)).2 }

/-- The fetch that somebody attaches to who asks for a package: the one that is listed, or a new one. -/
def fetchFor : Nat :=
  match s.state.service.inFlight.find? (·.1 == Work.normalized name) with
  | some (_, fetch) => fetch
  | none => s.tasks.size

variable {s view name}

theorem inFlight_looked : (s.looked view name).state.service.inFlight = s.state.service.inFlight := by
  rw [looked, World.cached_service]

theorem listed_or_free : (Work.normalized name, s.fetchFor name) ∈ s.state.service.inFlight ∨
    s.fetchFor name = s.tasks.size ∧ ∀ fetch, (Work.normalized name, fetch) ∉ s.state.service.inFlight := by
  rw [fetchFor]
  cases hfind : s.state.service.inFlight.find? (·.1 == Work.normalized name) with
  | some listed =>
      obtain ⟨key, fetch⟩ := listed
      obtain rfl : key = Work.normalized name := by simpa using List.find?_some hfind
      exact .inl (List.mem_of_find?_eq_some hfind)
  | none =>
      refine .inr ⟨rfl, fun fetch hmem => ?_⟩
      simpa using List.find?_eq_none.mp hfind _ hmem

variable {id : Nat} {reply : CachedView → Outcome} {result : TaskResult Outcome}

theorem proceed_conclude : s.proceed id (Work.conclude view name reply result) =
    { s with state := Work.kept view name result s.now s.state }.finish id
      (.finished (Work.conclusion view name reply result)) := by
  unfold Work.conclude Work.kept Work.conclusion
  cases (Work.told name result).bind (Work.derive view name) <;> rfl

theorem proceed_hit {found : CachedView}
    (h : (s.state.cached s.now (Work.cacheKey view name)).1 = some found) :
    s.proceed id (Work.inquire view name reply) = (s.looked view name).finish id (.finished (reply found)) := by
  simp only [Scheduler.proceed, Work.inquire, Scheduler.advance, h]
  rfl

theorem proceed_miss (h : s.Misses view name) : s.proceed id (Work.inquire view name reply) =
    (s.looked view name).proceed id
      ((Work.sharedFetch name).andThen fun task => .join task (Work.conclude view name reply)) := by
  simp only [Misses] at h
  simp only [Scheduler.proceed, Work.inquire, Scheduler.advance, h]
  rfl

theorem proceed_listed {next : TaskResult Outcome → Work Outcome}
    (hlisted : (Work.normalized name, s.fetchFor name) ∈ s.state.service.inFlight) :
    s.proceed id ((Work.sharedFetch name).andThen fun task => .join task next) =
      s.proceed id (.join (s.fetchFor name) next) := by
  cases hfind : s.state.service.inFlight.find? (·.1 == Work.normalized name) with
  | some listed =>
      have hfetch : s.fetchFor name = listed.2 := by rw [fetchFor, hfind]
      rw [Work.sharedFetch_eq, hfetch]
      simp only [Scheduler.proceed, Process.look_andThen, Scheduler.advance, hfind, Process.done_andThen]
  | none => exact absurd (beq_self_eq_true (Work.normalized name)) (List.find?_eq_none.mp hfind _ hlisted)

theorem proceed_free {next : TaskResult Outcome → Work Outcome}
    (hfree : ∀ fetch, (Work.normalized name, fetch) ∉ s.state.service.inFlight) :
    s.proceed id ((Work.sharedFetch name).andThen fun task => .join task next) =
      (entering s (.fetch name) (Work.enlist (Work.normalized name) s.tasks.size s.state)).proceed id
        (.join s.tasks.size next) := by
  have hfind : s.state.service.inFlight.find? (·.1 == Work.normalized name) = none := by
    rw [List.find?_eq_none]
    rintro ⟨key, fetch⟩ hmem hkey
    exact hfree fetch (by simpa using (show key = Work.normalized name by simpa using hkey) ▸ hmem)
  rw [Work.sharedFetch_eq]
  simp only [Scheduler.proceed, Process.look_andThen, Scheduler.advance, hfind, Process.spawn_andThen,
    Process.change_andThen, Process.done_andThen]
  rfl

theorem proceed_join_ended {fetch : Nat} {next : TaskResult Outcome → Work Outcome}
    (h : s.hasEnded fetch = true) : s.proceed id (.join fetch next) = s.proceed id (next (s.resultOf fetch)) := by
  simp only [Scheduler.proceed, Scheduler.advance, if_pos h]

theorem proceed_join_going {fetch : Nat} {next : TaskResult Outcome → Work Outcome}
    (h : s.hasEnded fetch = false) : s.proceed id (.join fetch next) = joining s id fetch next := by
  simp only [Scheduler.proceed, Scheduler.advance, h, Bool.false_eq_true, if_false]
  rfl

end ServiceRun

/-! ### Turns of a task -/

variable {ledger : Ledger}

/-- What the first turn of a call makes of a run: the call replies from the cache, or it concludes from a listed
fetch that has ended, or it waits for a listed fetch, or for a new one. -/
inductive FirstTurn (s : ServiceRun) (id : Nat) (call : ServiceCall) (view : Lookup) (name : String) :
    ServiceRun → Prop where
  | hit (found : CachedView) (hfound : (s.state.cached s.now (Work.cacheKey view name)).1 = some found) :
      FirstTurn s id call view name ((s.looked view name).finish id (.finished (call.replyTo found)))
  | late (hlisted : (Work.normalized name, s.fetchFor name) ∈ s.state.service.inFlight)
      (hended : s.hasEnded (s.fetchFor name) = true) :
      FirstTurn s id call view name ({ s.looked view name with
        state := Work.kept view name (s.resultOf (s.fetchFor name)) s.now (s.looked view name).state }.finish id
          (.finished (Work.conclusion view name call.replyTo (s.resultOf (s.fetchFor name)))))
  | joins (hlisted : (Work.normalized name, s.fetchFor name) ∈ s.state.service.inFlight)
      (hgoing : s.hasEnded (s.fetchFor name) = false) :
      FirstTurn s id call view name
        (joining (s.looked view name) id (s.fetchFor name) (Work.conclude view name call.replyTo))
  | starts (hfree : ∀ fetch, (Work.normalized name, fetch) ∉ s.state.service.inFlight) :
      FirstTurn s id call view name
        (joining (entering (s.looked view name) (.fetch name)
          (Work.enlist (Work.normalized name) s.tasks.size (s.looked view name).state)) id s.tasks.size
          (Work.conclude view name call.replyTo))

/-- **What a turn of a task does**: nothing once the task has ended; a part of a fetch; or what a call does, which
is given up, has its first turn, or draws its conclusion from a fetch. -/
inductive TaskTurn (ledger : Ledger) (s : ServiceRun) (id : Nat) (t : TaskState World Errand Outcome) :
    ServiceRun → Prop where
  | ended (hended : t.status.result ≠ .running) (hsound : TaskSound ledger s id t) : TaskTurn ledger s id t s
  | fetch (spelling : String) (world : World) (t' : TaskState World Errand Outcome) (asked : List Turn)
      (s' : ServiceRun) (herrand : t.errand = some (.fetch spelling)) (hrunning : t.status.result = .running)
      (hasks : s.state.OnlyAsks world) (hturn : HadTurn { s with state := world } s' id t t' asked)
      (hsound : TaskSound ledger { s with state := world } id t') : TaskTurn ledger s id t s'
  | givenUp (call : ServiceCall) (herrand : t.errand = some (.call call)) (hrunning : t.status.result = .running)
      (hcancelled : t.isCancelled = true) :
      TaskTurn ledger s id t ({ s with state := s.state.settle id }.finish id .cancelled)
  | first (call : ServiceCall) (view : Lookup) (name : String)
      (herrand : t.errand = some (.call call)) (hstatus : t.status = .fresh (.call call))
      (hkept : t.isCancelled = false)
      (hsought : call.sought? s.state.service.includePre = some (view, name))
      (hturn : FirstTurn s id call view name s') : TaskTurn ledger s id t s'
  | concludes (call : ServiceCall) (view : Lookup) (name : String) (fetch : Nat)
      (herrand : t.errand = some (.call call))
      (hsought : ∃ preferred, call.sought? preferred = some (view, name))
      (hstatus : t.status = .paused (.joining fetch (Work.conclude view name call.replyTo)))
      (hkept : t.isCancelled = false)
      (hfetch : ∃ spelling, s.errandOf fetch = some (.fetch spelling) ∧
        Work.normalized spelling = Work.normalized name)
      (hlive : ledger.old fetch → ledger.live fetch) (hended : s.hasEnded fetch = true) :
      TaskTurn ledger s id t ({ s with
        state := Work.kept view name (s.resultOf fetch) s.now s.state }.finish id
          (.finished (Work.conclusion view name call.replyTo (s.resultOf fetch))))

section

variable {s : ServiceRun} {id : Nat} {t : TaskState World Errand Outcome}

theorem runTask_of_ended (ht : s.tasks[id]? = some t) {result : TaskResult Outcome}
    (hstatus : t.status = .ended result) (hended : result ≠ .running) : s.runTask Work.program id = s := by
  have hended : s.hasEnded id = true := Scheduler.hasEnded_iff.mpr (by
    rw [Scheduler.resultOf_of_getElem? _ ht, hstatus]
    exact hended)
  simp only [Scheduler.runTask, ht, hended, Bool.not_true, Bool.and_false, Bool.false_eq_true, if_false, hstatus]

theorem runTask_of_cancelled (ht : s.tasks[id]? = some t) (hcancelled : t.isCancelled = true)
    (hrunning : t.status.result = .running) : s.runTask Work.program id
      = { s with state := s.state.settle id }.finish id .cancelled := by
  have hgoing : s.hasEnded id = false := Scheduler.hasEnded_eq_false_iff.mpr (by
    rw [Scheduler.resultOf_of_getElem? _ ht, hrunning])
  simp only [Scheduler.runTask, ht, hcancelled, hgoing, Bool.not_false, Bool.and_self, if_true]
  rfl

theorem firstTurn_runTask {call : ServiceCall} {view : Lookup} {name : String} (ht : s.tasks[id]? = some t)
    (hstatus : t.status = .fresh (.call call)) (hkept : t.isCancelled = false)
    (hsought : call.sought? s.state.service.includePre = some (view, name)) :
    FirstTurn s id call view name (s.runTask Work.program id) := by
  rw [Scheduler.runTask_fresh ht hkept hstatus]
  have hbegins : s.proceed id (Work.program.body (.call call))
      = s.proceed id (Work.inquire view name call.replyTo) := by
    simp only [Scheduler.proceed]
    rw [show Work.program.body (.call call) = (Work.perform call).run from rfl, Work.advance_perform hsought]
  rw [hbegins]
  cases hfound : (s.state.cached s.now (Work.cacheKey view name)).1 with
  | some found =>
      rw [ServiceRun.proceed_hit hfound]
      exact .hit found hfound
  | none =>
      have hfetchFor : (s.looked view name).fetchFor name = s.fetchFor name := by
        simp only [ServiceRun.fetchFor, ServiceRun.inFlight_looked]
        rfl
      rw [ServiceRun.proceed_miss hfound]
      rcases s.listed_or_free with hlisted | ⟨-, hfree⟩
      · rw [ServiceRun.proceed_listed (by rwa [ServiceRun.inFlight_looked, hfetchFor]), hfetchFor]
        cases hended : s.hasEnded (s.fetchFor name) with
        | true =>
            rw [ServiceRun.proceed_join_ended (s := s.looked view name) hended, ServiceRun.proceed_conclude]
            exact .late hlisted hended
        | false =>
            rw [ServiceRun.proceed_join_going (s := s.looked view name) hended]
            exact .joins hlisted hended
      · rw [ServiceRun.proceed_free (by simpa [ServiceRun.inFlight_looked] using hfree),
          ServiceRun.proceed_join_going]
        · exact .starts hfree
        · rw [hasEnded_entering, Scheduler.hasEnded_eq_false_iff]
          exact Scheduler.resultOf_of_none _ (by simp [ServiceRun.looked])

theorem hadTurn_finish (ht : s.tasks[id]? = some t) (htimer : TimerSound t) {result : TaskResult Outcome}
    (hresult : result ≠ .running) :
    HadTurn s (s.finish id result) id t { t with status := .ended result, watchers := [] }
      (.ended id :: t.watchers.map (Scheduler.news id)) := by
  rw [Scheduler.finish_eq, Scheduler.watchersOf_of_getElem? _ ht]
  exact {
    state := rfl
    size := by simp [Scheduler.modifyTask]
    self := Scheduler.modifyTask_self ht
    other := fun _ hother => Scheduler.modifyTask_of_ne hother
    errand := rfl
    begun := .of_ended rfl
    free := fun _ _ hstatus => by cases hstatus
    timer := fun hset => ⟨(htimer hset).1, .of_ended rfl⟩
    timers := fun _ hmem => .inl hmem
    ready := rfl
    end_or_sleep := .inl ⟨hresult, rfl, rfl⟩ }

theorem hadTurn_ask (ht : s.tasks[id]? = some t) (htimer : TimerSound t) (next : Work Outcome) :
    HadTurn s ((s.ask (.run id)).modifyTask id fun t => { t with status := .paused (.plain next) }) id t
      { t with status := .paused (.plain next) } [.run id] where
  state := rfl
  size := by simp [Scheduler.modifyTask, Scheduler.ask]
  self := Scheduler.modifyTask_self ht
  other := fun _ hother => Scheduler.modifyTask_of_ne hother
  errand := rfl
  begun := .of_paused rfl
  free := fun _ _ hstatus => by cases hstatus
  timer := fun hset => ⟨(htimer hset).1, .of_paused rfl⟩
  timers := fun _ hmem => .inl hmem
  ready := rfl
  end_or_sleep := .inr ⟨rfl, rfl, .inr rfl⟩

theorem hadTurn_setTimer (ht : s.tasks[id]? = some t) {spelling : String}
    (herrand : t.errand = some (.fetch spelling)) (seconds : Number) (next : Work Outcome) :
    HadTurn s ((s.setTimer id seconds).modifyTask id fun t => { t with status := .paused (.plain next) }) id t
      { t with status := .paused (.plain next), timer := some s.timerCount } [] where
  state := rfl
  size := by simp [Scheduler.modifyTask, Scheduler.setTimer]
  self := Scheduler.modifyTask_self (Scheduler.modifyTask_self ht)
  other := fun _ hother => (Scheduler.modifyTask_of_ne hother).trans (Scheduler.modifyTask_of_ne hother)
  errand := rfl
  begun := .of_paused rfl
  free := fun _ _ hstatus => by cases hstatus
  timer := fun _ => ⟨⟨spelling, herrand⟩, .of_paused rfl⟩
  timers := by
    intro timer hmem
    rcases TimerHeap.mem_insert.mp hmem with hmem | rfl
    · exact .inl hmem
    · exact .inr ⟨rfl, rfl⟩
  ready := (List.append_nil _).symm
  end_or_sleep := .inr ⟨rfl, rfl, .inl rfl⟩

/-- A turn of a fetch. -/
theorem exists_taskTurn_fetch {spelling : String} {past : Nat} {request : SentRequest} {work : Work Outcome}
    (ht : s.tasks[id]? = some t) (herrand : t.errand = some (.fetch spelling)) (hkept : t.isCancelled = false)
    (htimer : TimerSound t) (hrunning : t.status.result = .running)
    (hallowed : ledger.Allows id spelling past request)
    (hkeeps : work.Keeps World.OnlyAsks World.Notes (Work.FetchEnd past request) s.state) :
    TaskTurn ledger s id t (s.proceed id work) := by
  obtain ⟨world, hasks, ⟨outcome, hadvance, hend⟩ | ⟨next, hnext, hadvance | ⟨seconds, hadvance⟩⟩⟩ :=
    Scheduler.advance_keeps World.OnlyAsks.refl World.OnlyAsks.trans s id hkeeps
  · have hproceed : s.proceed id work
        = ({ s with state := world } : ServiceRun).finish id (.finished outcome) := by
      simp only [Scheduler.proceed, hadvance]
    rw [hproceed]
    exact .fetch spelling world _ _ _ herrand hrunning hasks
      (hadTurn_finish (s := { s with state := world }) ht htimer (by simp))
      (.fetched spelling past request outcome herrand hkept rfl hallowed hend)
  · have hproceed : s.proceed id work = ((({ s with state := world } : ServiceRun).ask (.run id)).modifyTask id
        fun t => { t with status := .paused (.plain next) }) := by
      simp only [Scheduler.proceed, hadvance]
    rw [hproceed]
    exact .fetch spelling world _ _ _ herrand hrunning hasks
      (hadTurn_ask (s := { s with state := world }) ht htimer next)
      (.fetching spelling past request next herrand hkept rfl hallowed hnext)
  · have hproceed : s.proceed id work
        = ((({ s with state := world } : ServiceRun).setTimer id seconds).modifyTask id
        fun t => { t with status := .paused (.plain next) }) := by
      simp only [Scheduler.proceed, hadvance]
    rw [hproceed]
    exact .fetch spelling world _ _ _ herrand hrunning hasks
      (hadTurn_setTimer (s := { s with state := world }) ht herrand seconds next)
      (.fetching spelling past request next herrand hkept rfl hallowed hnext)

/-- **A turn of a task** in a run in which everything is sound. -/
theorem Sound.taskTurn (h : Sound ledger s none) (rest : List Turn) (ht : s.tasks[id]? = some t) (hid : id ≠ 0)
    (hrun : MayRun s t) : TaskTurn ledger { s with ready := rest } id t
      (({ s with ready := rest } : ServiceRun).runTask Work.program id) := by
  have ht' : ({ s with ready := rest } : ServiceRun).tasks[id]? = some t := ht
  cases h.tasks.task id t ht (by simp) with
  | outside htask => exact absurd htask hid
  | asked call herrand hlookup hstatus =>
      cases hcancelled : t.isCancelled with
      | true =>
          rw [runTask_of_cancelled ht' hcancelled (by rw [hstatus]; rfl)]
          exact .givenUp call herrand (by rw [hstatus]; rfl) hcancelled
      | false =>
          obtain ⟨view, name, hsought⟩ := ServiceCall.exists_sought hlookup s.state.service.includePre
          exact .first call view name herrand hstatus hcancelled hsought
            (firstTurn_runTask ht' hstatus hcancelled hsought)
  | waiting call view name fetch herrand hsought hstatus hfetch hlive =>
      cases hcancelled : t.isCancelled with
      | true =>
          rw [runTask_of_cancelled ht' hcancelled (by rw [hstatus]; rfl)]
          exact .givenUp call herrand (by rw [hstatus]; rfl) hcancelled
      | false =>
          have hended : s.hasEnded fetch = true :=
            (hrun fetch _ hstatus).resolve_left (by simp [hcancelled])
          rw [Scheduler.runTask_paused ht' hcancelled hstatus, Scheduler.resume, ServiceRun.proceed_conclude]
          exact .concludes call view name fetch herrand hsought hstatus hcancelled hfetch hlive hended
  | replied call result herrand hstatus hresult hanswer =>
      rw [runTask_of_ended ht' hstatus hresult]
      exact .ended (by rwa [hstatus]) (.replied call result herrand hstatus hresult hanswer)
  | begun spelling herrand hkept hstatus =>
      rw [Scheduler.runTask_fresh ht' hkept hstatus]
      refine exists_taskTurn_fetch ht' herrand hkept (h.tasks.timer id t ht) (by rw [hstatus]; rfl) ?_
        (Work.fetch_keeps spelling h.world.past)
      exact .inr ⟨rfl, _, h.world.base, s.request_url_planFor spelling⟩
  | fetching spelling past request next herrand hkept hstatus hallowed hnext =>
      rw [Scheduler.runTask_paused ht' hkept hstatus]
      exact exists_taskTurn_fetch ht' herrand hkept (h.tasks.timer id t ht) (by rw [hstatus]; rfl) hallowed
        (hnext _ (.refl _))
  | fetched spelling past request outcome herrand hkept hstatus hallowed hend =>
      rw [runTask_of_ended ht' hstatus (by simp)]
      exact .ended (by rw [hstatus]; simp [TaskStatus.result])
        (.fetched spelling past request outcome herrand hkept hstatus hallowed hend)

end

end ManifestLens
