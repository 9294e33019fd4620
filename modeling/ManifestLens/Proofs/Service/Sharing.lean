import Mathlib.Data.List.Nodup
import ManifestLens.Proofs.Service.Course

/-!
# Sharing of fetches

Calls for one package share a fetch. At any moment at most one fetch of a package is under way, and whoever
begins then waits for it without a request. Everybody who attaches to a fetch and is not given up gets what
comes of its outcome under the own spelling, whatever else happens; who is given up takes nothing away from
the others; and when no fetch is under way none is listed.
-/

namespace ManifestLens

variable {ledger : Ledger} {s s' : ServiceRun} {place caller fetch : Nat} {call : ServiceCall} {view : Lookup}
  {name key : String}

namespace ServiceRun

/-- The fetch of a package is under way: it has been started and has not ended. -/
def IsUnderWay (s : ServiceRun) (key : String) (fetch : Nat) : Prop :=
  (∃ spelling, s.errandOf fetch = some (.fetch spelling) ∧ Work.normalized spelling = key) ∧
    s.hasEnded fetch = false

end ServiceRun

/-! ### The table of the fetches -/

theorem Sound.listed (h : Sound ledger s none) (hway : s.IsUnderWay key fetch) :
    (key, fetch) ∈ s.state.service.inFlight := by
  obtain ⟨⟨spelling, herrand, rfl⟩, hgoing⟩ := hway
  exact h.table.complete fetch spelling herrand hgoing

/-- No package has two fetches listed. -/
theorem TableSound.unique (h : TableSound ledger s) {other : Nat}
    (hfetch : (key, fetch) ∈ s.state.service.inFlight) (hother : (key, other) ∈ s.state.service.inFlight) :
    fetch = other :=
  (Prod.mk.inj (List.inj_on_of_nodup_map h.keys hfetch hother rfl)).2

theorem Sound.fetchFor_eq (h : Sound ledger s none) (hway : s.IsUnderWay (Work.normalized name) fetch) :
    s.fetchFor name = fetch := by
  have hlisted := h.listed hway
  rcases s.listed_or_free with hfor | ⟨-, hfree⟩
  · exact h.table.unique hfor hlisted
  · exact absurd hlisted (hfree fetch)

/-! ### The first turn of a call -/

namespace ServiceRun.Begins

theorem firstTurn (h : s.Begins place caller call view name) :
    FirstTurn { s with ready := s.ready.eraseIdx place } caller call view name (s.step (.turn place)) := by
  obtain ⟨t, ht, hfresh, hkept⟩ := h.fresh
  rw [step_turn h.turn]
  exact firstTurn_runTask (s := { s with ready := s.ready.eraseIdx place }) ht hfresh hkept h.sought

end ServiceRun.Begins

theorem size_finish (s : ServiceRun) (id : Nat) (result : TaskResult Outcome) :
    (s.finish id result).tasks.size = s.tasks.size := by
  rw [Scheduler.finish_eq]
  simp [Scheduler.modifyTask]

theorem size_joining (s : ServiceRun) (id fetch : Nat) (next : TaskResult Outcome → Work Outcome) :
    (joining s id fetch next).tasks.size = s.tasks.size := by
  simp [joining, Scheduler.watch, Scheduler.modifyTask]

namespace FirstTurn

theorem sent_eq (h : FirstTurn s caller call view name s') : s'.state.sent = s.state.sent := by
  have hlooked : (s.looked view name).state.sent = s.state.sent := World.cached_sent _ _ _
  cases h with
  | hit found => rw [state_finish, hlooked]
  | late =>
      obtain ⟨_, -, -, hsent⟩ := Work.kept_service view name (s.resultOf (s.fetchFor name)) s.now
        (s.looked view name).state
      rw [state_finish, hsent, hlooked]
  | joins => exact hlooked
  | starts => exact hlooked

theorem size_eq (h : FirstTurn s caller call view name s')
    (hlisted : (Work.normalized name, fetch) ∈ s.state.service.inFlight) : s'.tasks.size = s.tasks.size := by
  cases h with
  | hit found => exact size_finish _ _ _
  | late => exact size_finish _ _ _
  | joins => exact size_joining _ _ _ _
  | starts hfree => exact absurd hlisted (hfree fetch)

end FirstTurn

theorem Sound.errand_of_fresh (h : Sound ledger s none) {t : TaskState World Errand Outcome}
    (ht : s.tasks[caller]? = some t) (hfresh : t.status = .fresh (.call call)) :
    t.errand = some (.call call) := by
  cases h.tasks.task caller t ht (by simp) with
  | asked asked herrand _ hstatus =>
      rw [hfresh] at hstatus
      cases hstatus
      exact herrand
  | outside _ hstatus => rw [hfresh] at hstatus; cases hstatus
  | waiting _ _ _ _ _ _ hstatus => rw [hfresh] at hstatus; cases hstatus
  | replied _ _ _ hstatus => rw [hfresh] at hstatus; cases hstatus
  | begun _ _ _ hstatus => rw [hfresh] at hstatus; cases hstatus
  | fetching _ _ _ _ _ _ hstatus => rw [hfresh] at hstatus; cases hstatus
  | fetched _ _ _ _ _ _ hstatus => rw [hfresh] at hstatus; cases hstatus

/-- **Attaching.** A call that finds nothing in the cache attaches to a fetch for its package in its first
turn. -/
theorem Sound.attached (h : Sound ledger s none) (hbegins : s.Begins place caller call view name)
    (hmiss : s.Misses view name) :
    (ServiceRun.WaitsFor (s.step (.turn place)) caller (s.fetchFor name) call view name ∨
      s.hasEnded (s.fetchFor name) = true ∧
        ServiceRun.HasConcluded (s.step (.turn place)) caller (s.fetchFor name) call view name) ∧
      ∃ spelling, (s.step (.turn place)).errandOf (s.fetchFor name) = some (.fetch spelling) ∧
        Work.normalized spelling = Work.normalized name := by
  obtain ⟨t, ht, hfresh, hkept⟩ := hbegins.fresh
  have herrand := h.errand_of_fresh ht hfresh
  have hfirst := hbegins.firstTurn
  have hgrows := (h.step_leaves (.turn place)).grows
  generalize s.step (.turn place) = after at hfirst hgrows
  cases hfirst with
  | hit found hfound =>
      have hfound : (s.state.cached s.now (Work.cacheKey view name)).1 = some found := hfound
      rw [hmiss] at hfound
      cases hfound
  | late hlisted hended =>
      obtain ⟨spelling, hfetch, hname⟩ := (h.table.listed _ _ hlisted).errand
      refine ⟨.inr ⟨hended, hgrows.hasEnded hended, .trans (resultOf_finish_self (t := t) ?_ _) ?_⟩, spelling,
        hgrows.errand hfetch, hname⟩
      · exact ht
      · exact congrArg (fun result => TaskResult.finished (Work.conclusion view name call.replyTo result))
          (hgrows.result hended).symm
  | joins hlisted hgoing =>
      obtain ⟨spelling, hfetch, hname⟩ := (h.table.listed _ _ hlisted).errand
      exact ⟨.inl ⟨_, joining_self ht (ne_fetch ht herrand hfetch), hkept, rfl⟩, spelling,
        hgrows.errand hfetch, hname⟩
  | starts hfree =>
      obtain ⟨hsize, -⟩ := s.listed_or_free.resolve_left (hfree (s.fetchFor name))
      rw [hsize]
      refine ⟨.inl ⟨_, joining_self (Scheduler.enter_of_getElem? ht) (Scheduler.ne_size_of_getElem? ht), hkept,
        rfl⟩, name, ?_, rfl⟩
      rw [errandOf_joining, errandOf_entering]
      exact if_pos rfl

/-! ### What a caller gets -/

namespace Work

/-- What somebody gets who has asked for a view with a spelling, from the outcome of the shared fetch: the view
of its document, or its failure with the own spelling, which the shared one does not name. -/
inductive Gets (view : Lookup) (name : String) (reply : CachedView → Outcome) : Outcome → Outcome → Prop where
  | document (document : List (String × Json)) :
      Gets view name reply (.ok (.document document)) ((derive view name document).bind reply)
  | failure (error : IndexError) (huntold : error.package = none) :
      Gets view name reply (.error (.index error)) (.error (.index { error with package := some name }))
  | fault (fault : Fault) (hfault : ∀ error, fault ≠ .index error) :
      Gets view name reply (.error fault) (.error fault)

theorem gets_conclusion {reply : CachedView → Outcome} {past : Nat} {request : SentRequest} {world : World}
    {outcome : Outcome} (h : FetchEnd past request world outcome) :
    Gets view name reply outcome (conclusion view name reply (.finished outcome)) := by
  cases outcome with
  | ok result =>
      cases result with
      | document members => exact .document members
      | _ => exact h.elim
  | error fault =>
      cases fault with
      | index error =>
          have huntold : error.package = none := h error rfl
          have htold : (Fault.index error).forPackage name = .index { error with package := some name } := by
            simp only [Fault.forPackage, IndexError.forPackage, huntold]
          have hconclusion : conclusion view name reply (.finished (.error (.index error)))
              = .error (.index { error with package := some name }) := by
            rw [← htold]
            rfl
          rw [hconclusion]
          exact .failure error huntold
      | _ => exact .fault _ fun error herror => by cases herror

end Work

/-- What a fetch has ended with, if it has. -/
theorem Sound.exists_fetchEnd (h : Sound ledger s none) {spelling : String}
    (hfetch : s.errandOf fetch = some (.fetch spelling)) (hended : s.hasEnded fetch = true) :
    ∃ past request outcome, s.resultOf fetch = .finished outcome ∧
      Work.FetchEnd past request s.state outcome := by
  obtain ⟨t, ht, herrand⟩ := (Scheduler.errandOf_eq_some_iff _).mp hfetch
  have hresult := Scheduler.resultOf_of_getElem? s ht
  rw [Scheduler.hasEnded_iff, hresult] at hended
  obtain ⟨-, hstage⟩ := (h.tasks.task fetch t ht (by simp)).fetchStage herrand
  cases hstage with
  | begun hstatus => rw [hstatus] at hended; exact absurd rfl hended
  | fetching _ hstatus => rw [hstatus] at hended; exact absurd rfl hended
  | fetched past request outcome hstatus _ hend =>
      rw [hstatus] at hresult
      exact ⟨past, request, outcome, hresult, hend⟩

/-- Who waits for a fetch that has ended is going to be told. -/
theorem Sound.told (h : Sound ledger s none) (hwaits : s.WaitsFor caller fetch call view name)
    (hended : s.hasEnded fetch = true) : .tell caller ∈ s.ready ∨ .run caller ∈ s.ready := by
  obtain ⟨t, ht, -, hstatus⟩ := hwaits
  cases h.tasks.task caller t ht (by simp) with
  | waiting _ _ _ waited _ _ hjoins _ _ hawaits =>
      obtain ⟨rfl, -⟩ := Paused.joining.inj (TaskStatus.paused.inj (hstatus.symm.trans hjoins))
      refine hawaits.resolve_left fun hwatch => ?_
      rw [h.tasks.unwatched _ hended] at hwatch
      cases hwatch
  | outside _ hother => rw [hstatus] at hother; cases hother
  | asked _ _ _ hother => rw [hstatus] at hother; cases hother
  | replied _ _ _ hother => rw [hstatus] at hother; cases hother
  | begun _ _ _ hother => rw [hstatus] at hother; cases hother
  | fetching _ _ _ _ _ _ hother => rw [hstatus] at hother; cases hother
  | fetched _ _ _ _ _ _ hother => rw [hstatus] at hother; cases hother

/-! ### Giving up -/

/-- Nothing has changed but one task and the turns that it was asked for. -/
structure TouchesOnly (s s' : ServiceRun) (id : Nat) : Prop where
  service : s'.state.service = s.state.service
  sent : s'.state.sent = s.state.sent
  received : s'.state.received = s.state.received
  tasks : ∀ other, other ≠ id → s'.tasks[other]? = s.tasks[other]?
  turns : ∀ turn ∈ s.ready, turn ≠ .run id → turn ∈ s'.ready

/-- Somebody has given up waiting for a call. -/
def ServiceRun.IsGivenUp (s : ServiceRun) (caller : Nat) : Prop :=
  ∃ t, s.tasks[caller]? = some t ∧ t.isCancelled = true

theorem touchesOnly_cancel (herrand : s.errandOf caller = some (.call call)) :
    TouchesOnly s (s.step (.cancel caller)) caller := by
  simp only [ServiceRun.step, herrand, Scheduler.requestCancel]
  split
  · exact ⟨rfl, rfl, rfl, fun _ _ => rfl, fun _ hmem _ => hmem⟩
  · split
    · exact ⟨rfl, rfl, rfl, fun _ hother => Scheduler.modifyTask_of_ne hother,
        fun _ hmem _ => List.mem_append_left _ hmem⟩
    · exact ⟨rfl, rfl, rfl, fun _ hother => Scheduler.modifyTask_of_ne hother,
        fun _ hmem _ => List.mem_append_left _ hmem⟩
    · exact ⟨rfl, rfl, rfl, fun _ hother => Scheduler.modifyTask_of_ne hother, fun _ hmem _ => hmem⟩

theorem touchesOnly_givenUp (hturn : s.ready[place]? = some (.run caller)) (hgiven : s.IsGivenUp caller) :
    TouchesOnly s (s.step (.turn place)) caller := by
  obtain ⟨t, ht, hcancelled⟩ := hgiven
  have hready : ∀ turn ∈ s.ready, turn ≠ .run caller → turn ∈ s.ready.eraseIdx place := fun turn hmem hne =>
    (List.mem_cons.mp ((ServiceRun.perm_of_getElem? hturn).mem_iff.mp hmem)).resolve_left hne
  rw [ServiceRun.step_turn hturn, Scheduler.take]
  by_cases hrunning : t.status.result = .running
  · rw [runTask_of_cancelled (s := { s with ready := s.ready.eraseIdx place }) ht hcancelled hrunning,
      Scheduler.finish_eq]
    exact ⟨rfl, rfl, rfl, fun _ hother => Scheduler.modifyTask_of_ne hother,
      fun turn hmem hne => List.mem_append_left _ (hready turn hmem hne)⟩
  · cases hstatus : t.status with
    | ended result =>
        rw [runTask_of_ended (s := { s with ready := s.ready.eraseIdx place }) ht hstatus
          (by rwa [hstatus] at hrunning)]
        exact ⟨rfl, rfl, rfl, fun _ _ => rfl, hready⟩
    | outside | fresh | paused => exact absurd (by rw [hstatus]; rfl) hrunning

theorem Sound.not_isGivenUp (h : Sound ledger s none) {spelling : String}
    (hfetch : s.errandOf fetch = some (.fetch spelling)) :
    ¬ s.IsGivenUp fetch ∧ s.resultOf fetch ≠ .cancelled := by
  obtain ⟨t, ht, herrand⟩ := (Scheduler.errandOf_eq_some_iff _).mp hfetch
  have hresult := Scheduler.resultOf_of_getElem? s ht
  obtain ⟨hkept, hstage⟩ := (h.tasks.task fetch t ht (by simp)).fetchStage herrand
  constructor
  · rintro ⟨u, hu, hcancelled⟩
    obtain rfl : t = u := by simpa [ht] using hu
    rw [hkept] at hcancelled
    cases hcancelled
  · rw [hresult]
    cases hstage with
    | begun hstatus => simp [hstatus, TaskStatus.result]
    | fetching _ hstatus => simp [hstatus, TaskStatus.result]
    | fetched _ _ _ hstatus => simp [hstatus, TaskStatus.result]

/-! ### Sharing -/

namespace ServiceRun

/-- What has become of a call that attached to a fetch for its package: it waits for the fetch, and once that one
has ended a turn for it is on the way; or both have ended, and the call got what comes of the outcome. -/
def IsServed (s : ServiceRun) (caller fetch : Nat) (call : ServiceCall) (view : Lookup) (name : String) : Prop :=
  (∃ spelling, s.errandOf fetch = some (.fetch spelling) ∧ Work.normalized spelling = Work.normalized name) ∧
    (s.WaitsFor caller fetch call view name ∧
        (s.hasEnded fetch = true → .tell caller ∈ s.ready ∨ .run caller ∈ s.ready) ∨
      ∃ outcome got, s.resultOf fetch = .finished outcome ∧ s.resultOf caller = .finished got ∧
        Work.Gets view name call.replyTo outcome got)

/-- **Sharing** of the fetches, in a state of a run and in whatever follows it. -/
structure SharesFetches (s : ServiceRun) : Prop where
  /-- At most one fetch of a package is under way. -/
  unique : ∀ key fetch other, s.IsUnderWay key fetch → s.IsUnderWay key other → fetch = other
  /-- A call that begins requests nothing. While a fetch of its package is under way it starts no other one, and
  waits for it if the cache has nothing. -/
  begins : ∀ place caller call view name, s.Begins place caller call view name →
    (s.step (.turn place)).state.sent = s.state.sent ∧
      ∀ fetch, s.IsUnderWay (Work.normalized name) fetch →
        (s.step (.turn place)).tasks.size = s.tasks.size ∧
          (s.Misses view name → ServiceRun.WaitsFor (s.step (.turn place)) caller fetch call view name)
  /-- A call that finds nothing in the cache is served by the fetch that it attaches to, whatever happens but that
  it is given up. -/
  served : ∀ place caller call view name, s.Begins place caller call view name → s.Misses view name →
    ∀ events, .cancel caller ∉ events →
      ServiceRun.IsServed (s.after (.turn place :: events)) caller (s.fetchFor name) call view name
  /-- A call that waits gets its turn once it is told, and with its turn what comes of the result. -/
  woken : ∀ place caller fetch call view name, s.WaitsFor caller fetch call view name →
    (s.ready[place]? = some (.tell caller) → .run caller ∈ (s.step (.turn place)).ready) ∧
      (s.ready[place]? = some (.run caller) →
        ServiceRun.HasConcluded (s.step (.turn place)) caller fetch call view name)
  /-- Who gives up a call touches nothing else, nor does the call in its last turn. -/
  givenUp : ∀ caller call, s.errandOf caller = some (.call call) →
    TouchesOnly s (s.step (.cancel caller)) caller ∧
      ∀ place, s.ready[place]? = some (.run caller) → s.IsGivenUp caller →
        TouchesOnly s (s.step (.turn place)) caller
  /-- Fetches are never given up. -/
  kept : ∀ fetch spelling, s.errandOf fetch = some (.fetch spelling) →
    ¬ s.IsGivenUp fetch ∧ s.resultOf fetch ≠ .cancelled
  /-- When no fetch is under way and it has been noticed that they have ended, none is listed. -/
  forgotten : (∀ key fetch, ¬ s.IsUnderWay key fetch) → (∀ fetch, .ended fetch ∉ s.ready) →
    s.state.service.inFlight = []

end ServiceRun

theorem Sound.sharesFetches (h : Sound .any s none) : s.SharesFetches where
  unique := fun key fetch other hfetch hother => h.table.unique (h.listed hfetch) (h.listed hother)
  begins := by
    intro place caller call view name hbegins
    refine ⟨hbegins.firstTurn.sent_eq, fun fetch hway => ⟨hbegins.firstTurn.size_eq (h.listed hway), ?_⟩⟩
    intro hmiss
    obtain rfl := h.fetchFor_eq hway
    refine (h.attached hbegins hmiss).1.resolve_right ?_
    rintro ⟨hended, -⟩
    rw [hway.2] at hended
    cases hended
  served := by
    intro place caller call view name hbegins hmiss events hkept
    obtain ⟨hattached, spelling, hfetch, hname⟩ := h.attached hbegins hmiss
    have hstep := h.step (.turn place) trivial
    have hlast := hstep.after events fun _ => trivial
    have hfetch := (hstep.grows_after events).errand hfetch
    rw [ServiceRun.after_cons]
    refine ⟨⟨spelling, hfetch, hname⟩, ?_⟩
    have hattached : ServiceRun.Attached (s.step (.turn place)) caller (s.fetchFor name) call view name :=
      hattached.imp_right And.right
    rcases hattached.after hstep hkept with hwaits | ⟨hended, hresult⟩
    · exact .inl ⟨hwaits, hlast.told hwaits⟩
    · obtain ⟨past, request, outcome, houtcome, hend⟩ := hlast.exists_fetchEnd hfetch hended
      rw [houtcome] at hresult
      exact .inr ⟨outcome, _, houtcome, hresult, Work.gets_conclusion hend⟩
  woken := by
    intro place caller fetch call view name hwaits
    refine ⟨fun hturn => ?_, fun hturn => hwaits.hasConcluded h hturn⟩
    rw [ServiceRun.step_turn hturn]
    exact List.mem_append_right _ List.mem_cons_self
  givenUp := fun caller call herrand =>
    ⟨touchesOnly_cancel herrand, fun place hturn hgiven => touchesOnly_givenUp hturn hgiven⟩
  kept := fun fetch spelling hfetch => h.not_isGivenUp hfetch
  forgotten := by
    intro hnone hnoticed
    refine List.eq_nil_iff_forall_not_mem.mpr ?_
    rintro ⟨key, fetch⟩ hmem
    obtain ⟨herrand, hended, -⟩ := h.table.listed key fetch hmem
    refine hnone key fetch ⟨herrand, ?_⟩
    exact Bool.eq_false_iff.mpr fun hnow => hnoticed fetch (hended hnow)

/-- **Fetches are shared** in every run of calls among one another, whatever they ask for, in whatever order they
get their turns, answers come, calls are given up and settings change. -/
theorem ServiceRun.sharesFetches_after {world : World} (hfetch : world.service.inFlight = [])
    (hcache : world.service.cache.entries = []) (events : List ServiceEvent) :
    (ServiceRun.after { state := world } events).SharesFetches :=
  ((sound_start hfetch hcache trivial (Nat.zero_le _) (Nat.zero_le _)).after events fun _ =>
    trivial).sharesFetches

/-- A call for a package that is being fetched under another spelling waits for that fetch. -/
theorem ServiceRun.sharesFetches_after_spelling :
    let s := (ServiceRun.opening (.sequence [])).after
      [.call (.info "Flask"), .call (.metadata "flask" none), .turn 0]
    s.IsUnderWay "flask" 3 ∧
      ServiceRun.WaitsFor (s.step (.turn 0)) 2 3 (.metadata "flask" none) (.metadata false) "flask" := by
  intro s
  have hshares : s.SharesFetches :=
    @ServiceRun.sharesFetches_after (ServiceRun.opening (.sequence [])).state rfl rfl _
  have hway : s.IsUnderWay "flask" 3 := ⟨⟨"Flask", rfl, rfl⟩, rfl⟩
  have hbegins : s.Begins 0 2 (.metadata "flask" none) (.metadata false) "flask" :=
    ⟨rfl, ⟨_, rfl, rfl, rfl⟩, rfl⟩
  exact ⟨hway, ((hshares.begins _ _ _ _ _ hbegins).2 3 hway).2 rfl⟩

end ManifestLens
