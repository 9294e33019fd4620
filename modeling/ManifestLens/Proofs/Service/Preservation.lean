import Mathlib.Data.List.Perm.Basic
import ManifestLens.Proofs.Service.Turns

/-!
# The invariant is kept

One lemma for each change that an event can come to, and the run of any events from them by induction. All
that is left to the surroundings is to which indexes the service is pointed.
-/

namespace ManifestLens

variable {ledger : Ledger} {s s' : ServiceRun} {running : Option Nat} {id fetch : Nat}
  {t : TaskState World Errand Outcome} {view : Lookup} {name : String} {call : ServiceCall}

/-! ### What a call does to the world -/

theorem Sound.looked (h : Sound ledger s running) (view : Lookup) (name : String) :
    Sound ledger (s.looked view name) running := by
  refine h.withState ?_ ?_ ?_ ?_
  · exact ServiceRun.inFlight_looked
  · exact .of_eq (World.cached_received ..)
  · rw [World.cached_service]
    exact h.world.base
  · rw [World.cached_service]
    exact h.world.cache.get _ _

theorem Work.told_eq_ok_iff {result : TaskResult Outcome} {document : List (String × Json)} :
    told name result = .ok document ↔ result = .finished (.ok (.document document)) := by
  cases result with
  | running | cancelled => simp [told]
  | finished outcome =>
      cases outcome with
      | error fault => simp [told]
      | ok reply => cases reply <;> simp [told]

/-- The document of a fetch is one that may be had. -/
theorem Sound.has (h : Sound ledger s (some id)) (hother : fetch ≠ id)
    (hfetch : ∃ spelling, s.errandOf fetch = some (.fetch spelling) ∧
      Work.normalized spelling = Work.normalized name)
    (hlive : ledger.old fetch → ledger.live fetch) {document : List (String × Json)}
    (hresult : s.resultOf fetch = .finished (.ok (.document document))) : ledger.Has s name document := by
  obtain ⟨spelling, hspelling, hname⟩ := hfetch
  obtain ⟨u, hu, herrand⟩ := (Scheduler.errandOf_eq_some_iff _).mp hspelling
  have hended : u.status.result = .finished (.ok (.document document)) := by
    rw [← hresult, Scheduler.resultOf_of_getElem? _ hu]
  obtain ⟨-, hstage⟩ := (h.tasks.task fetch u hu (by simpa using Ne.symm hother)).fetchStage herrand
  cases hstage with
  | begun hstatus => rw [hstatus] at hended; cases hended
  | fetching _ hstatus => rw [hstatus] at hended; cases hended
  | fetched past request outcome hstatus hallowed hend =>
      rw [hstatus] at hended
      cases hended
      obtain ⟨answer, hnoted, hcarries⟩ := hend
      rcases hallowed with hold | ⟨rfl, base, hbase, hurl⟩
      · exact .inr ⟨spelling, fetch, hname, hlive hold, hspelling, hresult⟩
      · exact .inl ⟨spelling, base, request, answer, hname, hbase, hurl, hnoted, hcarries⟩

theorem Work.kept_service (view : Lookup) (name : String) (result : TaskResult Outcome) (now : Binary64)
    (world : World) : ∃ cache, (kept view name result now world).service = { world.service with cache } ∧
      (kept view name result now world).received = world.received ∧
        (kept view name result now world).sent = world.sent := by
  unfold kept
  cases (told name result).bind (derive view name) with
  | ok found => exact ⟨_, World.store_service _ _ _ _ _, rfl, rfl⟩
  | error fault => exact ⟨_, rfl, rfl, rfl⟩

theorem Work.every_kept {P : String → CachedView → Number → Number → Prop} {world : World} {now : Binary64}
    {result : TaskResult Outcome} (h : world.service.cache.Every P)
    (hnew : ∀ document found birth ttl, result = .finished (.ok (.document document)) →
      derive view name document = .ok found → P (cacheKey view name) found birth ttl) :
    (kept view name result now world).service.cache.Every P := by
  unfold kept
  cases htold : told name result with
  | error fault => exact h
  | ok document =>
      simp only [Except.bind]
      cases hderive : derive view name document with
      | error fault => exact h
      | ok found => exact h.set (hnew document found _ _ (told_eq_ok_iff.mp htold) hderive)

/-! ### A turn of a task -/

/-- A task that has ended is as sound after its turn as before. -/
theorem Sound.rest (h : Sound ledger s (some id)) (ht : s.tasks[id]? = some t) (hbegun : HasBegun t)
    (hsound : TaskSound ledger s id t) : Sound ledger s none := by
  refine ⟨⟨h.tasks.size, h.tasks.outside, h.tasks.since, ?_, ?_, h.tasks.timer, h.tasks.timers,
    h.tasks.turn, h.tasks.watcher, h.tasks.unwatched⟩, h.world, h.table⟩
  · intro other u hu _
    by_cases hother : other = id
    · subst hother
      obtain rfl : t = u := by simpa [ht] using hu
      exact hsound
    · exact h.tasks.task other u hu (by simpa using Ne.symm hother)
  · intro other u description hu hfresh _
    by_cases hother : other = id
    · subst hother
      obtain rfl : t = u := by simpa [ht] using hu
      exact absurd hfresh (hbegun description)
    · exact h.tasks.fresh other u description hu hfresh (by simpa using Ne.symm hother)

/-- A task ends. -/
theorem Sound.finish (h : Sound ledger s (some id)) (ht : s.tasks[id]? = some t) (hid : id ≠ 0)
    (hrunning : t.status.result = .running) {result : TaskResult Outcome} (hresult : result ≠ .running)
    (hsound : TaskSound ledger s id { t with status := .ended result, watchers := [] }) :
    Sound ledger (s.finish id result) none := by
  refine h.hadTurn (hadTurn_finish ht (h.tasks.timer id t ht) hresult) ht hid ?_ hsound
  rw [Scheduler.hasEnded_eq_false_iff, Scheduler.resultOf_of_getElem? _ ht, hrunning]

theorem ne_fetch {spelling : String} (ht : s.tasks[id]? = some t) (herrand : t.errand = some (.call call))
    (hfetch : s.errandOf fetch = some (.fetch spelling)) : id ≠ fetch := by
  rintro rfl
  obtain ⟨u, hu, hfetching⟩ := (Scheduler.errandOf_eq_some_iff _).mp hfetch
  obtain rfl : t = u := by simpa [ht] using hu
  rw [herrand] at hfetching
  cases hfetching

/-- A call ends with what it comes to with the result of its fetch. -/
theorem Sound.concluded (h : Sound ledger s (some id)) (ht : s.tasks[id]? = some t) (hid : id ≠ 0)
    (herrand : t.errand = some (.call call)) (hrunning : t.status.result = .running)
    (hsought : ∃ preferred, call.sought? preferred = some (view, name))
    (hfetch : ∃ spelling, s.errandOf fetch = some (.fetch spelling) ∧
      Work.normalized spelling = Work.normalized name)
    (hlive : ledger.old fetch → ledger.live fetch) :
    Sound ledger (({ s with state := Work.kept view name (s.resultOf fetch) s.now s.state } : ServiceRun).finish
      id (.finished (Work.conclusion view name call.replyTo (s.resultOf fetch)))) none := by
  have hother : id ≠ fetch := by
    obtain ⟨spelling, hspelling, -⟩ := hfetch
    exact ne_fetch ht herrand hspelling
  have hhas : ∀ document, s.resultOf fetch = .finished (.ok (.document document)) →
      ledger.Has s name document := fun document => h.has hother.symm hfetch hlive
  obtain ⟨cache, hservice, hreceived, -⟩ := Work.kept_service view name (s.resultOf fetch) s.now s.state
  have hnotes : s.state.Notes (Work.kept view name (s.resultOf fetch) s.now s.state) :=
    .of_eq hreceived
  have hworld := h.withState (by rw [hservice]) hnotes (by rw [hservice]; exact h.world.base)
    (Work.every_kept h.world.cache fun document found _ _ hresult hderive =>
      ⟨view, name, document, rfl, hderive, hhas document hresult⟩)
  refine hworld.finish ht hid hrunning (by simp) (.replied call _ herrand rfl (by simp) ?_)
  intro _ reply hreply
  obtain ⟨preferred, hsought⟩ := hsought
  unfold Work.conclusion at hreply
  cases htold : Work.told name (s.resultOf fetch) with
  | error fault =>
      rw [htold] at hreply
      cases hreply
  | ok document =>
      rw [htold] at hreply
      simp only [Except.bind] at hreply
      cases hderive : Work.derive view name document with
      | error fault =>
          rw [hderive] at hreply
          cases hreply
      | ok found =>
          rw [hderive] at hreply
          exact ⟨preferred, view, name, name, found, document, hsought, rfl, hderive,
            TaskResult.finished.inj hreply,
            (grows_withState hnotes).has (hhas document (Work.told_eq_ok_iff.mp htold))⟩

/-- The call attaches to a fetch that has not ended. -/
theorem Sound.joins (h : Sound ledger s (some id)) (ht : s.tasks[id]? = some t) (hid : id ≠ 0)
    (herrand : t.errand = some (.call call)) (hrunning : t.status.result = .running) (hunheard : Unheard s id)
    (hsought : ∃ preferred, call.sought? preferred = some (view, name))
    (hfetch : ∃ spelling, s.errandOf fetch = some (.fetch spelling) ∧
      Work.normalized spelling = Work.normalized name)
    (hlive : ledger.old fetch → ledger.live fetch) (hgoing : s.hasEnded fetch = false) :
    Sound ledger (ManifestLens.joining s id fetch (Work.conclude view name call.replyTo)) none := by
  obtain ⟨spelling, hspelling, hname⟩ := hfetch
  obtain ⟨u, hu, -⟩ := (Scheduler.errandOf_eq_some_iff _).mp hspelling
  refine h.joining ht hid ?_ hunheard hu hgoing (ne_fetch ht herrand hspelling) fun hawaits => ?_
  · rw [Scheduler.hasEnded_eq_false_iff, Scheduler.resultOf_of_getElem? _ ht, hrunning]
  · exact .waiting call view name fetch herrand hsought rfl
      ⟨spelling, (errandOf_joining fetch).trans hspelling, hname⟩ hlive hawaits

/-- After the first turn of a call everything is sound. -/
theorem FirstTurn.sound (hturn : FirstTurn s id call view name s') (h : Sound ledger s (some id))
    (ht : s.tasks[id]? = some t) (hid : id ≠ 0) (herrand : t.errand = some (.call call))
    (hrunning : t.status.result = .running) (hunheard : Unheard s id)
    (hsought : call.sought? s.state.service.includePre = some (view, name)) : Sound ledger s' none := by
  cases hturn with
  | hit found hfound =>
      refine (h.looked view name).finish ht hid hrunning (by simp)
        (.replied call _ herrand rfl (by simp) fun _ reply hreply => ?_)
      obtain ⟨entry, hentry, hdata⟩ : ∃ entry,
          s.state.service.cache.entry? (Work.cacheKey view name) = some entry ∧ entry.data = found :=
        Cache.exists_entry_of_get hfound
      obtain ⟨other, spelling, document, hkey, hderive, hhas⟩ :=
        h.world.cache _ entry (Cache.mem_entries_of_entry hentry)
      obtain ⟨rfl, hname⟩ := Work.cacheKey_inj hkey
      refine ⟨_, view, name, spelling, found, document, hsought, hname.symm, hdata ▸ hderive,
        TaskResult.finished.inj hreply, ?_⟩
      exact (grows_withState (.of_eq (World.cached_received ..))).has hhas
  | late hlisted =>
      have hknown := h.table.listed _ _ hlisted
      exact (h.looked view name).concluded ht hid herrand hrunning ⟨_, hsought⟩ hknown.errand hknown.live
  | joins hlisted hgoing =>
      have hknown := h.table.listed _ _ hlisted
      exact (h.looked view name).joins ht hid herrand hrunning ⟨hunheard.run, hunheard.tell, hunheard.watcher⟩
        ⟨_, hsought⟩ hknown.errand hknown.live hgoing
  | starts hfree =>
      have hfetch : Sound ledger (entering (s.looked view name) (.fetch name)
          (Work.enlist (Work.normalized name) s.tasks.size (s.looked view name).state)) (some id) :=
        (h.looked view name).fetch (by rwa [ServiceRun.inFlight_looked])
      have hnew : id ≠ s.tasks.size := Scheduler.ne_size_of_getElem? ht
      refine hfetch.joins (Scheduler.enter_of_getElem? ht) hid herrand hrunning ⟨?_, ?_, ?_⟩
        ⟨_, hsought⟩ ⟨name, ?_, rfl⟩ (fun hold => absurd (ledger.old_lt _ hold) (Nat.not_lt.mpr h.tasks.since)) ?_
      · intro hmem
        rcases List.mem_append.mp hmem with hmem | hmem
        · exact hunheard.run hmem
        · exact hnew (Turn.run.inj (List.mem_singleton.mp hmem))
      · intro hmem
        rcases List.mem_append.mp hmem with hmem | hmem
        · exact hunheard.tell hmem
        · cases List.mem_singleton.mp hmem
      · intro fetch hmem
        rw [watchersOf_entering] at hmem
        exact hunheard.watcher fetch hmem
      · rw [errandOf_entering]
        exact if_pos rfl
      · rw [hasEnded_entering, Scheduler.hasEnded_eq_false_iff]
        exact Scheduler.resultOf_of_none _ (by simp [ServiceRun.looked])

/-- **After a turn of a task** everything is sound. -/
theorem TaskTurn.sound (hturn : TaskTurn ledger s id t s') (h : Sound ledger s (some id))
    (ht : s.tasks[id]? = some t) (hid : id ≠ 0)
    (hunheard : ∀ description, t.status = .fresh description → Unheard s id) : Sound ledger s' none := by
  cases hturn with
  | ended hended hsound =>
      refine h.rest ht (fun description hstatus => hended ?_) hsound
      rw [hstatus]
      rfl
  | fetch spelling world t' asked _ _ hrunning hasks hturn hsound =>
      have hworld : Sound ledger { s with state := world } (some id) :=
        h.withState hasks.inFlight hasks.received (hasks.baseUrl ▸ h.world.base) (hasks.cache ▸ h.world.cache)
      refine hworld.hadTurn hturn ht hid ?_ hsound
      rw [Scheduler.hasEnded_eq_false_iff]
      exact (Scheduler.resultOf_of_getElem? _ ht).trans hrunning
  | givenUp call herrand hrunning =>
      have hsettled : Sound ledger { s with state := s.state.settle id } (some id) :=
        h.withState rfl (.refl _) h.world.base h.world.cache
      exact hsettled.finish ht hid hrunning (by simp)
        (.replied call .cancelled herrand rfl (by simp) fun _ reply hreply => by cases hreply)
  | first call view name herrand hstatus _ hsought hfirst =>
      exact hfirst.sound h ht hid herrand (by rw [hstatus]; rfl) (hunheard _ hstatus) hsought
  | concludes call view name fetch herrand hsought hstatus _ hfetch hlive =>
      exact h.concluded ht hid herrand (by rw [hstatus]; rfl) hsought hfetch hlive

/-! ### Events -/

theorem ServiceRun.step_turn {place : Nat} {turn : Turn} (h : s.ready[place]? = some turn) :
    s.step (.turn place)
      = Scheduler.take Work.program { s with ready := s.ready.eraseIdx place } turn := by
  simp only [step, h]

theorem ServiceRun.perm_of_getElem? {place : Nat} {turn : Turn} (h : s.ready[place]? = some turn) :
    s.ready.Perm (turn :: s.ready.eraseIdx place) := by
  obtain ⟨hlt, rfl⟩ := List.getElem?_eq_some_iff.mp h
  exact (List.getElem_cons_eraseIdx_perm hlt).symm

theorem Sound.turn (h : Sound ledger s none) (place : Nat) : Sound ledger (s.step (.turn place)) none := by
  cases hplace : s.ready[place]? with
  | none => simpa only [ServiceRun.step, hplace] using h
  | some turn =>
      have hperm := ServiceRun.perm_of_getElem? hplace
      rw [ServiceRun.step_turn hplace]
      cases turn with
      | run id =>
          obtain ⟨hrunning, t, ht, hid, hmay, -, hunheard⟩ := h.run hperm
          exact (h.taskTurn _ ht hid hmay).sound hrunning ht hid hunheard
      | tell id => exact h.tell hperm
      | ended id => exact h.ended hperm
      | settle child watcher => exact (h.tasks.turn _ (List.mem_of_getElem? hplace)).elim

theorem Sound.ne_outside (h : Sound ledger s none) {errand : Errand} (herrand : s.errandOf id = some errand) :
    id ≠ 0 := by
  rintro rfl
  rw [h.tasks.outside] at herrand
  cases herrand

theorem Sound.not_joining (h : Sound ledger s none) {spelling : String} (ht : s.tasks[id]? = some t)
    (herrand : t.errand = some (.fetch spelling)) (other : Nat) (next : TaskResult Outcome → Work Outcome) :
    t.status ≠ .paused (.joining other next) := by
  obtain ⟨-, hstage⟩ := (h.tasks.task id t ht (by simp)).fetchStage herrand
  cases hstage with
  | begun hstatus => rw [hstatus]; simp
  | fetching _ hstatus => rw [hstatus]; simp
  | fetched _ _ _ hstatus => rw [hstatus]; simp

/-- A sign to a fetch that has begun. -/
theorem Sound.wake (h : Sound ledger s none) (hsleeps : Sleeps s id) :
    Sound ledger ((s.modifyTask id fun t => { t with timer := none }).ask (.run id)) none := by
  obtain ⟨⟨spelling, herrand⟩, t, ht, hbegun⟩ := hsleeps
  obtain ⟨u, hu, hfetching⟩ := (Scheduler.errandOf_eq_some_iff _).mp herrand
  obtain rfl : t = u := by simpa [ht] using hu
  have hsign : IsSign t fun t => { t with timer := none } :=
    ⟨fun _ => rfl, fun _ => rfl, fun _ => rfl, fun _ => rfl, .inl fun _ => rfl⟩
  refine h.signed hsign ht (h.ne_outside herrand) (.inr ⟨rfl, hbegun, ?_⟩)
  exact fun other next hjoins => absurd hjoins (h.not_joining ht hfetching other next)

theorem Sound.alarm (h : Sound ledger s none) (id : Nat) : Sound ledger (s.step (.alarm id)) none := by
  cases htimer : s.tasks[id]?.bind TaskState.timer with
  | none => simpa only [ServiceRun.step, htimer] using h
  | some serial =>
      obtain ⟨t, ht, hset⟩ := Option.bind_eq_some_iff.mp htimer
      obtain ⟨⟨spelling, herrand⟩, hbegun⟩ := h.tasks.timer id t ht (by rw [hset]; rfl)
      have hsleeps : Sleeps s id :=
        ⟨⟨spelling, (Scheduler.errandOf_eq_some_iff _).mpr ⟨t, ht, herrand⟩⟩, t, ht, hbegun⟩
      simpa only [ServiceRun.step, htimer] using h.wake hsleeps

/-- Timers that are taken out of the heap, and another time on the clock. -/
theorem Sound.withTimers (h : Sound ledger s none) {timers : TimerHeap} (now : Binary64)
    (hsub : ∀ timer ∈ timers.timers, timer ∈ s.timers.timers) :
    Sound ledger { s with timers, now } none := by
  refine ⟨⟨h.tasks.size, h.tasks.outside, h.tasks.since, ?_, h.tasks.fresh, h.tasks.timer,
    fun timer hmem => h.tasks.timers timer (hsub timer hmem), h.tasks.turn, h.tasks.watcher,
    h.tasks.unwatched⟩, ⟨h.world.base, h.world.past, h.world.cache⟩,
    ⟨h.table.keys, ?_, h.table.complete⟩⟩
  · have hgrows : Grows s { s with timers, now } := ⟨fun h => h, fun _ => rfl, .refl _⟩
    exact fun id t ht hid => hgrows.taskSound (h.tasks.task id t ht hid) rfl rfl (.inl rfl) fun _ h => h
  · exact fun key fetch hmem => ⟨(h.table.listed key fetch hmem).errand, (h.table.listed key fetch hmem).ended,
      (h.table.listed key fetch hmem).live⟩

theorem Sound.dropCancelled (h : Sound ledger s none) (fuel : Nat) :
    Sound ledger (Scheduler.dropCancelled fuel s) none := by
  induction fuel generalizing s with
  | zero => exact h
  | succ fuel ih =>
      rw [Scheduler.dropCancelled]
      split
      · split
        · exact ih (h.withTimers s.now fun _ => TimerHeap.mem_of_mem_dropFirst)
        · exact h
      · exact h

theorem Sound.fireDue (h : Sound ledger s none) (fuel : Nat) (limit : Binary64) :
    Sound ledger (Scheduler.fireDue fuel limit s) none := by
  induction fuel generalizing s with
  | zero => exact h
  | succ fuel ih =>
      rw [Scheduler.fireDue]
      split
      · next timer hfirst =>
        split
        · have hdropped : Sound ledger { s with timers := s.timers.dropFirst } none :=
            h.withTimers s.now fun _ => TimerHeap.mem_of_mem_dropFirst
          refine ih ?_
          split
          · exact hdropped
          · obtain ⟨hfetch, hbegun⟩ := h.tasks.timers timer (TimerHeap.mem_of_first? hfirst)
            exact hdropped.wake ⟨hfetch, hbegun⟩
        · exact h
      · exact h

theorem Sound.jump (h : Sound ledger s none) : Sound ledger (s.step .jump) none := by
  have hdropped := h.dropCancelled s.timers.timers.size
  simp only [ServiceRun.step, Scheduler.jump?]
  cases hfirst : (Scheduler.dropCancelled s.timers.timers.size s).timers.first? with
  | none => exact h
  | some timer => exact (hdropped.withTimers _ fun _ hmem => hmem).fireDue _ _

theorem Sound.timer_eq_none (h : Sound ledger s none) (ht : s.tasks[id]? = some t)
    (herrand : t.errand = some (.call call)) : t.timer = none := by
  cases htimer : t.timer with
  | none => rfl
  | some serial =>
      obtain ⟨⟨spelling, hfetching⟩, -⟩ := h.tasks.timer id t ht (by rw [htimer]; rfl)
      rw [herrand] at hfetching
      cases hfetching

/-- Who gives up waiting for a call gets a turn for it just if the call waits for a fetch. -/
theorem Sound.requestCancel_eq (h : Sound ledger s none) (ht : s.tasks[id]? = some t)
    (herrand : t.errand = some (.call call)) (hrunning : t.status.result = .running) :
    ∃ asked, s.requestCancel id = { s.modifyTask id (fun t => { t with isCancelled := true, timer := none }) with
        ready := s.ready ++ asked } ∧ (asked = [] ∨ asked = [.run id] ∧ HasBegun t) := by
  have htimer := h.timer_eq_none ht herrand
  have hgoing : s.hasEnded id = false := by
    rw [Scheduler.hasEnded_eq_false_iff, Scheduler.resultOf_of_getElem? _ ht, hrunning]
  obtain ⟨status, errand, isCancelled, timer, watchers, group, failed⟩ := t
  obtain rfl : timer = none := htimer
  simp only [Scheduler.requestCancel, hgoing, Bool.false_eq_true, if_false, ht]
  cases status with
  | paused paused =>
      cases paused with
      | joining other next => exact ⟨[.run id], rfl, .inr ⟨rfl, .of_paused rfl⟩⟩
      | plain | gathering => exact ⟨[], by rw [List.append_nil]; rfl, .inl rfl⟩
  | outside | fresh | ended => exact ⟨[], by rw [List.append_nil]; rfl, .inl rfl⟩

theorem ServiceRun.requestCancel_of_ended (h : s.hasEnded id = true) : s.requestCancel id = s := by
  simp only [Scheduler.requestCancel, h, if_true]

theorem Sound.cancel (h : Sound ledger s none) (id : Nat) : Sound ledger (s.step (.cancel id)) none := by
  simp only [ServiceRun.step]
  split
  · next call herrand =>
    cases hended : s.hasEnded id with
    | true =>
        rw [ServiceRun.requestCancel_of_ended hended]
        exact h
    | false =>
        obtain ⟨t, ht, hcall⟩ := (Scheduler.errandOf_eq_some_iff _).mp herrand
        rw [Scheduler.hasEnded_eq_false_iff, Scheduler.resultOf_of_getElem? _ ht] at hended
        obtain ⟨asked, hcancelled, hasked⟩ := h.requestCancel_eq ht hcall hended
        rw [hcancelled]
        have hsign : IsSign t fun t => { t with isCancelled := true, timer := none } :=
          ⟨fun _ => rfl, fun _ => rfl, fun _ => rfl, fun _ => rfl, .inr ⟨⟨call, hcall⟩, fun _ => rfl⟩⟩
        refine h.signed hsign ht (h.ne_outside herrand) (hasked.imp_right fun hturn => ⟨hturn.1, hturn.2, ?_⟩)
        exact fun _ _ _ => .inl rfl
  · exact h

theorem Sound.manage (h : Sound ledger s none) (call : ServiceCall)
    (hbase : ledger.bases (s.step (.manage call)).state.service.client.baseUrl) :
    Sound ledger (s.step (.manage call)) none := by
  simp only [ServiceRun.step] at hbase ⊢
  split at hbase
  · next hmanages =>
    rw [if_pos hmanages]
    obtain ⟨world, hadvance, hmanaged⟩ := s.exists_managed hmanages
    rw [hadvance] at hbase ⊢
    exact h.withState hmanaged.inFlight (.of_eq hmanaged.received) hbase
      (h.world.cache.of_subset hmanaged.entries)
  · next hother =>
    rw [if_neg hother]
    exact h

/-- **One event** keeps everything sound, as long as the service points to an index that is allowed. -/
theorem Sound.step (h : Sound ledger s none) (event : ServiceEvent)
    (hbase : ledger.bases (s.step event).state.service.client.baseUrl) : Sound ledger (s.step event) none := by
  cases event with
  | call call =>
      simp only [ServiceRun.step]
      split
      · next hlookup => exact h.call hlookup
      · exact h
  | turn place => exact h.turn place
  | alarm id => exact h.alarm id
  | jump => exact h.jump
  | cancel id => exact h.cancel id
  | manage call => exact h.manage call hbase
  | clock now => exact h.withTimers now fun _ hmem => hmem
  | index script today => exact h.withState rfl (.refl _) h.world.base h.world.cache

/-- **Any events** keep everything sound, as long as the service only points to indexes that are allowed. -/
theorem Sound.after (h : Sound ledger s none) (events : List ServiceEvent)
    (hbase : ∀ count, ledger.bases (s.after (events.take count)).state.service.client.baseUrl) :
    Sound ledger (s.after events) none := by
  induction events generalizing s with
  | nil => exact h
  | cons event events ih => exact ih (h.step event (hbase 1)) fun count => hbase (count + 1)

/-- A service at which nobody is at work, with nothing cached, is sound. -/
theorem sound_start {world : World} (hfetch : world.service.inFlight = [])
    (hcache : world.service.cache.entries = []) (hbase : ledger.bases world.service.client.baseUrl)
    (hpast : ledger.past ≤ world.received.length) (hsince : ledger.since ≤ 1) :
    Sound ledger ({ state := world } : ServiceRun) none := by
  have htask : ∀ (id : Nat) (t : TaskState World Errand Outcome),
      ({ state := world } : ServiceRun).tasks[id]? = some t → id = 0 ∧ t = { status := .outside } := by
    intro id t ht
    cases id with
    | zero => exact ⟨rfl, (Option.some.inj ht).symm⟩
    | succ id => simp at ht
  have herrand : ∀ id, ({ state := world } : ServiceRun).errandOf id = none := by
    intro id
    cases id <;> rfl
  have hended : ∀ id, ({ state := world } : ServiceRun).hasEnded id = false := by
    intro id
    cases id <;> rfl
  have hwatchers : ∀ id, ({ state := world } : ServiceRun).watchersOf id = [] := by
    intro id
    cases id <;> rfl
  refine ⟨⟨Nat.one_pos, herrand 0, hsince, ?task, ?fresh, ?timer, ?timers, ?turn, ?watcher, ?unwatched⟩,
    ⟨hbase, hpast, ?cache⟩, ⟨?keys, ?listed, ?complete⟩⟩
  case task =>
    intro id t ht _
    obtain ⟨rfl, rfl⟩ := htask id t ht
    exact .outside rfl rfl rfl
  case fresh =>
    intro id t description ht hfresh _
    obtain ⟨rfl, rfl⟩ := htask id t ht
    cases hfresh
  case timer =>
    intro id t ht hset
    obtain ⟨rfl, rfl⟩ := htask id t ht
    cases hset
  case timers =>
    exact fun timer hmem => absurd hmem (Array.not_mem_empty _)
  case turn =>
    exact fun turn hmem => absurd hmem List.not_mem_nil
  case watcher =>
    exact fun fetch watcher hmem => absurd (hwatchers fetch ▸ hmem) List.not_mem_nil
  case unwatched =>
    exact fun id _ => hwatchers id
  case cache =>
    exact fun key entry hmem => absurd (hcache ▸ hmem) List.not_mem_nil
  case keys =>
    rw [hfetch]
    exact List.nodup_nil
  case listed =>
    exact fun key fetch hmem => absurd (hfetch ▸ hmem) List.not_mem_nil
  case complete =>
    intro fetch spelling hknown _
    rw [herrand] at hknown
    cases hknown

end ManifestLens
