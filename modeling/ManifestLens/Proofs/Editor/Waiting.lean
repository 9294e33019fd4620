import ManifestLens.Proofs.Editor.Gathering

/-!
# Waiting for a shared fetch

The lookups of a hover for which the cache has nothing wait for one fetch. While it goes through its requests the
hover learns of the views that were there at once. When it has ended, the lookups that wait are told, draw their
conclusions one after another and end.
-/

namespace ManifestLens

/-- Nothing has happened but that the hover has learnt of news. -/
structure ToldOnly (s s' : ServiceRun) : Prop where
  now : s'.now = s.now
  timers : s'.timers = s.timers
  timerCount : s'.timerCount = s.timerCount
  cancelledTimers : s'.cancelledTimers = s.cancelledTimers
  tasks : ∀ task, task ≠ 0 → s'.tasks[task]? = s.tasks[task]?
  notes : s.state.Notes s'.state

/-- Some lookups of the hover wait for a fetch, and of those that have ended it learns only of views. -/
structure Fetching (first : Nat) (name : String) (s : ServiceRun) (fetch : Nat) (waiting : List (Nat × Lookup))
    (untold : List Nat) : Prop where
  gathering : Gathering first s waiting untold
  waiting_ne : waiting ≠ []
  lookups : ∀ l ∈ waiting, s.tasks[l.1]? = some (waitingLookup name fetch l.2)
  told : ∀ task ∈ untold, ∃ reply, s.resultOf task = .finished (.ok reply)
  outside : fetch ≠ 0
  apart : ∀ l ∈ hoverLookups first, l.1 ≠ fetch

namespace Fetching

variable {first fetch : Nat} {name : String} {s s' : ServiceRun} {waiting : List (Nat × Lookup)}
  {untold : List Nat}

/-- Only the tasks of the hover and of its lookups count. -/
theorem of_tasks (h : Fetching first name s fetch waiting untold)
    (hkept : ∀ task, task ≠ fetch → s'.tasks[task]? = s.tasks[task]?) :
    Fetching first name s' fetch waiting untold := by
  have hlookup : ∀ l ∈ hoverLookups first, s'.tasks[l.1]? = s.tasks[l.1]? := fun l hl => hkept _ (h.apart l hl)
  refine ⟨h.gathering.of_tasks (hkept 0 h.outside.symm) hlookup, h.waiting_ne, fun l hl => ?_, fun task htask => ?_,
    h.outside, h.apart⟩
  · exact (hlookup l (h.gathering.pending l hl).1).trans (h.lookups l hl)
  · obtain ⟨view, hview⟩ := h.gathering.known task htask
    rw [Scheduler.resultOf_congr (hlookup _ hview)]
    exact h.told task htask

/-- The hover has learnt of all that there was to learn of. -/
theorem of_toldOnly (h : Fetching first name s fetch waiting untold) (htold : ToldOnly s s')
    (hnews : Gathering first s' waiting []) : Fetching first name s' fetch waiting [] where
  gathering := hnews
  waiting_ne := h.waiting_ne
  lookups := fun l hl =>
    (htold.tasks _ (h.gathering.ne_zero (h.gathering.pending l hl).1)).trans (h.lookups l hl)
  told := nofun
  outside := h.outside
  apart := h.apart

end Fetching

/-- The lookups wait for a fetch that nobody has cancelled, and nothing else is set for later. -/
structure FetchGoing (s : ServiceRun) (fetch : Nat) (waiting : List (Nat × Lookup))
    (t : TaskState World Errand Outcome) : Prop where
  task : s.tasks[fetch]? = some t
  kept : t.isCancelled = false
  watchers : t.watchers = waiting.map fun l => .waiter l.1
  timers : s.timers = {}
  serials : ∀ serial ∈ s.cancelledTimers, serial < s.timerCount

theorem FetchGoing.of_toldOnly {fetch : Nat} {s s' : ServiceRun} {waiting : List (Nat × Lookup)}
    {t : TaskState World Errand Outcome} (h : FetchGoing s fetch waiting t) (hfetch : fetch ≠ 0)
    (htold : ToldOnly s s') : FetchGoing s' fetch waiting t where
  task := (htold.tasks fetch hfetch).trans h.task
  kept := h.kept
  watchers := h.watchers
  timers := htold.timers.trans h.timers
  serials := by
    rw [htold.cancelledTimers, htold.timerCount]
    exact h.serials

namespace ServiceRun

variable {first fetch : Nat} {name : String} {s : ServiceRun} {going waiting : List (Nat × Lookup)}
  {untold : List Nat} {t : TaskState World Errand Outcome} {next : Work Outcome}

/-! ### News -/

theorem leadsToViews_of_first_news {more : List Turn} {later : List Nat}
    (hready : s.ready = untold.flatMap turnsAfter ++ more) (h : Gathering first s going (untold ++ later))
    (hgoing : going ≠ []) (htold : ∀ task ∈ untold, ∃ reply, s.resultOf task = .finished (.ok reply))
    (hmore : ∀ s', s'.ready = more → ToldOnly s s' → Gathering first s' going later → LeadsToViews first s') :
    LeadsToViews first s := by
  induction untold generalizing s with
  | nil => exact hmore s hready ⟨rfl, rfl, rfl, rfl, fun _ _ => rfl, .refl _⟩ h
  | cons task rest ih =>
      refine .of_turnsAfter (show s.ready = turnsAfter task ++ (rest.flatMap turnsAfter ++ more) by
        rw [hready, List.flatMap_cons, List.append_assoc]) fun world hnotes => ?_
      obtain ⟨reply, hreply⟩ := htold task (List.mem_cons_self ..)
      have hrest : Gathering first { s with ready := rest.flatMap turnsAfter ++ more, state := world } going
          (task :: (rest ++ later)) := h.of_tasks rfl fun _ _ => rfl
      obtain ⟨hsettled, f, hsettle⟩ := hrest.settle (.inl hgoing) hreply
      refine ih ((congrArg Scheduler.ready hsettle).trans rfl) hsettled (fun other hother => ?_)
        fun s' hs' htoldOnly => hmore s' hs' ?_
      · obtain ⟨view, hview⟩ := h.known other (List.mem_append_left _ (List.mem_cons_of_mem _ hother))
        obtain ⟨reply, hreply⟩ := htold other (List.mem_cons_of_mem _ hother)
        exact ⟨reply, (congrArg (Scheduler.resultOf · other) hsettle).trans
          ((Scheduler.resultOf_modifyTask_of_ne (h.ne_zero hview)).trans hreply)⟩
      · rw [hsettle] at htoldOnly
        exact ⟨htoldOnly.now, htoldOnly.timers, htoldOnly.timerCount, htoldOnly.cancelledTimers,
          fun task htask => (htoldOnly.tasks task htask).trans (Scheduler.modifyTask_of_ne htask),
          hnotes.trans htoldOnly.notes⟩

theorem leadsToViews_of_news {more : List Turn} (hready : s.ready = untold.flatMap turnsAfter ++ more)
    (h : Gathering first s going untold) (hgoing : going ≠ [])
    (htold : ∀ task ∈ untold, ∃ reply, s.resultOf task = .finished (.ok reply))
    (hmore : ∀ s', s'.ready = more → ToldOnly s s' → Gathering first s' going [] → LeadsToViews first s') :
    LeadsToViews first s :=
  leadsToViews_of_first_news hready ((List.append_nil untold).symm ▸ h) hgoing htold hmore

/-! ### Conclusions -/

theorem runTask_waiting {task : Nat} {view : Lookup} (h : s.tasks[task]? = some (waitingLookup name fetch view)) :
    s.runTask Work.program task = ({ s with state := Work.kept view name (s.resultOf fetch) s.now s.state } :
      ServiceRun).finish task (.finished
        (Work.conclusion view name (fun found => .ok (Work.replyOf found)) (s.resultOf fetch))) := by
  rw [Scheduler.runTask_paused h rfl rfl]
  exact proceed_conclude

/-- Lookups that wait for a fetch that has ended draw their conclusions, and the hover ends with what they come
to. -/
theorem leadsToViews_of_concluding
    (hready : s.ready = waiting.map (fun l => .run l.1) ++ untold.flatMap turnsAfter)
    (hne : waiting ≠ [] ∨ untold ≠ []) (h : Gathering first s waiting untold)
    (hlookups : ∀ l ∈ waiting, s.tasks[l.1]? = some (waitingLookup name fetch l.2))
    (hfetched : World.IsFetched (s.resultOf fetch)) : LeadsToViews first s := by
  induction waiting generalizing s untold with
  | nil => exact leadsToViews_of_ended hready (hne.resolve_left (fun h => h rfl)) h
  | cons l rest ih =>
      obtain ⟨hmem, -⟩ := h.pending l (List.mem_cons_self ..)
      have hlookup := hlookups l (List.mem_cons_self ..)
      let s' : ServiceRun := { s with
        ready := rest.map (fun l => .run l.1) ++ untold.flatMap turnsAfter
        state := Work.kept l.2 name (s.resultOf fetch) s.now s.state }
      let result := TaskResult.finished
        (Work.conclusion l.2 name (fun found => .ok (Work.replyOf found)) (s.resultOf fetch))
      have hturn : ({ s with ready := rest.map (fun l => .run l.1) ++ untold.flatMap turnsAfter } :
          ServiceRun).runTask Work.program l.1 = s'.finish l.1 result := runTask_waiting hlookup
      have hs' : Gathering first s' (l :: rest) untold := h.of_tasks rfl fun _ _ => rfl
      obtain ⟨hfinish, hfinishReady⟩ := hs'.finish (Lookup.isOver_conclusion hfetched)
      have hapart : fetch ≠ l.1 := by
        rintro rfl
        rw [Scheduler.resultOf_of_getElem? _ hlookup] at hfetched
        exact hfetched
      refine .of_run hready (h.ne_zero hmem) hturn (ih ?_ (.inr (by simp)) hfinish (fun m hm => ?_) ?_)
      · rw [hfinishReady, List.flatMap_append]
        simp [s', List.append_assoc]
      · have hne : m.1 ≠ l.1 := fun heq => (List.nodup_cons.mp h.nodup).1 (heq ▸ List.mem_map_of_mem hm)
        rw [Scheduler.finish_eq]
        exact (Scheduler.modifyTask_of_ne hne).trans (hlookups m (List.mem_cons_of_mem _ hm))
      · rw [Scheduler.finish_eq]
        exact (Scheduler.resultOf_modifyTask_of_ne hapart).symm ▸ hfetched

theorem leadsToViews_of_fetched (hready : s.ready = untold.flatMap turnsAfter ++
      .ended fetch :: waiting.map (fun l => .tell l.1))
    (h : Fetching first name s fetch waiting untold) (hfetched : World.IsFetched (s.resultOf fetch)) :
    LeadsToViews first s := by
  refine leadsToViews_of_news hready h.gathering h.waiting_ne h.told fun s' hs' htoldOnly hnews => ?_
  have hresult : s'.resultOf fetch = s.resultOf fetch := Scheduler.resultOf_congr (htoldOnly.tasks fetch h.outside)
  have hlookups := (h.of_toldOnly htoldOnly hnews).lookups
  have hconcluding (world : World) : LeadsToViews first { s' with
      ready := [] ++ (waiting.map Prod.fst).map .run, state := world } :=
    leadsToViews_of_concluding (by simp) (.inl h.waiting_ne) (hnews.of_tasks rfl fun _ _ => rfl) hlookups
      (hresult ▸ hfetched)
  exact .of_turn hs' (by simp) (.of_tells (by simp [Scheduler.take]) (hconcluding _))

/-! ### The requests of the fetch -/

theorem leadsToViews_of_woken (hready : s.ready = [.run fetch]) (h : Fetching first name s fetch waiting [])
    (hgoing : FetchGoing s fetch waiting t) (hstatus : t.status = .paused (.plain next))
    (hnext : ∀ s' : ServiceRun, s'.state = s.state → s'.ready = [] → Fetching first name s' fetch waiting [] →
      FetchGoing s' fetch waiting t → LeadsToViews first (s'.proceed fetch next)) : LeadsToViews first s :=
  .of_run hready h.outside (Scheduler.runTask_paused (s := { s with ready := [] }) hgoing.task hgoing.kept hstatus)
    (hnext _ rfl rfl (h.of_tasks fun _ _ => rfl)
      ⟨hgoing.task, hgoing.kept, hgoing.watchers, hgoing.timers, hgoing.serials⟩)

theorem leadsToViews_of_yield {seconds : Number} (hyields : seconds ≤ 0)
    (hready : s.ready = untold.flatMap turnsAfter) (h : Fetching first name s fetch waiting untold)
    (hgoing : FetchGoing s fetch waiting t)
    (hnext : ∀ s' t', s.state.Notes s'.state → s'.ready = [] → Fetching first name s' fetch waiting [] →
      FetchGoing s' fetch waiting t' → LeadsToViews first (s'.proceed fetch next)) :
    LeadsToViews first (s.proceed fetch (.sleep seconds next)) := by
  let paused (t : TaskState World Errand Outcome) : TaskState World Errand Outcome :=
    { t with status := .paused (.plain next) }
  have hproceed : s.proceed fetch (.sleep seconds next) = (s.ask (.run fetch)).modifyTask fetch paused := by
    simp only [Scheduler.proceed, Scheduler.advance, if_pos hyields]
    rfl
  have hs' : Fetching first name ((s.ask (.run fetch)).modifyTask fetch paused) fetch waiting untold :=
    h.of_tasks fun task htask => Scheduler.modifyTask_of_ne htask
  have hgoing' : FetchGoing ((s.ask (.run fetch)).modifyTask fetch paused) fetch waiting (paused t) :=
    ⟨Scheduler.modifyTask_self hgoing.task, hgoing.kept, hgoing.watchers, hgoing.timers, hgoing.serials⟩
  rw [hproceed]
  refine leadsToViews_of_news (congrArg (· ++ [Turn.run fetch]) hready) hs'.gathering h.waiting_ne hs'.told
    fun s' hrun htold hnews => ?_
  refine leadsToViews_of_woken hrun (hs'.of_toldOnly htold hnews) (hgoing'.of_toldOnly h.outside htold) rfl
    fun s'' hstate => hnext s'' _ ?_
  exact hstate ▸ htold.notes

theorem leadsToViews_of_timer {seconds : Number} (hwaits : ¬seconds ≤ 0)
    (hready : s.ready = untold.flatMap turnsAfter) (h : Fetching first name s fetch waiting untold)
    (hgoing : FetchGoing s fetch waiting t)
    (hnext : ∀ s' t', s.state.Notes s'.state → s'.ready = [] → Fetching first name s' fetch waiting [] →
      FetchGoing s' fetch waiting t' → LeadsToViews first (s'.proceed fetch next)) :
    LeadsToViews first (s.proceed fetch (.sleep seconds next)) := by
  let paused (t : TaskState World Errand Outcome) : TaskState World Errand Outcome :=
    { t with status := .paused (.plain next) }
  let timer : Timer := ⟨s.now.add seconds.toBinary64, fetch, s.timerCount⟩
  have hproceed : s.proceed fetch (.sleep seconds next) = (s.setTimer fetch seconds).modifyTask fetch paused := by
    simp only [Scheduler.proceed, Scheduler.advance, if_neg hwaits]
    rfl
  have htimers : (s.setTimer fetch seconds).timers = ⟨#[timer]⟩ :=
    (congrArg (fun timers => TimerHeap.insert timers timer) hgoing.timers).trans
      (Scheduler.timers_insert_empty timer)
  have hs' : Fetching first name ((s.setTimer fetch seconds).modifyTask fetch paused) fetch waiting untold :=
    h.of_tasks fun task htask => (Scheduler.modifyTask_of_ne htask).trans (Scheduler.modifyTask_of_ne htask)
  have hself := Scheduler.modifyTask_self (f := paused) (Scheduler.modifyTask_self
    (f := fun t => { t with timer := some s.timerCount }) hgoing.task)
  rw [hproceed]
  refine leadsToViews_of_news (hready.trans (List.append_nil _).symm) hs'.gathering h.waiting_ne
    hs'.told fun s' hrun htold hnews => ?_
  have hlive : timer.serial ∉ s'.cancelledTimers := by
    rw [htold.cancelledTimers]
    exact fun hmem => Nat.lt_irrefl _ (hgoing.serials _ hmem)
  refine .of_jump hrun (Scheduler.jump?_single (htold.timers.trans htimers) hlive) ?_
  refine leadsToViews_of_woken (congrArg (· ++ [Turn.run fetch]) hrun)
    ((hs'.of_toldOnly htold hnews).of_tasks fun task htask => Scheduler.modifyTask_of_ne htask)
    ⟨Scheduler.modifyTask_self ((htold.tasks fetch h.outside).trans hself), hgoing.kept, hgoing.watchers, rfl, ?_⟩
    rfl fun s'' hstate => hnext s'' _ ?_
  · intro serial hmem
    exact (hgoing.serials serial (htold.cancelledTimers ▸ hmem)).trans_le
      ((Nat.le_succ _).trans_eq htold.timerCount.symm)
  · exact hstate ▸ htold.notes

/-- **The fetch.** However often the fetch waits, between its requests or while one of them is open, the hover ends
after it. -/
theorem leadsToViews_of_proceed {p : Work Outcome}
    (hkeeps : p.Keeps World.OnlyAsks World.Notes (fun _ outcome => World.IsFetched (.finished outcome)) s.state)
    (hready : s.ready = untold.flatMap turnsAfter) (h : Fetching first name s fetch waiting untold)
    (hgoing : FetchGoing s fetch waiting t) : LeadsToViews first (s.proceed fetch p) := by
  induction p generalizing s untold t with
  | done outcome =>
      change LeadsToViews first (s.finish fetch (.finished outcome))
      rw [Scheduler.finish_eq, Scheduler.watchersOf_of_getElem? _ hgoing.task, hgoing.watchers]
      refine leadsToViews_of_fetched ?_ (h.of_tasks fun task htask => Scheduler.modifyTask_of_ne htask) ?_
      · simp only [hready, List.map_map]
        rfl
      · exact (Scheduler.resultOf_finish s hgoing.task _).symm ▸ hkeeps
  | look next ih => exact ih _ _ (hkeeps _) hready h hgoing
  | change f next ih =>
      exact ih hkeeps.2 hready (h.of_tasks fun _ _ => rfl)
        ⟨hgoing.task, hgoing.kept, hgoing.watchers, hgoing.timers, hgoing.serials⟩
  | sleep seconds next ih =>
      by_cases hyields : seconds ≤ 0
      · exact leadsToViews_of_yield hyields hready h hgoing fun s' t' hnotes hready =>
          ih (hkeeps _ hnotes) (hready.trans List.flatMap_nil.symm)
      · exact leadsToViews_of_timer hyields hready h hgoing fun s' t' hnotes hready =>
          ih (hkeeps _ hnotes) (hready.trans List.flatMap_nil.symm)
  | spawn | cancel | join | joinAll | park | wake => exact hkeeps.elim

end ServiceRun

end ManifestLens
