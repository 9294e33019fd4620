import ManifestLens.Proofs.Editor.Waiting

/-!
# The views of a hover

With nobody else at work, the three lookups of a hover have their first turns one after another. Those for which the
cache has a view end at once; the first for which it has none starts a fetch, and the others for which it has none
join that one. Whichever of them there are, the hover ends with the views or with a failure.
-/

namespace ManifestLens

/-- Some lookups of the hover have not begun, and those that have begun wait for a fetch or have ended with their
views. Nobody else is at work. -/
structure Starting (first : Nat) (name : String) (s : ServiceRun) (fetch : Nat) (fresh waiting : List (Nat × Lookup))
    (untold : List Nat) : Prop where
  gathering : Gathering first s (fresh ++ waiting) untold
  lookups : ∀ l ∈ fresh, s.tasks[l.1]? = some (freshLookup name l.2)
  waits : ∀ l ∈ waiting, s.tasks[l.1]? = some (waitingLookup name fetch l.2)
  told : ∀ task ∈ untold, ∃ reply, s.resultOf task = .finished (.ok reply)
  kinded : s.state.IsKinded
  timers : s.timers = {}
  serials : ∀ serial ∈ s.cancelledTimers, serial < s.timerCount

/-- The fetch that the lookups of a hover have started has not begun. -/
structure HasFetch (first : Nat) (name : String) (s : ServiceRun) (fetch : Nat) (waiting : List (Nat × Lookup)) :
    Prop where
  task : s.tasks[fetch]? = some
    { status := .fresh (.fetch name), errand := some (.fetch name), watchers := waiting.map fun l => .waiter l.1 }
  inFlight : s.state.service.inFlight = [(Work.normalized name, fetch)]
  outside : fetch ≠ 0
  apart : ∀ l ∈ hoverLookups first, l.1 ≠ fetch

namespace ServiceRun

variable {first fetch : Nat} {name : String} {s : ServiceRun} {l : Nat × Lookup}
  {fresh waiting : List (Nat × Lookup)} {untold : List Nat}

theorem runTask_freshLookup {task : Nat} {view : Lookup} (h : s.tasks[task]? = some (freshLookup name view)) :
    s.runTask Work.program task
      = s.proceed task (Work.inquire view name fun found => .ok (Work.replyOf found)) := by
  rw [Scheduler.runTask_fresh h rfl rfl, ← Work.run_lookup]
  rfl

end ServiceRun

namespace Starting

variable {first fetch : Nat} {name : String} {s : ServiceRun} {l : Nat × Lookup}
  {fresh waiting : List (Nat × Lookup)} {untold : List Nat}

/-- Turns and the world do not count, but for the cache. -/
theorem looked (h : Starting first name s fetch fresh waiting untold) (ready : List Turn) (view : Lookup) :
    Starting first name (ServiceRun.looked { s with ready } view name) fetch fresh waiting untold :=
  ⟨h.gathering.of_tasks rfl fun _ _ => rfl, h.lookups, h.waits, h.told,
    (World.lasts_cached _ _ _).isKinded h.kinded, h.timers, h.serials⟩

theorem ne_of_mem (h : Starting first name s fetch (l :: fresh) waiting untold) {m : Nat × Lookup}
    (hm : m ∈ fresh ++ waiting) : m.1 ≠ l.1 :=
  fun heq => (List.nodup_cons.mp h.gathering.nodup).1 (heq ▸ List.mem_map_of_mem hm)

/-- A lookup ends with its view. -/
theorem finish (h : Starting first name s fetch (l :: fresh) waiting untold) {found : CachedView}
    (hfits : l.2.Fits found) :
    Starting first name (s.finish l.1 (.finished (.ok (Work.replyOf found)))) fetch fresh waiting
        (untold ++ [l.1]) ∧
      (s.finish l.1 (.finished (.ok (Work.replyOf found)))).ready = s.ready ++ turnsAfter l.1 := by
  have hgathering : Gathering first s (l :: (fresh ++ waiting)) untold := h.gathering
  have hover : l.2.IsOver (.finished (.ok (Work.replyOf found))) := .inl ⟨found, hfits, rfl⟩
  obtain ⟨hfinish, hready⟩ := hgathering.finish hover
  have hlookup := h.lookups l (List.mem_cons_self ..)
  refine ⟨⟨hfinish, fun m hm => ?_, fun m hm => ?_, fun task htask => ?_, ?_, ?_, ?_⟩, hready⟩
  all_goals rw [Scheduler.finish_eq]
  · exact (Scheduler.modifyTask_of_ne (h.ne_of_mem (List.mem_append_left _ hm))).trans
      (h.lookups m (List.mem_cons_of_mem _ hm))
  · exact (Scheduler.modifyTask_of_ne (h.ne_of_mem (List.mem_append_right _ hm))).trans (h.waits m hm)
  · by_cases heq : task = l.1
    · exact ⟨_, (congrArg _ heq).trans (Scheduler.resultOf_finish s hlookup _)⟩
    · obtain ⟨reply, hreply⟩ := h.told task ((List.mem_append.mp htask).resolve_right (by simpa using heq))
      exact ⟨reply, (Scheduler.resultOf_modifyTask_of_ne heq).trans hreply⟩
  · exact h.kinded
  · exact h.timers
  · exact h.serials

/-- A lookup joins the fetch. -/
theorem joining (h : Starting first name s fetch (l :: fresh) waiting untold)
    (hfetch : HasFetch first name s fetch waiting) :
    Starting first name (joining s l.1 fetch (Work.conclude l.2 name fun found => .ok (Work.replyOf found))) fetch
        fresh (waiting ++ [l]) untold := by
  have hmem := (h.gathering.pending l (List.mem_cons_self ..)).1
  have hne := hfetch.apart l hmem
  have hlookup := h.lookups l (List.mem_cons_self ..)
  let next := Work.conclude l.2 name fun found => .ok (Work.replyOf found)
  have hresult (task : Nat) : (ManifestLens.joining s l.1 fetch next).resultOf task = s.resultOf task :=
    resultOf_joining hlookup hne
      (Scheduler.hasEnded_eq_false_iff.mpr (Scheduler.resultOf_of_getElem? _ hlookup)) task
  have hother : ∀ m ∈ fresh ++ waiting,
      (ManifestLens.joining s l.1 fetch next).tasks[m.1]? = s.tasks[m.1]? := fun m hm =>
    joining_other (h.ne_of_mem hm) (hfetch.apart m (h.gathering.pending m (List.mem_cons_of_mem _ hm)).1)
  refine ⟨?_, fun m hm => ?_, fun m hm => ?_, fun task htask => ?_, h.kinded, h.timers, h.serials⟩
  · refine (h.gathering.congr (joining_other (h.gathering.ne_zero hmem).symm hfetch.outside.symm)
      (fun m _ => hresult m.1) fun m hm => ?_).perm ?_
    · rw [watchersOf_joining hfetch.task, if_neg (hfetch.apart m hm)]
    · rw [← List.append_assoc]
      exact (List.perm_append_singleton l (fresh ++ waiting)).symm
  · exact (hother m (List.mem_append_left _ hm)).trans (h.lookups m (List.mem_cons_of_mem _ hm))
  · rcases List.mem_append.mp hm with hm | hm
    · exact (hother m (List.mem_append_right _ hm)).trans (h.waits m hm)
    · obtain rfl := List.mem_singleton.mp hm
      exact joining_self hlookup hne
  · obtain ⟨reply, hreply⟩ := h.told task htask
    exact ⟨reply, (hresult task).trans hreply⟩

/-- Before any lookup waits, a fetch is entered. -/
theorem entering (h : Starting first name s fetch fresh [] untold) {world : World} (hkinded : world.IsKinded) :
    Starting first name (entering s (.fetch name) world) s.tasks.size fresh [] untold := by
  obtain ⟨t, ht, -⟩ := h.gathering.outside
  refine ⟨h.gathering.congr (ht ▸ Scheduler.enter_of_getElem? ht) (fun l _ => resultOf_entering l.1)
    fun l _ => watchersOf_entering l.1, fun l hl => Scheduler.enter_of_getElem? (h.lookups l hl), nofun,
    fun task htask => ?_, hkinded, h.timers, h.serials⟩
  rw [resultOf_entering]
  exact h.told task htask

end Starting

namespace HasFetch

variable {first fetch : Nat} {name : String} {s s' : ServiceRun} {l : Nat × Lookup}
  {waiting : List (Nat × Lookup)} {untold : List Nat}

theorem congr (h : HasFetch first name s fetch waiting) (htask : s'.tasks[fetch]? = s.tasks[fetch]?)
    (hinFlight : s'.state.service.inFlight = s.state.service.inFlight) : HasFetch first name s' fetch waiting :=
  ⟨htask.trans h.task, hinFlight.trans h.inFlight, h.outside, h.apart⟩

/-- A fetch that nobody waits for yet. -/
theorem entering (h : Starting first name s fetch waiting [] untold) (hempty : s.state.service.inFlight = []) :
    HasFetch first name
      (entering s (.fetch name) (Work.enlist (Work.normalized name) s.tasks.size s.state)) s.tasks.size [] := by
  refine ⟨Scheduler.enter_self, ?_, ?_, fun l hl => h.gathering.ne_size hl⟩
  · change s.state.service.inFlight ++ [(Work.normalized name, s.tasks.size)] = _
    rw [hempty, List.nil_append]
  · obtain ⟨t, ht, -⟩ := h.gathering.outside
    exact Ne.symm (Scheduler.ne_size_of_getElem? ht)

theorem joining (h : HasFetch first name s fetch waiting) (hmem : l ∈ hoverLookups first)
    (next : TaskResult Outcome → Work Outcome) :
    HasFetch first name (joining s l.1 fetch next) fetch (waiting ++ [l]) := by
  refine ⟨(joining_fetch h.task (h.apart l hmem)).trans ?_, h.inFlight, h.outside, h.apart⟩
  simp

theorem fetchFor (h : HasFetch first name s fetch waiting) : s.fetchFor name = fetch := by
  simp [ServiceRun.fetchFor, h.inFlight]

end HasFetch

namespace ServiceRun

variable {first fetch : Nat} {name : String} {s : ServiceRun} {l : Nat × Lookup}
  {fresh waiting : List (Nat × Lookup)} {untold before after : List Nat}

/-- All lookups of the hover have begun, and the fetch has its first turn when the hover has learnt of some views. -/
theorem leadsToViews_of_begun (h : Starting first name s fetch [] waiting (before ++ after))
    (hfetch : HasFetch first name s fetch waiting) (hne : waiting ≠ [])
    (hready : s.ready = before.flatMap turnsAfter ++ .run fetch :: after.flatMap turnsAfter) :
    LeadsToViews first s := by
  refine leadsToViews_of_first_news hready h.gathering hne
    (fun task htask => h.told task (List.mem_append_left _ htask)) fun s' hrun htold hnews => ?_
  let begun : ServiceRun := { s' with ready := after.flatMap turnsAfter }
  have htask := (htold.tasks fetch hfetch.outside).trans hfetch.task
  have hbegun : Fetching first name begun fetch waiting after := by
    refine ⟨hnews.of_tasks rfl fun _ _ => rfl, hne, fun l hl => ?_, fun task hafter => ?_, hfetch.outside,
      hfetch.apart⟩
    · exact (htold.tasks _ (hnews.ne_zero (hnews.pending l hl).1)).trans (h.waits l hl)
    · obtain ⟨view, hview⟩ := hnews.known task hafter
      obtain ⟨reply, hreply⟩ := h.told task (List.mem_append_right _ hafter)
      exact ⟨reply, (Scheduler.resultOf_congr (htold.tasks task (hnews.ne_zero hview))).trans hreply⟩
  refine .of_run hrun hfetch.outside (Scheduler.runTask_fresh (s := begun) htask rfl rfl) ?_
  have hgoing : FetchGoing s fetch waiting _ := ⟨hfetch.task, rfl, rfl, h.timers, h.serials⟩
  obtain ⟨-, -, -, htimers, hserials⟩ := hgoing.of_toldOnly hfetch.outside htold
  exact leadsToViews_of_proceed (Work.fetch_keeps_fetched name _) rfl hbegun ⟨htask, rfl, rfl, htimers, hserials⟩

/-- **The first turn of a lookup.** It ends with its view, or it goes on to the fetch of its package. -/
theorem leadsToViews_of_first_turn {more : List Turn} (hready : s.ready = .run l.1 :: more)
    (h : Starting first name s fetch (l :: fresh) waiting untold)
    (hhit : ∀ s', s'.ready = more ++ turnsAfter l.1 → (∀ task, task ≠ l.1 → s'.tasks[task]? = s.tasks[task]?) →
      s'.state.service.inFlight = s.state.service.inFlight →
      Starting first name s' fetch fresh waiting (untold ++ [l.1]) → LeadsToViews first s')
    (hmiss : ∀ s', s'.ready = more → s'.tasks = s.tasks →
      s'.state.service.inFlight = s.state.service.inFlight →
      Starting first name s' fetch (l :: fresh) waiting untold →
      LeadsToViews first (s'.proceed l.1 ((Work.sharedFetch name).andThen fun task =>
        .join task (Work.conclude l.2 name fun found => .ok (Work.replyOf found))))) : LeadsToViews first s := by
  have hmem := (h.gathering.pending l (List.mem_cons_self ..)).1
  let s' : ServiceRun := { s with ready := more }
  have hlooked : Starting first name (s'.looked l.2 name) fetch (l :: fresh) waiting untold := h.looked more l.2
  have hrun : s'.runTask Work.program l.1 = _ := runTask_freshLookup (h.lookups l (List.mem_cons_self ..))
  refine .of_run hready (h.gathering.ne_zero hmem) hrun ?_
  cases hfound : (s'.state.cached s'.now (Work.cacheKey l.2 name)).1 with
  | some found =>
      obtain ⟨hfinish, hfinishReady⟩ := hlooked.finish (h.kinded.fits hfound)
      rw [proceed_hit hfound]
      refine hhit _ hfinishReady ?_ ?_ hfinish
      all_goals rw [Scheduler.finish_eq]
      · exact fun task hne => Scheduler.modifyTask_of_ne hne
      · exact inFlight_looked
  | none =>
      rw [proceed_miss hfound]
      exact hmiss _ rfl rfl inFlight_looked hlooked

/-- **The lookups that begin after the fetch has been started** reply from the cache or join it. -/
theorem leadsToViews_of_started (h : Starting first name s fetch fresh waiting (before ++ after))
    (hfetch : HasFetch first name s fetch waiting) (hne : waiting ≠ [])
    (hready : s.ready = fresh.map (fun l => .run l.1) ++
      (before.flatMap turnsAfter ++ .run fetch :: after.flatMap turnsAfter)) : LeadsToViews first s := by
  induction fresh generalizing s waiting after with
  | nil => exact leadsToViews_of_begun h hfetch hne hready
  | cons l rest ih =>
      have hmem := (h.gathering.pending l (List.mem_cons_self ..)).1
      refine leadsToViews_of_first_turn hready h (fun s' hs' htasks hinFlight hstarting => ?hit)
        fun s' hs' htasks hinFlight hstarting => ?miss
      case hit =>
        rw [List.append_assoc] at hstarting
        refine ih hstarting (hfetch.congr (htasks fetch (hfetch.apart l hmem).symm) hinFlight) hne (hs'.trans ?_)
        simp [List.append_assoc]
      case miss =>
        have hlisted : HasFetch first name s' fetch waiting := hfetch.congr (htasks ▸ rfl) hinFlight
        have hgoing : s'.hasEnded fetch = false :=
          Scheduler.hasEnded_eq_false_iff.mpr (Scheduler.resultOf_of_getElem? _ hlisted.task)
        rw [proceed_listed (by simp [hlisted.fetchFor, hlisted.inFlight]), hlisted.fetchFor,
          proceed_join_going hgoing]
        exact ih (hstarting.joining hlisted) (hlisted.joining hmem _) (by simp) hs'

/-- **The lookups of a hover.** Until one of them starts a fetch, they reply from the cache. -/
theorem leadsToViews_of_starting (h : Starting first name s fetch fresh [] untold)
    (hinFlight : s.state.service.inFlight = []) (hne : fresh ≠ [] ∨ untold ≠ [])
    (hready : s.ready = fresh.map (fun l => .run l.1) ++ untold.flatMap turnsAfter) : LeadsToViews first s := by
  induction fresh generalizing s untold with
  | nil => exact leadsToViews_of_ended hready (hne.resolve_left (fun h => h rfl)) h.gathering
  | cons l rest ih =>
      have hmem := (h.gathering.pending l (List.mem_cons_self ..)).1
      refine leadsToViews_of_first_turn hready h (fun s' hs' htasks hkept hstarting => ?hit)
        fun s' hs' htasks hkept hstarting => ?miss
      case hit =>
        refine ih hstarting (hkept.trans hinFlight) (.inr (by simp)) (hs'.trans ?_)
        simp [List.append_assoc]
      case miss =>
        have hempty : s'.state.service.inFlight = [] := hkept.trans hinFlight
        have hentered := HasFetch.entering hstarting hempty
        have hgoing : (entering s' (.fetch name)
            (Work.enlist (Work.normalized name) s'.tasks.size s'.state)).hasEnded s'.tasks.size = false :=
          Scheduler.hasEnded_eq_false_iff.mpr (Scheduler.resultOf_of_getElem? _ hentered.task)
        have hkinded : (Work.enlist (Work.normalized name) s'.tasks.size s'.state).IsKinded := hstarting.kinded
        have hstarted := (hstarting.entering hkinded).joining hentered
        rw [← List.append_nil untold] at hstarted
        rw [proceed_free (by simp [hempty]), proceed_join_going hgoing]
        refine leadsToViews_of_started hstarted (hentered.joining hmem _) (by simp) ?_
        change s'.ready ++ [.run s'.tasks.size] = _
        simp [hs']

/-! ### The wait as a whole -/

def lookupsEntered (s : ServiceRun) (name : String) : ServiceRun :=
  (((((s.enter (.lookup (.metadata true) name)).ask (.run s.tasks.size)).enter (.lookup (.releases true) name)).ask
    (.run (s.tasks.size + 1))).enter (.lookup .info name)).ask (.run (s.tasks.size + 2))

/-- A hover waits for its lookups. -/
def lookupsAwaited (s : ServiceRun) (name : String) : ServiceRun :=
  ((((s.lookupsEntered name).modifyTask 0 fun t => { t with group := some (3, true), failed := none }).watch
    s.tasks.size (.gatherer 0)).watch (s.tasks.size + 1) (.gatherer 0)).watch (s.tasks.size + 2) (.gatherer 0)

theorem lookupsEntered_self {l : Nat × Lookup} (h : l ∈ hoverLookups s.tasks.size) :
    (s.lookupsEntered name).tasks[l.1]? = some
      { status := .fresh (.lookup l.2 name), errand := some (.lookup l.2 name) } := by
  simp only [lookupsEntered, Scheduler.enter, Scheduler.ask, Array.getElem?_push, Array.size_push]
  simp only [hoverLookups, List.mem_cons, List.not_mem_nil, or_false] at h
  rcases h with rfl | rfl | rfl
  · rw [if_neg (by simp only; omega), if_neg (by simp only; omega), if_pos rfl]
  · rw [if_neg (by simp only; omega), if_pos rfl]
  · rw [if_pos rfl]

theorem lookupsEntered_of_lt {task : Nat} (h : task < s.tasks.size) :
    (s.lookupsEntered name).tasks[task]? = s.tasks[task]? := by
  simp only [lookupsEntered, Scheduler.enter, Scheduler.ask, Array.getElem?_push, Array.size_push]
  rw [if_neg (by omega), if_neg (by omega), if_neg (by omega)]

theorem lookupsAwaited_self (hpos : 0 < s.tasks.size) {l : Nat × Lookup} (h : l ∈ hoverLookups s.tasks.size) :
    (s.lookupsAwaited name).tasks[l.1]? = some (freshLookup name l.2) := by
  have hentered := @lookupsEntered_self name s l h
  simp only [lookupsAwaited, Scheduler.watch, Scheduler.getElem?_modifyTask, hentered]
  simp only [hoverLookups, List.mem_cons, List.not_mem_nil, or_false] at h
  rcases h with rfl | rfl | rfl
  · rw [if_neg (by simp only; omega), if_neg (by simp only; omega), if_pos rfl, if_neg (by simp only; omega)]
    rfl
  · rw [if_neg (by simp only; omega), if_pos rfl, if_neg (by simp only; omega), if_neg (by simp only; omega)]
    rfl
  · rw [if_pos rfl, if_neg (by simp only; omega), if_neg (by simp only; omega), if_neg (by simp only; omega)]
    rfl

theorem lookupsAwaited_outside {t : TaskState World Errand Outcome} (ht : s.tasks[0]? = some t) :
    (s.lookupsAwaited name).tasks[0]? = some { t with group := some (3, true), failed := none } := by
  have hpos : 0 < s.tasks.size := (Array.getElem?_eq_some_iff.mp ht).1
  simp only [lookupsAwaited, Scheduler.watch, Scheduler.getElem?_modifyTask, lookupsEntered_of_lt hpos, ht]
  rw [if_neg (by omega), if_neg (by omega), if_neg (by omega), if_pos trivial]
  rfl

theorem size_enter (s : ServiceRun) (errand : Errand) (turn : Turn) :
    ((s.enter errand).ask turn).tasks.size = s.tasks.size + 1 := Array.size_push _

theorem advance_views : s.advance 0 (Work.views name).run
    = (s.lookupsAwaited name, .inr (hoverPaused s.tasks.size)) := by
  have hgoing : ∀ child ∈ [s.tasks.size, s.tasks.size + 1, s.tasks.size + 2],
      (s.lookupsEntered name).hasEnded child = false := by
    intro child hchild
    obtain ⟨l, hl, rfl⟩ := List.mem_map.mp (show child ∈ (hoverLookups s.tasks.size).map Prod.fst from hchild)
    rw [Scheduler.hasEnded_eq_false_iff, Scheduler.resultOf_of_getElem? _ (lookupsEntered_self hl)]
    rfl
  rw [Work.views_run]
  simp only [Scheduler.advance, size_enter, List.isEmpty_cons, Bool.false_eq_true, if_false]
  exact congrArg (·, _) (Scheduler.gather_of_going hgoing)

theorem state_lookupsAwaited (s : ServiceRun) (name : String) : (s.lookupsAwaited name).state = s.state := by
  simp only [lookupsAwaited, lookupsEntered, Scheduler.watch, Scheduler.modifyTask, Scheduler.enter, Scheduler.ask]

theorem timers_lookupsAwaited (s : ServiceRun) (name : String) : (s.lookupsAwaited name).timers = s.timers ∧
    (s.lookupsAwaited name).cancelledTimers = s.cancelledTimers ∧
    (s.lookupsAwaited name).timerCount = s.timerCount := by
  simp only [lookupsAwaited, lookupsEntered, Scheduler.watch, Scheduler.modifyTask, Scheduler.enter, Scheduler.ask,
    and_self]

theorem ready_lookupsAwaited (s : ServiceRun) (name : String) : (s.lookupsAwaited name).ready
    = s.ready ++ (hoverLookups s.tasks.size).map fun l => .run l.1 := by
  simp only [lookupsAwaited, lookupsEntered, Scheduler.watch, Scheduler.modifyTask, Scheduler.enter, Scheduler.ask,
    hoverLookups, List.append_assoc, List.map_cons, List.map_nil, List.cons_append, List.nil_append]

theorem gathering_lookupsAwaited (hpos : 0 < s.tasks.size) (name : String) :
    Gathering s.tasks.size (s.lookupsAwaited name) (hoverLookups s.tasks.size) [] where
  inside := hpos
  outside := ⟨_, lookupsAwaited_outside (Array.getElem?_eq_getElem hpos), by simp [hoverLookups], rfl⟩
  pending := fun l hl => ⟨hl, Scheduler.watchersOf_of_getElem? _ (lookupsAwaited_self hpos hl)⟩
  nodup := by simp [hoverLookups]
  known := nofun
  ended := fun l hl => .inl hl

theorem starting_lookupsAwaited (h : s.IsResting) (name : String) :
    Starting s.tasks.size name (s.lookupsAwaited name) 0 (hoverLookups s.tasks.size) [] [] where
  gathering := by
    rw [List.append_nil]
    exact gathering_lookupsAwaited h.idle.outside name
  lookups := fun l hl => lookupsAwaited_self h.idle.outside hl
  waits := fun _ hl => absurd hl List.not_mem_nil
  told := fun _ htask => absurd htask List.not_mem_nil
  kinded := (state_lookupsAwaited s name).symm ▸ h.kinded
  timers := (timers_lookupsAwaited s name).1.trans h.idle.timers
  serials := by
    obtain ⟨-, hcancelled, hcount⟩ := timers_lookupsAwaited s name
    rw [hcancelled, hcount]
    exact h.idle.fresh

/-- **The views of a hover** are there in the end, or a failure that is no cancellation. -/
theorem IsResting.exists_ends_views (h : s.IsResting) (name : String) :
    ∃ after result, s.Ends Work.program (Work.views name).run after result ∧ result ≠ .error .cancelled := by
  refine Scheduler.Leads.exists_ends ?_ advance_views
  refine leadsToViews_of_starting (starting_lookupsAwaited h name) ?_ (.inl nofun) ?_
  · rw [state_lookupsAwaited]
    exact h.inFlight
  · rw [ready_lookupsAwaited, h.idle.ready, List.nil_append, List.flatMap_nil, List.append_nil]

end ServiceRun

end ManifestLens
