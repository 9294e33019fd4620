import ManifestLens.Proofs.Service.Interleaving

/-!
# The invariant of calls among one another

What steps of the scheduler do to the invariant, one kind of step at a time: a task has its turn and ends or
waits for a timer, it begins to wait for another one, a task is entered, a task is told something or given up.
None of them takes back what is known: errands, results and notes only grow.
-/

namespace ManifestLens

variable {ledger : Ledger} {s s' : ServiceRun} {running : Option Nat}

/-! ### What only grows -/

/-- What a run only adds to: tasks keep what they are about and what they have ended with, and answers stay
noted. -/
structure Grows (s s' : ServiceRun) : Prop where
  errand : ∀ {task errand}, s.errandOf task = some errand → s'.errandOf task = some errand
  result : ∀ {task}, s.hasEnded task = true → s'.resultOf task = s.resultOf task
  notes : s.state.Notes s'.state

namespace Grows

theorem refl (s : ServiceRun) : Grows s s := ⟨id, fun _ => rfl, .refl _⟩

theorem hasEnded (h : Grows s s') {task : Nat} (hended : s.hasEnded task = true) :
    s'.hasEnded task = true := by
  rw [Scheduler.hasEnded_iff, h.result hended]
  exact Scheduler.hasEnded_iff.mp hended

theorem trans {s'' : ServiceRun} (h : Grows s s') (h' : Grows s' s'') : Grows s s'' :=
  ⟨fun herrand => h'.errand (h.errand herrand),
    fun hended => (h'.result (h.hasEnded hended)).trans (h.result hended), List.IsPrefix.trans h.notes h'.notes⟩

theorem has (h : Grows s s') {name : String} {document : List (String × Json)}
    (hhas : ledger.Has s name document) : ledger.Has s' name document := by
  rcases hhas with ⟨spelling, base, request, answer, hname, hbase, hurl, hnoted, hcarries⟩ |
    ⟨spelling, fetch, hname, hlive, herrand, hresult⟩
  · exact .inl ⟨spelling, base, request, answer, hname, hbase, hurl, hnoted.mono h.notes, hcarries⟩
  · refine .inr ⟨spelling, fetch, hname, hlive, h.errand herrand, ?_⟩
    rw [h.result (Scheduler.hasEnded_iff.mpr (by simp [hresult])), hresult]

theorem entrySound (h : Grows s s') {key : String} {value : CachedView}
    (hentry : EntrySound ledger s key value) : EntrySound ledger s' key value := by
  obtain ⟨view, name, document, hkey, hderive, hhas⟩ := hentry
  exact ⟨view, name, document, hkey, hderive, h.has hhas⟩

theorem answerSound (h : Grows s s') {call : ServiceCall} {reply : Reply}
    (hanswer : AnswerSound ledger s call reply) : AnswerSound ledger s' call reply := by
  obtain ⟨preferred, view, name, spelling, found, document, hsought, hname, hderive, hreply, hhas⟩ := hanswer
  exact ⟨preferred, view, name, spelling, found, document, hsought, hname, hderive, hreply, h.has hhas⟩

theorem fetchEnd (h : Grows s s') {past : Nat} {request : SentRequest} {outcome : Outcome}
    (hend : Work.FetchEnd past request s.state outcome) : Work.FetchEnd past request s'.state outcome := by
  cases outcome with
  | error fault => exact hend
  | ok reply =>
      cases reply with
      | document members =>
          obtain ⟨answer, hnoted, hcarries⟩ := hend
          exact ⟨answer, hnoted.mono h.notes, hcarries⟩
      | _ => exact hend

/-- What is known of a task stays known while the task itself stays as it is. -/
theorem taskSound (h : Grows s s') {id : Nat} {t t' : TaskState World Errand Outcome}
    (hsound : TaskSound ledger s id t) (hstatus : t'.status = t.status) (herrand : t'.errand = t.errand)
    (hcancelled : t'.isCancelled = t.isCancelled ∨ ∃ call, t.errand = some (.call call))
    (hawaits : ∀ fetch, Awaits s id fetch → Awaits s' id fetch) : TaskSound ledger s' id t' := by
  have hlive : ∀ {spelling : String}, t.errand = some (.fetch spelling) → t.isCancelled = false →
      t'.isCancelled = false := by
    intro spelling hfetch hkept
    rcases hcancelled with hsame | ⟨call, hcall⟩
    · exact hsame.trans hkept
    · rw [hfetch] at hcall
      cases hcall
  cases hsound with
  | outside hid ht he => exact .outside hid (hstatus.trans ht) (herrand.trans he)
  | asked call he hlookup ht => exact .asked call (herrand.trans he) hlookup (hstatus.trans ht)
  | waiting call view name fetch he hsought ht hfetch hlive hwait =>
      obtain ⟨spelling, hspelling, hname⟩ := hfetch
      exact .waiting call view name fetch (herrand.trans he) hsought (hstatus.trans ht)
        ⟨spelling, h.errand hspelling, hname⟩ hlive (hawaits _ hwait)
  | replied call result he ht hresult hanswer =>
      exact .replied call result (herrand.trans he) (hstatus.trans ht) hresult fun hsince reply hreply =>
        h.answerSound (hanswer hsince reply hreply)
  | begun spelling he hkept ht =>
      exact .begun spelling (herrand.trans he) (hlive he hkept) (hstatus.trans ht)
  | fetching spelling past request next he hkept ht hallowed hnext =>
      exact .fetching spelling past request next (herrand.trans he) (hlive he hkept) (hstatus.trans ht) hallowed
        fun later hlater => hnext later (List.IsPrefix.trans h.notes hlater)
  | fetched spelling past request outcome he hkept ht hallowed hend =>
      exact .fetched spelling past request outcome (herrand.trans he) (hlive he hkept) (hstatus.trans ht) hallowed
        (h.fetchEnd hend)

theorem mayRun (h : Grows s s') {t t' : TaskState World Errand Outcome} (hrun : MayRun s t)
    (hstatus : t'.status = t.status) (hcancelled : t.isCancelled = true → t'.isCancelled = true) :
    MayRun s' t' := by
  intro fetch next hwaits
  rcases hrun fetch next (hstatus.symm.trans hwaits) with hgone | hended
  · exact .inl (hcancelled hgone)
  · exact .inr (h.hasEnded hended)

end Grows

/-! ### How far a fetch is -/

/-- What is known of a fetch. -/
inductive FetchStage (ledger : Ledger) (s : ServiceRun) (task : Nat) (spelling : String)
    (t : TaskState World Errand Outcome) : Prop where
  | begun (hstatus : t.status = .fresh (.fetch spelling))
  | fetching (next : Work Outcome) (hstatus : t.status = .paused (.plain next))
  | fetched (past : Nat) (request : SentRequest) (outcome : Outcome)
      (hstatus : t.status = .ended (.finished outcome)) (hallowed : ledger.Allows task spelling past request)
      (hend : Work.FetchEnd past request s.state outcome)

/-- A fetch is at one of its stages, and nobody has given it up. -/
theorem TaskSound.fetchStage {task : Nat} {spelling : String} {t : TaskState World Errand Outcome}
    (h : TaskSound ledger s task t) (hfetch : t.errand = some (.fetch spelling)) :
    t.isCancelled = false ∧ FetchStage ledger s task spelling t := by
  have hsame : ∀ {other : String}, t.errand = some (.fetch other) → other = spelling := by
    intro other hother
    rw [hother] at hfetch
    cases hfetch
    rfl
  cases h with
  | outside _ _ hnone => rw [hnone] at hfetch; cases hfetch
  | asked _ hcall => rw [hcall] at hfetch; cases hfetch
  | waiting _ _ _ _ hcall => rw [hcall] at hfetch; cases hfetch
  | replied _ _ hcall => rw [hcall] at hfetch; cases hfetch
  | begun other herrand hkept hstatus => exact ⟨hkept, .begun (hsame herrand ▸ hstatus)⟩
  | fetching other past request next herrand hkept hstatus => exact ⟨hkept, .fetching next hstatus⟩
  | fetched other past request outcome herrand hkept hstatus hallowed hend =>
      exact ⟨hkept, .fetched past request outcome hstatus (hsame herrand ▸ hallowed) hend⟩

/-! ### A task that has had its turn -/

/-- A task stays as it is, or it has begun and waits for nobody. -/
def Moves (t t' : TaskState World Errand Outcome) : Prop :=
  (t'.status = t.status ∧ (t.isCancelled = true → t'.isCancelled = true)) ∨
    (HasBegun t' ∧ ∀ other next, t'.status ≠ .paused (.joining other next))

theorem Moves.refl (t : TaskState World Errand Outcome) : Moves t t := .inl ⟨rfl, id⟩

/-- A task is where it was, though others may wait for it by now. -/
def Stays (s s' : ServiceRun) (id : Nat) : Prop :=
  ∀ t, s.tasks[id]? = some t →
    ∃ t', s'.tasks[id]? = some t' ∧ t'.status = t.status ∧ t'.isCancelled = t.isCancelled

theorem Stays.of_eq {id : Nat} (h : s'.tasks[id]? = s.tasks[id]?) : Stays s s' id :=
  fun t ht => ⟨t, h.trans ht, rfl, rfl⟩

theorem Stays.trans {s'' : ServiceRun} {id : Nat} (h : Stays s s' id) (h' : Stays s' s'' id) :
    Stays s s'' id := by
  intro t ht
  obtain ⟨t', ht', hstatus, hcancelled⟩ := h t ht
  obtain ⟨t'', ht'', hstatus', hcancelled'⟩ := h' t' ht'
  exact ⟨t'', ht'', hstatus'.trans hstatus, hcancelled'.trans hcancelled⟩

theorem Stays.moves {id : Nat} (h : Stays s s' id) (t : TaskState World Errand Outcome)
    (ht : s.tasks[id]? = some t) : ∃ t', s'.tasks[id]? = some t' ∧ Moves t t' := by
  obtain ⟨t', ht', hstatus, hcancelled⟩ := h t ht
  exact ⟨t', ht', .inl ⟨hstatus, fun hgone => hcancelled.trans hgone⟩⟩

theorem Grows.turnSound (h : Grows s s') {turn : Turn} (hturn : TurnSound s turn)
    (hmoves : ∀ id t, turn = .run id ∨ turn = .tell id → s.tasks[id]? = some t →
      ∃ t', s'.tasks[id]? = some t' ∧ Moves t t') : TurnSound s' turn := by
  cases turn with
  | run id =>
      obtain ⟨t, ht, hid, hrun⟩ := hturn
      obtain ⟨t', ht', ⟨hstatus, hcancelled⟩ | ⟨-, hfree⟩⟩ := hmoves id t (.inl rfl) ht
      · exact ⟨t', ht', hid, h.mayRun hrun hstatus hcancelled⟩
      · exact ⟨t', ht', hid, fun other next hwaits => absurd hwaits (hfree other next)⟩
  | tell id =>
      obtain ⟨t, ht, hid, hrun, hbegun⟩ := hturn
      obtain ⟨t', ht', ⟨hstatus, hcancelled⟩ | ⟨hbegun', hfree⟩⟩ := hmoves id t (.inr rfl) ht
      · exact ⟨t', ht', hid, h.mayRun hrun hstatus hcancelled, fun description => hstatus ▸ hbegun description⟩
      · exact ⟨t', ht', hid, fun other next hwaits => absurd hwaits (hfree other next), hbegun'⟩
  | ended id => exact h.hasEnded hturn
  | settle child watcher => exact hturn

theorem WatcherSound.moves {fetch : Nat} {watcher : Watcher} (h : WatcherSound s fetch watcher)
    (hmoves : ∀ id t, watcher = .waiter id → s.tasks[id]? = some t →
      ∃ t', s'.tasks[id]? = some t' ∧ Moves t t') : WatcherSound s' fetch watcher := by
  obtain ⟨id, t, hwatcher, ht, hid, hbegun, hwaits⟩ := h
  obtain ⟨t', ht', ⟨hstatus, -⟩ | ⟨hbegun', hfree⟩⟩ := hmoves id t hwatcher ht
  · refine ⟨id, t', hwatcher, ht', hid, fun description => hstatus ▸ hbegun description, ?_⟩
    exact fun other next hother => hwaits other next (hstatus ▸ hother)
  · exact ⟨id, t', hwatcher, ht', hid, hbegun', fun other next hother => absurd hother (hfree other next)⟩

theorem Moves.hasBegun {t t' : TaskState World Errand Outcome} (h : Moves t t') (hbegun : HasBegun t) :
    HasBegun t' := by
  rcases h with ⟨hstatus, -⟩ | ⟨hbegun', -⟩
  · exact fun description => hstatus ▸ hbegun description
  · exact hbegun'

/-- A timer stays that of a fetch that has begun while nobody unlearns that it has. -/
theorem Sleeps.grows (h : Grows s s') {id : Nat} (hsleeps : Sleeps s id)
    (hbegun : ∀ t, s.tasks[id]? = some t → HasBegun t → ∃ t', s'.tasks[id]? = some t' ∧ HasBegun t') :
    Sleeps s' id := by
  obtain ⟨⟨spelling, herrand⟩, t, ht, hnow⟩ := hsleeps
  exact ⟨⟨spelling, h.errand herrand⟩, hbegun t ht hnow⟩

theorem Sleeps.moves (h : Grows s s') {id : Nat} (hsleeps : Sleeps s id)
    (hmoves : ∀ t, s.tasks[id]? = some t → ∃ t', s'.tasks[id]? = some t' ∧ Moves t t') : Sleeps s' id := by
  refine hsleeps.grows h fun t ht hnow => ?_
  obtain ⟨t', ht', hmoved⟩ := hmoves t ht
  exact ⟨t', ht', hmoved.hasBegun hnow⟩

/-- What a task leaves behind that has had its turn and waits for no other task: it has ended and those who
watched it are told, or it sleeps. -/
structure HadTurn (s s' : ServiceRun) (id : Nat) (t t' : TaskState World Errand Outcome)
    (asked : List Turn) : Prop where
  state : s'.state = s.state
  size : s'.tasks.size = s.tasks.size
  self : s'.tasks[id]? = some t'
  other : ∀ other, other ≠ id → s'.tasks[other]? = s.tasks[other]?
  errand : t'.errand = t.errand
  begun : HasBegun t'
  free : ∀ other next, t'.status ≠ .paused (.joining other next)
  timer : TimerSound t'
  timers : ∀ timer ∈ s'.timers.timers, timer ∈ s.timers.timers ∨ timer.task = id ∧ t'.timer.isSome = true
  ready : s'.ready = s.ready ++ asked
  end_or_sleep :
    (t'.status.result ≠ .running ∧ t'.watchers = [] ∧ asked = .ended id :: t.watchers.map (Scheduler.news id)) ∨
      (t'.status.result = .running ∧ t'.watchers = t.watchers ∧ (asked = [] ∨ asked = [.run id]))

namespace HadTurn

variable {id : Nat} {t t' : TaskState World Errand Outcome} {asked : List Turn}

theorem errandOf (h : HadTurn s s' id t t' asked) (ht : s.tasks[id]? = some t) (other : Nat) :
    s'.errandOf other = s.errandOf other := by
  by_cases hother : other = id
  · subst hother
    rw [Scheduler.errandOf, Scheduler.errandOf, h.self, ht]
    exact h.errand
  · rw [Scheduler.errandOf, Scheduler.errandOf, h.other other hother]

theorem resultOf (h : HadTurn s s' id t t' asked) {other : Nat} (hother : other ≠ id) :
    s'.resultOf other = s.resultOf other := by
  rw [Scheduler.resultOf, Scheduler.resultOf, h.other other hother]

theorem grows (h : HadTurn s s' id t t' asked) (ht : s.tasks[id]? = some t)
    (hrunning : s.hasEnded id = false) : Grows s s' where
  errand := fun herrand => (h.errandOf ht _).trans herrand
  result := by
    intro other hended
    refine h.resultOf ?_
    rintro rfl
    rw [hrunning] at hended
    cases hended
  notes := .of_eq (by rw [h.state])

theorem awaits (h : HadTurn s s' id t t' asked) (ht : s.tasks[id]? = some t) {other fetch : Nat}
    (hawaits : Awaits s other fetch) : Awaits s' other fetch := by
  rcases hawaits with hwatch | htell | hrun
  · by_cases hfetch : fetch = id
    · subst hfetch
      rw [Scheduler.watchersOf_of_getElem? _ ht] at hwatch
      rcases h.end_or_sleep with ⟨-, -, hasked⟩ | ⟨-, hwatchers, -⟩
      · refine .inr (.inl ?_)
        rw [h.ready, hasked]
        exact List.mem_append_right _ (List.mem_cons_of_mem _ (List.mem_map.mpr ⟨_, hwatch, rfl⟩))
      · refine .inl ?_
        rw [Scheduler.watchersOf_of_getElem? _ h.self, hwatchers]
        exact hwatch
    · refine .inl ?_
      rw [Scheduler.watchersOf, h.other fetch hfetch]
      exact hwatch
  · exact .inr (.inl (h.ready ▸ List.mem_append_left _ htell))
  · exact .inr (.inr (h.ready ▸ List.mem_append_left _ hrun))

theorem moves (h : HadTurn s s' id t t' asked) (ht : s.tasks[id]? = some t) (other : Nat)
    (u : TaskState World Errand Outcome) (hu : s.tasks[other]? = some u) :
    ∃ u', s'.tasks[other]? = some u' ∧ Moves u u' := by
  by_cases hother : other = id
  · subst hother
    exact ⟨t', h.self, .inr ⟨h.begun, h.free⟩⟩
  · exact ⟨u, (h.other other hother).trans hu, .refl u⟩

/-- A turn that is asked for after a turn of a task is not the first one of another task. -/
theorem count_asked (h : HadTurn s s' id t t' asked) {other : Nat} (hother : other ≠ id) :
    asked.count (.run other) = 0 := by
  rw [List.count_eq_zero]
  intro hmem
  rcases h.end_or_sleep with ⟨-, -, rfl⟩ | ⟨-, -, rfl | rfl⟩
  · rcases List.mem_cons.mp hmem with heq | hmem
    · cases heq
    · obtain ⟨watcher, -, heq⟩ := List.mem_map.mp hmem
      cases watcher <;> cases heq
  · cases hmem
  · exact hother (Turn.run.inj (List.mem_singleton.mp hmem))

end HadTurn

/-- The turns that a task leaves behind are its own next one, or those in which its end is made known. -/
theorem TasksSound.turnSound_of_asked {id : Nat} {t t' : TaskState World Errand Outcome} {asked : List Turn}
    (h : TasksSound ledger s (some id)) (hturn : HadTurn s s' id t t' asked) (ht : s.tasks[id]? = some t)
    (hid : id ≠ 0) {turn : Turn} (hmem : turn ∈ asked) : TurnSound s' turn := by
  rcases hturn.end_or_sleep with ⟨hresult, -, rfl⟩ | ⟨-, -, rfl | rfl⟩
  · have hended : s'.hasEnded id = true :=
      Scheduler.hasEnded_iff.mpr (by rwa [Scheduler.resultOf_of_getElem? _ hturn.self])
    rcases List.mem_cons.mp hmem with rfl | hmem
    · exact hended
    · obtain ⟨watcher, hwatcher, rfl⟩ := List.mem_map.mp hmem
      obtain ⟨other, u, rfl, hu, hother, hbegun, hwaits⟩ := h.watcher id watcher
        (by rwa [Scheduler.watchersOf_of_getElem? _ ht])
      by_cases hself : other = id
      · subst hself
        exact ⟨t', hturn.self, hid, fun fetch next hjoins => absurd hjoins (hturn.free fetch next),
          hturn.begun⟩
      · refine ⟨u, (hturn.other other hself).trans hu, hother, fun fetch next hjoins => .inr ?_, hbegun⟩
        rw [hwaits fetch next hjoins]
        exact hended
  · cases hmem
  · rw [List.mem_singleton.mp hmem]
    exact ⟨t', hturn.self, hid, fun other next hjoins => absurd hjoins (hturn.free other next)⟩

/-- **After a turn.** What a task leaves behind that has had its turn is sound if the task is. -/
theorem TasksSound.hadTurn {id : Nat} {t t' : TaskState World Errand Outcome} {asked : List Turn}
    (h : TasksSound ledger s (some id)) (hturn : HadTurn s s' id t t' asked) (ht : s.tasks[id]? = some t)
    (hid : id ≠ 0) (hrunning : s.hasEnded id = false) (hsound : TaskSound ledger s id t') :
    TasksSound ledger s' none := by
  have hgrows := hturn.grows ht hrunning
  refine ⟨hturn.size ▸ h.size, (hturn.errandOf ht 0).trans h.outside, hturn.size ▸ h.since,
    ?task, ?fresh, ?timer, ?timers, ?turn, ?watcher, ?unwatched⟩
  case task =>
    intro other u hu _
    by_cases hother : other = id
    · subst hother
      obtain rfl : t' = u := by simpa [hturn.self] using hu
      exact hgrows.taskSound hsound rfl rfl (.inl rfl) fun _ => hturn.awaits ht
    · rw [hturn.other other hother] at hu
      exact hgrows.taskSound (h.task other u hu (by simpa using Ne.symm hother)) rfl rfl (.inl rfl)
        fun _ => hturn.awaits ht
  case fresh =>
    intro other u description hu hfresh _
    have hother : other ≠ id := by
      rintro rfl
      obtain rfl : t' = u := by simpa [hturn.self] using hu
      exact hturn.begun description hfresh
    rw [hturn.other other hother] at hu
    rw [hturn.ready, List.count_append, hturn.count_asked hother, Nat.add_zero]
    exact h.fresh other u description hu hfresh (by simpa using Ne.symm hother)
  case timer =>
    intro other u hu
    by_cases hother : other = id
    · subst hother
      obtain rfl : t' = u := by simpa [hturn.self] using hu
      exact hturn.timer
    · exact h.timer other u ((hturn.other other hother).symm.trans hu)
  case timers =>
    intro timer hmem
    rcases hturn.timers timer hmem with hmem | ⟨hself, hset⟩
    · exact (h.timers timer hmem).moves hgrows fun u => hturn.moves ht _ u
    · obtain ⟨⟨spelling, herrand⟩, hbegun⟩ := hturn.timer hset
      rw [hself]
      exact ⟨⟨spelling, (Scheduler.errandOf_eq_some_iff _).mpr ⟨t', hturn.self, herrand⟩⟩, t', hturn.self,
        hbegun⟩
  case turn =>
    intro turn hmem
    rw [hturn.ready] at hmem
    rcases List.mem_append.mp hmem with hmem | hmem
    · exact hgrows.turnSound (h.turn turn hmem) fun other u _ => hturn.moves ht other u
    · exact h.turnSound_of_asked hturn ht hid hmem
  case watcher =>
    intro fetch watcher hwatcher
    by_cases hfetch : fetch = id
    · subst hfetch
      rw [Scheduler.watchersOf_of_getElem? _ hturn.self] at hwatcher
      rcases hturn.end_or_sleep with ⟨-, hwatchers, -⟩ | ⟨-, hwatchers, -⟩
      · rw [hwatchers] at hwatcher
        cases hwatcher
      · rw [hwatchers, ← Scheduler.watchersOf_of_getElem? _ ht] at hwatcher
        exact (h.watcher _ _ hwatcher).moves fun other u _ => hturn.moves ht other u
    · rw [Scheduler.watchersOf, hturn.other fetch hfetch] at hwatcher
      exact (h.watcher _ _ hwatcher).moves fun other u _ => hturn.moves ht other u
  case unwatched =>
    intro other hended
    by_cases hother : other = id
    · subst hother
      rw [Scheduler.watchersOf_of_getElem? _ hturn.self]
      rcases hturn.end_or_sleep with ⟨-, hwatchers, -⟩ | ⟨hresult, -, -⟩
      · exact hwatchers
      · rw [Scheduler.hasEnded_iff, Scheduler.resultOf_of_getElem? _ hturn.self] at hended
        exact absurd hresult hended
    · rw [Scheduler.watchersOf, hturn.other other hother]
      refine h.unwatched other ?_
      rw [Scheduler.hasEnded_iff, ← hturn.resultOf hother]
      exact Scheduler.hasEnded_iff.mp hended

theorem WorldSound.grows (h : WorldSound ledger s) (hgrows : Grows s s') (hstate : s'.state = s.state) :
    WorldSound ledger s' :=
  ⟨hstate ▸ h.base, hstate ▸ h.past, hstate ▸ h.cache.mono fun _ _ _ _ => hgrows.entrySound⟩

/-- The table stays sound while what is listed, what every task is for and who has ended stay the same, and no news
of an end is lost. -/
theorem TableSound.kept (h : TableSound ledger s)
    (hinFlight : s'.state.service.inFlight = s.state.service.inFlight)
    (herrand : ∀ id, s'.errandOf id = s.errandOf id) (hended : ∀ id, s'.hasEnded id = s.hasEnded id)
    (hready : ∀ id, .ended id ∈ s.ready → .ended id ∈ s'.ready) : TableSound ledger s' := by
  refine ⟨hinFlight ▸ h.keys, ?_, ?_⟩
  · intro key fetch hmem
    obtain ⟨⟨spelling, hfetch, hkey⟩, hnews, hlive⟩ := h.listed key fetch (hinFlight ▸ hmem)
    exact ⟨⟨spelling, (herrand fetch).trans hfetch, hkey⟩,
      fun hnow => hready fetch (hnews ((hended fetch).symm.trans hnow)), hlive⟩
  · intro fetch spelling hfetch hgoing
    rw [hinFlight]
    exact h.complete fetch spelling ((herrand fetch).symm.trans hfetch) ((hended fetch).symm.trans hgoing)

theorem TableSound.hadTurn {id : Nat} {t t' : TaskState World Errand Outcome} {asked : List Turn}
    (h : TableSound ledger s) (hturn : HadTurn s s' id t t' asked) (ht : s.tasks[id]? = some t)
    (hrunning : s.hasEnded id = false) : TableSound ledger s' := by
  have hgrows := hturn.grows ht hrunning
  refine ⟨hturn.state ▸ h.keys, ?_, ?_⟩
  · intro key fetch hmem
    rw [hturn.state] at hmem
    obtain ⟨⟨spelling, herrand, hkey⟩, hended, hlive⟩ := h.listed key fetch hmem
    refine ⟨⟨spelling, hgrows.errand herrand, hkey⟩, fun hnow => ?_, hlive⟩
    rw [hturn.ready]
    by_cases hfetch : fetch = id
    · subst hfetch
      rcases hturn.end_or_sleep with ⟨-, -, rfl⟩ | ⟨hresult, -, -⟩
      · exact List.mem_append_right _ List.mem_cons_self
      · rw [Scheduler.hasEnded_iff, Scheduler.resultOf_of_getElem? _ hturn.self] at hnow
        exact absurd hresult hnow
    · rw [Scheduler.hasEnded_iff, hturn.resultOf hfetch, ← Scheduler.hasEnded_iff] at hnow
      exact List.mem_append_left _ (hended hnow)
  · intro fetch spelling herrand hgoing
    rw [hturn.state]
    refine h.complete fetch spelling ((hturn.errandOf ht fetch).symm.trans herrand) ?_
    by_cases hfetch : fetch = id
    · rw [hfetch]
      exact hrunning
    · rw [Scheduler.hasEnded_eq_false_iff, ← hturn.resultOf hfetch, ← Scheduler.hasEnded_eq_false_iff]
      exact hgoing

/-- After a turn of a task that waits for no other task, everything is sound if the task is. -/
theorem Sound.hadTurn {id : Nat} {t t' : TaskState World Errand Outcome} {asked : List Turn}
    (h : Sound ledger s (some id)) (hturn : HadTurn s s' id t t' asked) (ht : s.tasks[id]? = some t)
    (hid : id ≠ 0) (hrunning : s.hasEnded id = false) (hsound : TaskSound ledger s id t') :
    Sound ledger s' none :=
  ⟨h.tasks.hadTurn hturn ht hid hrunning hsound, h.world.grows (hturn.grows ht hrunning) hturn.state,
    h.table.hadTurn hturn ht hrunning⟩

/-! ### A task that waits for a fetch -/

/-- A task is heard of nowhere: no turn of it was asked for and it watches nobody. -/
structure Unheard (s : ServiceRun) (id : Nat) : Prop where
  run : .run id ∉ s.ready
  tell : .tell id ∉ s.ready
  watcher : ∀ fetch, .waiter id ∉ s.watchersOf fetch

/-- The run in which a task waits for a fetch from now on. -/
def joining (s : ServiceRun) (id fetch : Nat) (next : TaskResult Outcome → Work Outcome) : ServiceRun :=
  (s.watch fetch (.waiter id)).modifyTask id fun t => { t with status := .paused (.joining fetch next) }

section Joining

variable {id fetch : Nat} {next : TaskResult Outcome → Work Outcome} {t u : TaskState World Errand Outcome}

theorem joining_self (ht : s.tasks[id]? = some t) (hne : id ≠ fetch) :
    (joining s id fetch next).tasks[id]? = some { t with status := .paused (.joining fetch next) } := by
  rw [joining, Scheduler.modifyTask_self ((Scheduler.watch_of_ne hne).trans ht)]

theorem joining_fetch (hu : s.tasks[fetch]? = some u) (hne : id ≠ fetch) :
    (joining s id fetch next).tasks[fetch]? = some { u with watchers := u.watchers ++ [.waiter id] } := by
  rw [joining, Scheduler.modifyTask_of_ne hne.symm, Scheduler.watch_self hu]

theorem joining_other {other : Nat} (hid : other ≠ id) (hfetch : other ≠ fetch) :
    (joining s id fetch next).tasks[other]? = s.tasks[other]? := by
  rw [joining, Scheduler.modifyTask_of_ne hid, Scheduler.watch_of_ne hfetch]

theorem errandOf_joining (other : Nat) : (joining s id fetch next).errandOf other = s.errandOf other := by
  rw [joining, Scheduler.errandOf_modifyTask, Scheduler.errandOf_watch]
  exact fun _ => rfl

theorem resultOf_joining (ht : s.tasks[id]? = some t) (hne : id ≠ fetch) (hrunning : s.hasEnded id = false)
    (other : Nat) : (joining s id fetch next).resultOf other = s.resultOf other := by
  by_cases hother : other = id
  · subst hother
    rw [Scheduler.resultOf_of_getElem? _ (joining_self ht hne), Scheduler.hasEnded_eq_false_iff.mp hrunning]
    rfl
  · rw [joining, Scheduler.resultOf_modifyTask_of_ne hother, Scheduler.resultOf_watch]

theorem hasEnded_joining (ht : s.tasks[id]? = some t) (hne : id ≠ fetch) (hrunning : s.hasEnded id = false)
    (other : Nat) : (joining s id fetch next).hasEnded other = s.hasEnded other := by
  rw [Scheduler.hasEnded, resultOf_joining ht hne hrunning, Scheduler.hasEnded]

theorem watchersOf_joining (hu : s.tasks[fetch]? = some u) (other : Nat) :
    (joining s id fetch next).watchersOf other
      = if other = fetch then s.watchersOf fetch ++ [.waiter id] else s.watchersOf other := by
  rw [joining, Scheduler.watchersOf_modifyTask, Scheduler.watchersOf_watch hu]
  exact fun _ => rfl

theorem grows_joining (ht : s.tasks[id]? = some t) (hne : id ≠ fetch) (hrunning : s.hasEnded id = false) :
    Grows s (joining s id fetch next) :=
  ⟨fun herrand => (errandOf_joining _).trans herrand, fun _ => resultOf_joining ht hne hrunning _,
    .refl _⟩

theorem stays_joining (hu : s.tasks[fetch]? = some u) (hne : id ≠ fetch) {other : Nat} (hother : other ≠ id) :
    Stays s (joining s id fetch next) other := by
  by_cases hfetch : other = fetch
  · subst hfetch
    intro v hv
    obtain rfl : u = v := by simpa [hu] using hv
    exact ⟨_, joining_fetch hu hne, rfl, rfl⟩
  · exact .of_eq (joining_other hother hfetch)

/-- Every other task is as it was before, but for who watches it. -/
theorem exists_of_joining (hu : s.tasks[fetch]? = some u) (hne : id ≠ fetch) {other : Nat} (hother : other ≠ id)
    {v : TaskState World Errand Outcome} (hv : (joining s id fetch next).tasks[other]? = some v) :
    ∃ w watchers, s.tasks[other]? = some w ∧ v = { w with watchers } := by
  by_cases hfetch : other = fetch
  · subst hfetch
    obtain rfl : _ = v := by simpa [joining_fetch hu hne] using hv
    exact ⟨u, _, hu, rfl⟩
  · rw [joining_other hother hfetch] at hv
    exact ⟨v, v.watchers, hv, rfl⟩

theorem awaits_joining (hu : s.tasks[fetch]? = some u) {other waited : Nat} (h : Awaits s other waited) :
    Awaits (joining s id fetch next) other waited := by
  rcases h with hwatch | hturns
  · refine .inl ?_
    rw [watchersOf_joining hu]
    split
    · next hwaited => exact List.mem_append_left _ (hwaited ▸ hwatch)
    · exact hwatch
  · exact .inr hturns

theorem awaits_joining_self (hu : s.tasks[fetch]? = some u) : Awaits (joining s id fetch next) id fetch := by
  refine .inl ?_
  rw [watchersOf_joining hu, if_pos rfl]
  exact List.mem_append_right _ List.mem_cons_self

theorem TasksSound.joining (h : TasksSound ledger s (some id)) (ht : s.tasks[id]? = some t) (hid : id ≠ 0)
    (hrunning : s.hasEnded id = false) (hunheard : Unheard s id) (hu : s.tasks[fetch]? = some u)
    (hgoing : s.hasEnded fetch = false) (hne : id ≠ fetch)
    (hsound : TaskSound ledger (ManifestLens.joining s id fetch next) id
      { t with status := .paused (.joining fetch next) }) :
    TasksSound ledger (ManifestLens.joining s id fetch next) none := by
  have hgrows : Grows s (ManifestLens.joining s id fetch next) := grows_joining ht hne hrunning
  have hsize : (ManifestLens.joining s id fetch next).tasks.size = s.tasks.size := by
    simp [ManifestLens.joining, Scheduler.watch, Scheduler.modifyTask]
  refine ⟨hsize ▸ h.size, (errandOf_joining 0).trans h.outside, hsize ▸ h.since,
    ?task, ?fresh, ?timer, ?timers, ?turn, ?watcher, ?unwatched⟩
  case task =>
    intro other v hv _
    by_cases hother : other = id
    · subst hother
      obtain rfl : _ = v := by simpa [joining_self ht hne] using hv
      exact hsound
    · obtain ⟨w, watchers, hw, rfl⟩ := exists_of_joining hu hne hother hv
      exact hgrows.taskSound (h.task other w hw (by simpa using Ne.symm hother)) rfl rfl (.inl rfl)
        fun _ => awaits_joining hu
  case fresh =>
    intro other v description hv hfresh _
    have hother : other ≠ id := by
      rintro rfl
      obtain rfl : _ = v := by simpa [joining_self ht hne] using hv
      cases hfresh
    obtain ⟨w, watchers, hw, rfl⟩ := exists_of_joining hu hne hother hv
    exact h.fresh other w description hw hfresh (by simpa using Ne.symm hother)
  case timer =>
    intro other v hv
    by_cases hother : other = id
    · subst hother
      obtain rfl : _ = v := by simpa [joining_self ht hne] using hv
      exact fun htimer => ⟨(h.timer other t ht htimer).1, .of_paused rfl⟩
    · obtain ⟨w, watchers, hw, rfl⟩ := exists_of_joining hu hne hother hv
      exact h.timer other w hw
  case timers =>
    intro timer hmem
    refine (h.timers timer hmem).grows hgrows fun v hv hbegun => ?_
    by_cases hother : timer.task = id
    · rw [hother]
      exact ⟨{ t with status := .paused (.joining fetch next) }, joining_self ht hne, .of_paused rfl⟩
    · obtain ⟨v', hv', hmoved⟩ := (stays_joining hu hne hother).moves v hv
      exact ⟨v', hv', hmoved.hasBegun hbegun⟩
  case turn =>
    intro turn hmem
    refine hgrows.turnSound (h.turn turn hmem) fun other v hmention hv =>
      (stays_joining hu hne ?_).moves v hv
    rintro rfl
    rcases hmention with rfl | rfl
    · exact hunheard.run hmem
    · exact hunheard.tell hmem
  case watcher =>
    intro waited watcher hwatcher
    have hold (hmem : watcher ∈ s.watchersOf waited) :
        WatcherSound (ManifestLens.joining s id fetch next) waited watcher := by
      refine (h.watcher waited watcher hmem).moves fun other v hwaiter hv =>
        (stays_joining hu hne ?_).moves v hv
      rintro rfl
      exact hunheard.watcher waited (hwaiter ▸ hmem)
    rw [watchersOf_joining hu] at hwatcher
    split at hwatcher
    · next hwaited =>
      subst hwaited
      rcases List.mem_append.mp hwatcher with hwatcher | hwatcher
      · exact hold hwatcher
      · rw [List.mem_singleton.mp hwatcher]
        exact ⟨id, _, rfl, joining_self ht hne, hid, (.of_paused rfl),
          fun other next hjoins => by cases hjoins; rfl⟩
    · exact hold hwatcher
  case unwatched =>
    intro other hended
    rw [hasEnded_joining ht hne hrunning] at hended
    have hother : other ≠ fetch := by
      rintro rfl
      rw [hgoing] at hended
      cases hended
    rw [watchersOf_joining hu, if_neg hother]
    exact h.unwatched other hended

/-- **Joining.** Everything stays sound when a task that is heard of nowhere waits for a fetch that has not
ended. -/
theorem Sound.joining (h : Sound ledger s (some id)) (ht : s.tasks[id]? = some t) (hid : id ≠ 0)
    (hrunning : s.hasEnded id = false) (hunheard : Unheard s id) (hu : s.tasks[fetch]? = some u)
    (hgoing : s.hasEnded fetch = false) (hne : id ≠ fetch)
    (hsound : (Awaits (ManifestLens.joining s id fetch next) id fetch) →
      TaskSound ledger (ManifestLens.joining s id fetch next) id
        { t with status := .paused (.joining fetch next) }) :
    Sound ledger (ManifestLens.joining s id fetch next) none :=
  ⟨h.tasks.joining ht hid hrunning hunheard hu hgoing hne (hsound (awaits_joining_self hu)),
    h.world.grows (grows_joining ht hne hrunning) rfl,
    h.table.kept rfl errandOf_joining (hasEnded_joining ht hne hrunning) fun _ hnews => hnews⟩

end Joining

/-! ### The world -/

theorem grows_withState {world : World} (hnotes : s.state.Notes world) : Grows s { s with state := world } :=
  ⟨id, fun _ => rfl, hnotes⟩

/-- Everything stays sound when the world changes but for what is under way. -/
theorem Sound.withState (h : Sound ledger s running) {world : World}
    (hinFlight : world.service.inFlight = s.state.service.inFlight) (hnotes : s.state.Notes world)
    (hbase : ledger.bases world.service.client.baseUrl)
    (hcache : world.service.cache.Every fun key value _ _ => EntrySound ledger s key value) :
    Sound ledger { s with state := world } running := by
  have hgrows := grows_withState hnotes
  have hstays : ∀ id, Stays s { s with state := world } id := fun _ => .of_eq rfl
  refine ⟨⟨h.tasks.size, h.tasks.outside, h.tasks.since, ?task, h.tasks.fresh, h.tasks.timer, ?timers,
      ?turn, ?watcher, h.tasks.unwatched⟩,
    ⟨hbase, Nat.le_trans h.world.past hnotes.length_le, hcache.mono fun _ _ _ _ => hgrows.entrySound⟩,
    h.table.kept hinFlight (fun _ => rfl) (fun _ => rfl) fun _ => id⟩
  case task =>
    exact fun id t ht hid => hgrows.taskSound (h.tasks.task id t ht hid) rfl rfl (.inl rfl)
      fun _ hawaits => hawaits
  case timers =>
    exact fun timer hmem => (h.tasks.timers timer hmem).moves hgrows (hstays _).moves
  case turn =>
    exact fun turn hmem => hgrows.turnSound (h.tasks.turn turn hmem) fun id t _ => (hstays id).moves t
  case watcher =>
    exact fun fetch watcher hmem => (h.tasks.watcher fetch watcher hmem).moves fun id t _ => (hstays id).moves t

/-! ### A new task -/

/-- The run in which a task has been entered that gets its turn. -/
def entering (s : ServiceRun) (errand : Errand) (world : World) : ServiceRun :=
  { (s.enter errand).ask (.run s.tasks.size) with state := world }

section Entering

variable {errand : Errand} {world : World}

theorem errandOf_entering (other : Nat) : (entering s errand world).errandOf other
    = if other = s.tasks.size then some errand else s.errandOf other := by
  split
  · next h =>
    subst h
    exact (Scheduler.errandOf_eq_some_iff _).mpr ⟨_, Scheduler.enter_self, rfl⟩
  · next h =>
    change (s.enter errand).tasks[other]?.bind TaskState.errand = _
    rw [Scheduler.enter_of_ne h, Scheduler.errandOf]

theorem resultOf_entering (other : Nat) : (entering s errand world).resultOf other = s.resultOf other :=
  Scheduler.resultOf_enter other

theorem hasEnded_entering (other : Nat) : (entering s errand world).hasEnded other = s.hasEnded other := by
  rw [Scheduler.hasEnded, resultOf_entering, Scheduler.hasEnded]

theorem watchersOf_entering (other : Nat) :
    (entering s errand world).watchersOf other = s.watchersOf other := Scheduler.watchersOf_enter other

theorem grows_entering (hnotes : s.state.Notes world) : Grows s (entering s errand world) where
  errand := by
    intro task known herrand
    obtain ⟨t, ht, -⟩ := (Scheduler.errandOf_eq_some_iff _).mp herrand
    rw [errandOf_entering, if_neg (Scheduler.ne_size_of_getElem? ht)]
    exact herrand
  result := fun _ => resultOf_entering _
  notes := hnotes

theorem TasksSound.entering (h : TasksSound ledger s running) (hnotes : s.state.Notes world)
    (hsound : TaskSound ledger (ManifestLens.entering s errand world) s.tasks.size
      { status := .fresh errand, errand := some errand }) :
    TasksSound ledger (ManifestLens.entering s errand world) running := by
  have hgrows : Grows s (ManifestLens.entering s errand world) := grows_entering hnotes
  have hold : ∀ {id : Nat} {t : TaskState World Errand Outcome}, s.tasks[id]? = some t →
      (ManifestLens.entering s errand world).tasks[id]? = some t := Scheduler.enter_of_getElem?
  have hnew : (ManifestLens.entering s errand world).tasks[s.tasks.size]?
      = some { status := .fresh errand, errand := some errand } := Scheduler.enter_self
  have hother : ∀ {id : Nat}, id ≠ s.tasks.size →
      (ManifestLens.entering s errand world).tasks[id]? = s.tasks[id]? := Scheduler.enter_of_ne
  have hunasked : s.ready.count (.run s.tasks.size) = 0 := by
    rw [List.count_eq_zero]
    intro hmem
    obtain ⟨t, ht, -⟩ := h.turn _ hmem
    exact Scheduler.ne_size_of_getElem? ht rfl
  have hsize : (ManifestLens.entering s errand world).tasks.size = s.tasks.size + 1 := by
    simp [ManifestLens.entering, Scheduler.enter, Scheduler.ask]
  refine ⟨by omega, ?outside, hsize ▸ Nat.le_succ_of_le h.since,
    ?task, ?fresh, ?timer, ?timers, ?turn, ?watcher, ?unwatched⟩
  case outside =>
    rw [errandOf_entering, if_neg (Nat.ne_of_lt h.size)]
    exact h.outside
  case task =>
    intro id t ht hid
    by_cases hsize : id = s.tasks.size
    · subst hsize
      obtain rfl : _ = t := by simpa [hnew] using ht
      exact hsound
    · rw [hother hsize] at ht
      refine hgrows.taskSound (h.task id t ht hid) rfl rfl (.inl rfl) ?_
      rintro fetch (hwatch | htell | hrun)
      · exact .inl ((watchersOf_entering fetch).symm ▸ hwatch)
      · exact .inr (.inl (List.mem_append_left _ htell))
      · exact .inr (.inr (List.mem_append_left _ hrun))
  case fresh =>
    intro id t description ht hfresh hid
    change (s.ready ++ [Turn.run s.tasks.size]).count (Turn.run id) = 1
    rw [List.count_append]
    by_cases hsize : id = s.tasks.size
    · subst hsize
      rw [hunasked, List.count_singleton_self]
    · rw [hother hsize] at ht
      rw [h.fresh id t description ht hfresh hid, List.count_eq_zero.mpr]
      simpa using hsize
  case timer =>
    intro id t ht
    by_cases hsize : id = s.tasks.size
    · subst hsize
      obtain rfl : _ = t := by simpa [hnew] using ht
      intro htimer
      cases htimer
    · exact h.timer id t ((hother hsize).symm.trans ht)
  case timers =>
    exact fun timer hmem => (h.timers timer hmem).moves hgrows fun t ht => ⟨t, hold ht, .refl t⟩
  case turn =>
    intro turn hmem
    rcases List.mem_append.mp hmem with hmem | hmem
    · exact hgrows.turnSound (h.turn turn hmem) fun id t _ ht => ⟨t, hold ht, .refl t⟩
    · rw [List.mem_singleton.mp hmem]
      refine ⟨_, hnew, Nat.pos_iff_ne_zero.mp h.size, ?_⟩
      intro fetch next hjoins
      cases hjoins
  case watcher =>
    intro fetch watcher hwatcher
    rw [watchersOf_entering] at hwatcher
    exact (h.watcher fetch watcher hwatcher).moves fun id t _ ht => ⟨t, hold ht, .refl t⟩
  case unwatched =>
    intro id hended
    rw [hasEnded_entering] at hended
    rw [watchersOf_entering]
    exact h.unwatched id hended

/-- **A new call.** -/
theorem Sound.call (h : Sound ledger s none) {call : ServiceCall} (hlookup : call.isLookup = true) :
    Sound ledger (entering s (.call call) s.state) none := by
  have hgrows : Grows s (entering s (.call call) s.state) := grows_entering (.refl _)
  refine ⟨h.tasks.entering (.refl _) (.asked call rfl hlookup rfl),
    h.world.grows hgrows rfl, h.table.keys, ?_, ?_⟩
  · intro key fetch hmem
    obtain ⟨⟨spelling, herrand, hkey⟩, hended, hlive⟩ := h.table.listed key fetch hmem
    refine ⟨⟨spelling, hgrows.errand herrand, hkey⟩, fun hnow => ?_, hlive⟩
    rw [hasEnded_entering] at hnow
    exact List.mem_append_left _ (hended hnow)
  · intro fetch spelling herrand hgoing
    rw [hasEnded_entering] at hgoing
    rw [errandOf_entering] at herrand
    split at herrand
    · cases herrand
    · exact h.table.complete fetch spelling herrand hgoing

/-- **A new fetch** for a package of which no fetch is listed. -/
theorem Sound.fetch (h : Sound ledger s running) {name : String}
    (hfree : ∀ fetch, (Work.normalized name, fetch) ∉ s.state.service.inFlight) :
    Sound ledger (entering s (.fetch name) (Work.enlist (Work.normalized name) s.tasks.size s.state))
      running := by
  have hgrows : Grows s
      (entering s (.fetch name) (Work.enlist (Work.normalized name) s.tasks.size s.state)) :=
    grows_entering (.refl _)
  have hold : ¬ ledger.old s.tasks.size := fun hold =>
    Nat.not_lt.mpr h.tasks.since (ledger.old_lt _ hold)
  refine ⟨h.tasks.entering (.refl _) (.begun name rfl rfl rfl),
    ⟨h.world.base, h.world.past, h.world.cache.mono fun _ _ _ _ => hgrows.entrySound⟩, ?_, ?_, ?_⟩
  · change ((s.state.service.inFlight ++ [(Work.normalized name, s.tasks.size)]).map Prod.fst).Nodup
    rw [List.map_append, List.nodup_append]
    refine ⟨h.table.keys, by simp, ?_⟩
    rintro key hkey other hother rfl
    obtain ⟨⟨_, fetch⟩, hmem, rfl⟩ := List.mem_map.mp hkey
    obtain rfl := List.mem_singleton.mp hother
    exact hfree fetch hmem
  · intro key fetch hmem
    rcases List.mem_append.mp hmem with hmem | hmem
    · obtain ⟨⟨spelling, herrand, hkey⟩, hended, hlive⟩ := h.table.listed key fetch hmem
      refine ⟨⟨spelling, hgrows.errand herrand, hkey⟩, fun hnow => ?_, hlive⟩
      rw [hasEnded_entering] at hnow
      exact List.mem_append_left _ (hended hnow)
    · obtain ⟨rfl, rfl⟩ : key = _ ∧ fetch = _ := by simpa using hmem
      refine ⟨⟨name, ?_, rfl⟩, fun hnow => ?_, fun h => absurd h hold⟩
      · rw [errandOf_entering, if_pos rfl]
      · rw [Scheduler.hasEnded_iff, resultOf_entering, Scheduler.resultOf_of_none _ (by simp)] at hnow
        exact absurd rfl hnow
  · intro fetch spelling herrand hgoing
    rw [hasEnded_entering] at hgoing
    rw [errandOf_entering] at herrand
    split at herrand
    · next hfetch =>
      cases herrand
      exact List.mem_append_right _ (hfetch ▸ List.mem_cons_self)
    · exact List.mem_append_left _ (h.table.complete fetch spelling herrand hgoing)

end Entering

/-! ### Turns -/

section Turns

variable {rest ready : List Turn} {world : World}

/-- The tasks stay sound when the turns that were asked for change, as long as whoever waits is still going to be
woken and every turn has its reason. -/
theorem TasksSound.requeue (h : TasksSound ledger s none) (hnotes : s.state.Notes world)
    (htell : ∀ id, running ≠ some id → .tell id ∈ s.ready → .tell id ∈ ready ∨ .run id ∈ ready)
    (hrun : ∀ id, running ≠ some id → .run id ∈ s.ready → .run id ∈ ready)
    (hcount : ∀ (id : Nat) t description, s.tasks[id]? = some t → t.status = .fresh description →
      running ≠ some id → ready.count (.run id) = s.ready.count (.run id))
    (hturn : ∀ turn ∈ ready, TurnSound s turn) :
    TasksSound ledger { s with ready, state := world } running := by
  have hgrows : Grows s { s with ready, state := world } := ⟨id, fun _ => rfl, hnotes⟩
  have hstays : ∀ id, Stays s { s with ready, state := world } id := fun _ => .of_eq rfl
  refine ⟨h.size, h.outside, h.since, ?task, ?fresh, h.timer, ?timers, ?turn, ?watcher, h.unwatched⟩
  case task =>
    intro id t ht hid
    refine hgrows.taskSound (h.task id t ht (by simp)) rfl rfl (.inl rfl) ?_
    rintro fetch (hwatch | hasked | hasked)
    · exact .inl hwatch
    · exact .inr (htell id hid hasked)
    · exact .inr (.inr (hrun id hid hasked))
  case fresh =>
    exact fun id t description ht hfresh hid =>
      (hcount id t description ht hfresh hid).trans (h.fresh id t description ht hfresh (by simp))
  case timers =>
    exact fun timer hmem => (h.timers timer hmem).moves hgrows (hstays _).moves
  case turn =>
    exact fun turn hmem => hgrows.turnSound (hturn turn hmem) fun id t _ => (hstays id).moves t
  case watcher =>
    exact fun fetch watcher hmem => (h.watcher fetch watcher hmem).moves fun id t _ => (hstays id).moves t

/-- **A turn of a task begins**: from then on it is left open how far the task is. Who begins at all is heard of
nowhere else. -/
theorem Sound.run (h : Sound ledger s none) {id : Nat} (hperm : s.ready.Perm (.run id :: rest)) :
    Sound ledger { s with ready := rest } (some id) ∧
      ∃ t, s.tasks[id]? = some t ∧ id ≠ 0 ∧ MayRun s t ∧ TaskSound ledger s id t ∧
        ∀ description, t.status = .fresh description → Unheard { s with ready := rest } id := by
  have hmem : ∀ {turn}, turn ∈ s.ready → turn ≠ .run id → turn ∈ rest := fun hmem hne =>
    (List.mem_cons.mp (hperm.mem_iff.mp hmem)).resolve_left hne
  have hsub : ∀ {turn}, turn ∈ rest → turn ∈ s.ready := fun hmem =>
    hperm.mem_iff.mpr (List.mem_cons_of_mem _ hmem)
  refine ⟨⟨?_, ⟨h.world.base, h.world.past, h.world.cache⟩,
    h.table.kept rfl (fun _ => rfl) (fun _ => rfl) fun _ hnews => hmem hnews (by simp)⟩, ?_⟩
  · refine h.tasks.requeue (.refl _) ?_ ?_ ?_ fun turn hturn => h.tasks.turn turn (hsub hturn)
    · exact fun other _ hasked => .inl (hmem hasked (by simp))
    · exact fun other hother hasked => hmem hasked fun heq => hother (congrArg some (Turn.run.inj heq).symm)
    · intro other t description ht hfresh hother
      have hne : id ≠ other := fun heq => hother (congrArg some heq)
      rw [hperm.count_eq, List.count_cons_of_ne (by simpa using hne)]
  · obtain ⟨t, ht, hid, hrun⟩ := h.tasks.turn _ (hperm.mem_iff.mpr List.mem_cons_self)
    refine ⟨t, ht, hid, hrun, h.tasks.task id t ht (by simp), fun description hfresh => ⟨?_, ?_, ?_⟩⟩
    · have hone := h.tasks.fresh id t description ht hfresh (by simp)
      rw [hperm.count_eq, List.count_cons_self] at hone
      exact List.count_eq_zero.mp (Nat.succ.inj hone)
    · intro hasked
      obtain ⟨u, hu, -, -, hbegun⟩ := h.tasks.turn _ (hsub hasked)
      obtain rfl : t = u := by simpa [ht] using hu
      exact hbegun description hfresh
    · intro fetch hwatch
      obtain ⟨other, u, hwaiter, hu, -, hbegun, -⟩ := h.tasks.watcher fetch _ hwatch
      cases hwaiter
      obtain rfl : t = u := by simpa [ht] using hu
      exact hbegun description hfresh

/-- **News** of the end of a fetch: who waited for it gets a turn. -/
theorem Sound.tell (h : Sound ledger s none) {id : Nat} (hperm : s.ready.Perm (.tell id :: rest)) :
    Sound ledger { s with ready := rest ++ [.run id] } none := by
  have hmem : ∀ {turn}, turn ∈ s.ready → turn ≠ .tell id → turn ∈ rest ++ [.run id] := fun hmem hne =>
    List.mem_append_left _ ((List.mem_cons.mp (hperm.mem_iff.mp hmem)).resolve_left hne)
  obtain ⟨t, ht, hid, hrun, hbegun⟩ := h.tasks.turn _ (hperm.mem_iff.mpr List.mem_cons_self)
  refine ⟨h.tasks.requeue (.refl _) ?_ ?_ ?_ ?_, ⟨h.world.base, h.world.past, h.world.cache⟩,
    h.table.kept rfl (fun _ => rfl) (fun _ => rfl) fun _ hnews => hmem hnews (by simp)⟩
  · intro other _ hasked
    by_cases hother : other = id
    · rw [hother]
      exact .inr (List.mem_append_right _ List.mem_cons_self)
    · exact .inl (hmem hasked (by simpa using hother))
  · exact fun other _ hasked => hmem hasked (by simp)
  · intro other u description hu hfresh _
    have hother : id ≠ other := by
      rintro rfl
      obtain rfl : t = u := by simpa [ht] using hu
      exact hbegun description hfresh
    have hnone : List.count (Turn.run other) [Turn.run id] = 0 :=
      List.count_eq_zero.mpr (by simpa using Ne.symm hother)
    rw [hperm.count_eq, List.count_cons_of_ne (by simp), List.count_append, hnone, Nat.add_zero]
  · intro turn hturn
    rcases List.mem_append.mp hturn with hturn | hturn
    · exact h.tasks.turn turn (hperm.mem_iff.mpr (List.mem_cons_of_mem _ hturn))
    · rw [List.mem_singleton.mp hturn]
      exact ⟨t, ht, hid, hrun⟩

/-- **A fetch is forgotten** that has ended. -/
theorem Sound.ended (h : Sound ledger s none) {id : Nat} (hperm : s.ready.Perm (.ended id :: rest)) :
    Sound ledger { s with ready := rest, state := Work.program.onEnd id s.state } none := by
  have hmem : ∀ {turn}, turn ∈ s.ready → turn ≠ .ended id → turn ∈ rest := fun hmem hne =>
    (List.mem_cons.mp (hperm.mem_iff.mp hmem)).resolve_left hne
  have hnotes : s.state.Notes (Work.program.onEnd id s.state) := .refl _
  have hgrows : Grows s { s with ready := rest, state := Work.program.onEnd id s.state } :=
    ⟨fun h => h, fun _ => rfl, hnotes⟩
  have hfilter : (Work.program.onEnd id s.state).service.inFlight
      = s.state.service.inFlight.filter (·.2 != id) := rfl
  have hended : s.hasEnded id = true := h.tasks.turn _ (hperm.mem_iff.mpr List.mem_cons_self)
  refine ⟨?tasks, ⟨h.world.base, h.world.past, h.world.cache.mono fun _ _ _ _ => hgrows.entrySound⟩,
    ?keys, ?listed, ?complete⟩
  case tasks =>
    refine h.tasks.requeue hnotes ?_ ?_ ?_ ?_
    · exact fun other _ hasked => .inl (hmem hasked (by simp))
    · exact fun other _ hasked => hmem hasked (by simp)
    · intro other t description ht hfresh _
      rw [hperm.count_eq, List.count_cons_of_ne (by simp)]
    · exact fun turn hturn => h.tasks.turn turn (hperm.mem_iff.mpr (List.mem_cons_of_mem _ hturn))
  case keys =>
    rw [hfilter]
    exact h.table.keys.sublist (List.filter_sublist.map Prod.fst)
  case listed =>
    intro key fetch hlisted
    rw [hfilter] at hlisted
    obtain ⟨hlisted, hne⟩ := List.mem_filter.mp hlisted
    obtain ⟨herrand, hfetch, hlive⟩ := h.table.listed key fetch hlisted
    exact ⟨herrand, fun hnow => hmem (hfetch hnow) fun heq => by simp [Turn.ended.inj heq] at hne, hlive⟩
  case complete =>
    intro fetch spelling herrand hgoing
    rw [hfilter]
    refine List.mem_filter.mpr ⟨h.table.complete fetch spelling herrand hgoing, ?_⟩
    have hne : fetch ≠ id := by
      rintro rfl
      have hgoing : s.hasEnded fetch = false := hgoing
      rw [hended] at hgoing
      cases hgoing
    simpa using hne

end Turns

/-! ### A sign to a task -/

/-- What a sign does to a task: its timer is off, and it may have been given up if it is a call. -/
structure IsSign (t : TaskState World Errand Outcome)
    (f : TaskState World Errand Outcome → TaskState World Errand Outcome) : Prop where
  status : ∀ u, (f u).status = u.status
  errand : ∀ u, (f u).errand = u.errand
  watchers : ∀ u, (f u).watchers = u.watchers
  timer : ∀ u, (f u).timer = none
  cancelled : (∀ u, (f u).isCancelled = u.isCancelled) ∨
    (∃ call, t.errand = some (.call call)) ∧ ∀ u, (f u).isCancelled = true

/-- The run in which a task has been given a sign and turns have been asked for. -/
def signed (s : ServiceRun) (id : Nat) (f : TaskState World Errand Outcome → TaskState World Errand Outcome)
    (asked : List Turn) : ServiceRun :=
  { s.modifyTask id f with ready := s.ready ++ asked }

section Signed

variable {id : Nat} {t : TaskState World Errand Outcome}
  {f : TaskState World Errand Outcome → TaskState World Errand Outcome} {asked : List Turn}

theorem signed_self (ht : s.tasks[id]? = some t) : (signed s id f asked).tasks[id]? = some (f t) :=
  Scheduler.modifyTask_self ht

theorem signed_of_ne {other : Nat} (hne : other ≠ id) :
    (signed s id f asked).tasks[other]? = s.tasks[other]? := Scheduler.modifyTask_of_ne hne

section Sign

variable (hf : IsSign t f)

include hf

theorem errandOf_signed (other : Nat) : (signed s id f asked).errandOf other = s.errandOf other :=
  Scheduler.errandOf_modifyTask hf.errand other

theorem resultOf_signed (other : Nat) : (signed s id f asked).resultOf other = s.resultOf other :=
  Scheduler.resultOf_modifyTask hf.status other

theorem hasEnded_signed (other : Nat) : (signed s id f asked).hasEnded other = s.hasEnded other := by
  rw [Scheduler.hasEnded, resultOf_signed hf, Scheduler.hasEnded]

theorem watchersOf_signed (other : Nat) : (signed s id f asked).watchersOf other = s.watchersOf other :=
  Scheduler.watchersOf_modifyTask hf.watchers other

theorem grows_signed : Grows s (signed s id f asked) :=
  ⟨fun hknown => (errandOf_signed hf _).trans hknown, fun _ => resultOf_signed hf _, .refl _⟩

theorem moves_signed (ht : s.tasks[id]? = some t) (other : Nat) (u : TaskState World Errand Outcome)
    (hu : s.tasks[other]? = some u) : ∃ u', (signed s id f asked).tasks[other]? = some u' ∧ Moves u u' := by
  by_cases hne : other = id
  · subst hne
    obtain rfl : t = u := by simpa [ht] using hu
    refine ⟨f t, signed_self ht, .inl ⟨hf.status t, fun hgone => ?_⟩⟩
    rcases hf.cancelled with hkept | ⟨-, hnow⟩
    · exact (hkept t).trans hgone
    · exact hnow t
  · exact ⟨u, (signed_of_ne hne).trans hu, .refl u⟩

theorem awaits_signed {other fetch : Nat} (h : Awaits s other fetch) : Awaits (signed s id f asked) other fetch := by
  rcases h with hwatch | htell | hrun
  · exact .inl ((watchersOf_signed hf fetch).symm ▸ hwatch)
  · exact .inr (.inl (List.mem_append_left _ htell))
  · exact .inr (.inr (List.mem_append_left _ hrun))

theorem TasksSound.signed (h : TasksSound ledger s none) (ht : s.tasks[id]? = some t) (hid : id ≠ 0)
    (hasked : asked = [] ∨ asked = [.run id] ∧ HasBegun t ∧ MayRun s (f t)) :
    TasksSound ledger (ManifestLens.signed s id f asked) none := by
  have hgrows : Grows s (ManifestLens.signed s id f asked) := grows_signed hf
  have hself : (ManifestLens.signed s id f asked).tasks[id]? = some (f t) := signed_self ht
  have hsize : (ManifestLens.signed s id f asked).tasks.size = s.tasks.size := by
    simp [ManifestLens.signed, Scheduler.modifyTask]
  refine ⟨hsize ▸ h.size, (errandOf_signed hf 0).trans h.outside, hsize ▸ h.since,
    ?task, ?fresh, ?timer, ?timers, ?turn, ?watcher, ?unwatched⟩
  case task =>
    intro other u hu _
    by_cases hne : other = id
    · subst hne
      obtain rfl : f t = u := by simpa [hself] using hu
      refine hgrows.taskSound (h.task other t ht (by simp)) (hf.status t) (hf.errand t) ?_
        fun _ => awaits_signed hf
      exact hf.cancelled.imp (fun hkept => hkept t) And.left
    · rw [signed_of_ne hne] at hu
      exact hgrows.taskSound (h.task other u hu (by simp)) rfl rfl (.inl rfl) fun _ => awaits_signed hf
  case fresh =>
    intro other u description hu hfresh _
    change (s.ready ++ asked).count (.run other) = 1
    rw [List.count_append]
    by_cases hne : other = id
    · subst hne
      obtain rfl : f t = u := by simpa [hself] using hu
      rw [hf.status] at hfresh
      rcases hasked with rfl | ⟨-, hbegun, -⟩
      · exact h.fresh other t description ht hfresh (by simp)
      · exact absurd hfresh (hbegun description)
    · rw [signed_of_ne hne] at hu
      rw [h.fresh other u description hu hfresh (by simp), List.count_eq_zero.mpr]
      rcases hasked with rfl | ⟨rfl, -⟩
      · exact List.not_mem_nil
      · simpa using hne
  case timer =>
    intro other u hu
    by_cases hne : other = id
    · subst hne
      obtain rfl : f t = u := by simpa [hself] using hu
      intro hset
      rw [hf.timer] at hset
      cases hset
    · exact h.timer other u ((signed_of_ne hne).symm.trans hu)
  case timers =>
    exact fun timer hmem => (h.timers timer hmem).moves hgrows fun u => moves_signed hf ht _ u
  case turn =>
    intro turn hmem
    rcases List.mem_append.mp hmem with hmem | hmem
    · exact hgrows.turnSound (h.turn turn hmem) fun other u _ => moves_signed hf ht other u
    · rcases hasked with rfl | ⟨rfl, -, hrun⟩
      · cases hmem
      · rw [List.mem_singleton.mp hmem]
        exact ⟨f t, hself, hid, hgrows.mayRun hrun rfl fun h => h⟩
  case watcher =>
    intro fetch watcher hwatcher
    rw [watchersOf_signed hf] at hwatcher
    exact (h.watcher fetch watcher hwatcher).moves fun other u _ => moves_signed hf ht other u
  case unwatched =>
    intro other hnow
    rw [hasEnded_signed hf] at hnow
    rw [watchersOf_signed hf]
    exact h.unwatched other hnow

/-- **A sign to a task**: its timer has gone off, or somebody has given up waiting for it. -/
theorem Sound.signed (h : Sound ledger s none) (ht : s.tasks[id]? = some t) (hid : id ≠ 0)
    (hasked : asked = [] ∨ asked = [.run id] ∧ HasBegun t ∧ MayRun s (f t)) :
    Sound ledger (ManifestLens.signed s id f asked) none :=
  ⟨h.tasks.signed hf ht hid hasked, h.world.grows (grows_signed hf) rfl,
    h.table.kept rfl (errandOf_signed hf) (hasEnded_signed hf) fun _ => List.mem_append_left _⟩

end Sign

end Signed

end ManifestLens
