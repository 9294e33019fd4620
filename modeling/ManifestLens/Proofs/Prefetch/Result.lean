import ManifestLens.Proofs.Prefetch.Soundness
import Mathlib

/-!
# What a prefetch comes to

Each stage of a task has a rank, and every turn of a task leads to a lower one, also where it starts a fetch: the rank
of a visit that has a slot covers all attempts of a fetch. So a prefetch ends. Its results are those that the visits
have left with, the names are those of the visits, and the seats bound the requests that are open.
-/

namespace ManifestLens

/-! ### How much there is still to do -/

namespace Prefetch

variable (p : Prefetch)

/-- How much there is still to do for the tasks. -/
def load (stage : Nat → Stage) (size : Nat) : Nat := ∑ id ∈ Finset.range size, (stage id).rank p.attempts

/-- The run is sound when no task has its turn, and less is left to do than there was. -/
def Advances (stage : Nat → Stage) (size : Nat) (s : ServiceRun) : Prop :=
  ∃ g : Account, p.Sound g none s ∧ p.load g.stage s.tasks.size < p.load stage size

variable {p} {stage : Nat → Stage} {size id : Nat} {next : Stage}

theorem load_update (hid : id < size) : p.load (Function.update stage id next) size + (stage id).rank p.attempts =
    p.load stage size + next.rank p.attempts := by
  have hmem : id ∈ Finset.range size := Finset.mem_range.mpr hid
  have hothers : ∑ other ∈ (Finset.range size).erase id, (Function.update stage id next other).rank p.attempts =
      ∑ other ∈ (Finset.range size).erase id, (stage other).rank p.attempts :=
    Finset.sum_congr rfl fun other hother => by rw [Function.update_of_ne (Finset.ne_of_mem_erase hother)]
  rw [load, load, ← Finset.add_sum_erase _ _ hmem, ← Finset.add_sum_erase _ _ hmem, hothers, Function.update_self]
  omega

theorem load_update_lt (hid : id < size) (hrank : next.rank p.attempts < (stage id).rank p.attempts) :
    p.load (Function.update stage id next) size < p.load stage size := by
  have hupdate : p.load (Function.update stage id next) size + (stage id).rank p.attempts =
    p.load stage size + next.rank p.attempts := load_update hid
  omega

end Prefetch

theorem World.cached_slots (world : World) (now : Binary64) (key : String) :
    (world.cached now key).2.slots = world.slots := by
  simp only [cached]
  split <;> rfl

theorem Work.kept_eq (view : Lookup) (name : String) (result : TaskResult Outcome) (now : Binary64) (world : World) :
    (kept view name result now world).slots = world.slots ∧
      (kept view name result now world).received = world.received := by
  unfold kept
  split <;> exact ⟨rfl, rfl⟩

theorem Work.noted_receive {past : Nat} {world : World} (hpast : past ≤ world.received.length) (moment : Moment)
    (request : SentRequest) (answer : IndexAnswer) :
    Noted past request (world.receive moment request answer) answer := by
  refine ⟨moment.now, ?_⟩
  have hdrop : (world.receive moment request answer).received.drop past =
      world.received.drop past ++ [⟨moment.now, request, answer⟩] := List.drop_append_of_le_length hpast
  rw [hdrop]
  simp

theorem Scheduler.size_sleeping {σ δ ρ : Type} {s : Scheduler σ δ ρ} {id : Nat} {seconds : Number}
    {paused : Paused σ δ ρ ρ} : ((s.lullTo id seconds).pausing id paused).tasks.size = s.tasks.size := by
  rw [pausing, size_modifyTask, lullTo]
  split
  · rfl
  · exact size_modifyTask

namespace Prefetch.Sound

variable {p : Prefetch} {g : Account} {running : Option Nat} {s s' : ServiceRun} {id fetch : Nat} {next : Stage}
  {name spelling : String} {rest : List Turn}

/-- The answer to an attempt of a fetch is there. -/
theorem receiving (h : p.Sound g (some id) s) {answers : List IndexAnswer} {answer : IndexAnswer}
    (hwaiting : g.stage id = .waiting spelling answers answer) : p.Advances g.stage s.tasks.size <|
      s.proceed id <|
        Work.receiving (p.plan spelling) (answers.length + 1) (p.attempts - (answers.length + 1)) answer := by
  have hspelling : (g.stage id).spelling? = some spelling := by rw [hwaiting]; rfl
  have hgoing : (g.stage id).hasEnded = false := by rw [hwaiting]; rfl
  have hid := (h.roster.bounds (Stage.inside_of_spelling hspelling)).2
  obtain ⟨hasks, hserves⟩ : p.AsksOn s.state spelling answers ∧
      p.ServesAll ((p.plan spelling).outcome p.start.state.today answer) := by
    have hstage := h.world.stages id
    rwa [hwaiting] at hstage
  have hnotes : s.state.Notes (s.state.receive ⟨s.now, id⟩ (p.plan spelling).request answer) := List.prefix_append _ _
  have hnoted : ∀ other ∈ answer :: answers, Work.Noted p.start.state.received.length (p.plan spelling).request
      (s.state.receive ⟨s.now, id⟩ (p.plan spelling).request answer) other := by
    intro other hother
    rcases List.mem_cons.mp hother with rfl | hbefore
    · exact Work.noted_receive h.world.notes.length_le _ _ _
    · exact (hasks.noted other hbefore).mono hnotes
  have hrank : (g.stage id).rank p.attempts = 2 * (p.attempts - answers.length) - 1 := by rw [hwaiting]; rfl
  have hleft := hasks.within_attempts
  rw [ServiceRun.proceed_receiving, h.world.today]
  cases hverdict : (p.plan spelling).verdict p.start.state.today (answers.length + 1) answer with
  | finished result =>
      have hbrings : p.start.Brings (s.state.receive ⟨s.now, id⟩ (p.plan spelling).request answer) spelling
          ((p.plan spelling).outcome p.start.state.today answer) :=
        ⟨answers, answer, ⟨hasks.open_until, hleft, RequestPlan.settles_of_finished hverdict⟩, hnoted, rfl⟩
      have hworld : Surroundings p (Function.update g.stage id (.fetched spelling
          ((p.plan spelling).outcome p.start.state.today answer)))
          (s.state.receive ⟨s.now, id⟩ (p.plan spelling).request answer) :=
        h.world.receives hwaiting rfl rfl s.now ⟨hbrings, hserves⟩
      have hreceived := h.fetchGoesOn hspelling hgoing rfl hworld rfl
      rw [RequestPlan.outcome, RequestPlan.classify_of_finished hverdict] at hreceived
      refine ⟨_, hreceived.fetchEnds (Function.update_self ..), ?_⟩
      rw [Scheduler.size_finish]
      exact load_update_lt hid (by rw [hrank]; simp only [Stage.rank]; omega)
  | retry wait error =>
      obtain ⟨hopen, hmore⟩ := RequestPlan.not_settles_of_retry hverdict
      have hanswers : p.AsksOn (s.state.receive ⟨s.now, id⟩ (p.plan spelling).request answer) spelling
          (answer :: answers) := ⟨hmore, List.forall_mem_cons.mpr ⟨hopen, hasks.open_until⟩, hnoted⟩
      have hreceived : Surroundings p (Function.update g.stage id (.asking spelling (answer :: answers)))
          (s.state.receive ⟨s.now, id⟩ (p.plan spelling).request answer) :=
        h.world.receives hwaiting rfl rfl s.now hanswers
      have hretried : Surroundings p (Function.update g.stage id (.asking spelling (answer :: answers)))
          ((s.received id (p.plan spelling).request answer).retried (p.plan spelling) (answers.length + 1) wait
            error).state := hreceived.alike_of_service ⟨rfl, rfl, rfl, rfl, rfl, rfl, rfl⟩ rfl
      have hself : (g.move id (.asking spelling (answer :: answers))).stage id = .asking spelling (answer :: answers) :=
        Function.update_self ..
      have hgone := h.fetchGoesOn hspelling hgoing rfl hretried rfl
      refine ⟨_, hgone.sleeps (by rw [hself]; rfl) wait (by rw [hself]; rfl), ?_⟩
      rw [Scheduler.size_sleeping]
      exact load_update_lt hid (by rw [hrank]; simp only [Stage.rank, List.length_cons]; omega)

/-- A fetch makes an attempt. -/
theorem fetching (h : p.Sound g (some id) s) {answers : List IndexAnswer}
    (hasking : g.stage id = .asking spelling answers) : p.Advances g.stage s.tasks.size
      (s.proceed id (Work.fetching (p.plan spelling) (answers.length + 1) (p.attempts - answers.length))) := by
  have hspelling : (g.stage id).spelling? = some spelling := by rw [hasking]; rfl
  have hgoing : (g.stage id).hasEnded = false := by rw [hasking]; rfl
  have hid := (h.roster.bounds (Stage.inside_of_spelling hspelling)).2
  have hleft : answers.length < p.attempts := by
    have hstage := h.world.stages id
    rw [hasking] at hstage
    exact hstage.within_attempts
  have hrank : (g.stage id).rank p.attempts = 2 * (p.attempts - answers.length) := by rw [hasking]; rfl
  generalize hanswer : (s.state.send id (p.plan spelling).request).1.answer = answer
  have hworld : Surroundings p (Function.update g.stage id (.waiting spelling answers answer))
      (s.state.send id (p.plan spelling).request).2 := hanswer ▸ h.world.sends h.roster h.seats hasking
  have hself : (g.move id (.waiting spelling answers answer)).stage id = .waiting spelling answers answer :=
    Function.update_self ..
  have hsent : p.Sound (g.move id (.waiting spelling answers answer)) (some id) (s.sent id (p.plan spelling).request) :=
    h.fetchGoesOn hspelling hgoing rfl hworld rfl
  have hrank' : (Stage.waiting spelling answers answer).rank p.attempts < (g.stage id).rank p.attempts := by
    rw [hrank]
    simp only [Stage.rank]
    omega
  rw [show p.attempts - answers.length = (p.attempts - (answers.length + 1)) + 1 from by omega,
    ServiceRun.proceed_fetching]
  simp only [hanswer]
  split
  · refine ⟨_, hsent.sleeps (by rw [hself]; rfl) _ (by rw [hself]; rfl), ?_⟩
    rw [Scheduler.size_sleeping]
    exact load_update_lt hid hrank'
  · obtain ⟨g', hsound, hload⟩ := hsent.receiving hself
    exact ⟨g', hsound, hload.trans (load_update_lt hid hrank')⟩

/-- The result of a task that does not have its turn is that of its stage. -/
theorem exists_status (h : p.Sound g running s) (hinside : g.stage id ≠ .outside) (hrunning : running ≠ some id) :
    ∃ status, p.statusOf (g.stage id) = some status ∧ s.resultOf id = status.result := by
  obtain ⟨t, ht, hat⟩ := h.exists_task hinside
  exact ⟨t.status, hat.status hrunning, Scheduler.resultOf_of_getElem? _ ht⟩

theorem hasEnded_iff (h : p.Sound g running s) (hinside : g.stage id ≠ .outside) (hrunning : running ≠ some id) :
    s.hasEnded id = true ↔ (g.stage id).hasEnded = true := by
  obtain ⟨status, hstatus, hresult⟩ := h.exists_status hinside hrunning
  rw [Scheduler.hasEnded_iff, hresult, Prefetch.result_of_statusOf hstatus]

/-- A fetch has its result once it has ended. -/
theorem exists_fetched (h : p.Sound g running s) (hspelling : (g.stage id).spelling? = some spelling)
    (hended : (g.stage id).hasEnded = true) (hrunning : running ≠ some id) :
    ∃ result, g.stage id = .fetched spelling result ∧ s.resultOf id = .finished (result.map .document) := by
  cases hstage : g.stage id with
  | fetched found result =>
      rw [hstage] at hspelling
      obtain rfl : found = spelling := Option.some.inj hspelling
      have hinside : g.stage id ≠ .outside := by rw [hstage]; exact nofun
      obtain ⟨status, hstatus, hresult⟩ := h.exists_status hinside hrunning
      rw [hstage] at hstatus
      obtain rfl := Option.some.inj hstatus
      exact ⟨result, rfl, hresult⟩
  | _ => rw [hstage] at hspelling hended; first | (cases hspelling; done) | cases hended

/-! ### Turns of a visit, together -/

/-- A visit that is looking up its view leaves with what it obtains. -/
theorem leaving (h : p.Sound g (some id) s) (hsits : (g.stage id).sits = true)
    (hvisitor : (g.stage id).visitor? = some name)
    (hheard : ∀ found fetch, g.stage id = .joining found fetch → (g.stage fetch).hasEnded = true)
    {result : Except IndexError PackageOverview} (hobtains : p.start.Obtains p.names p.admits s.state name result) :
    p.Advances g.stage s.tasks.size (s.proceed id (Work.leave name p.index (result.mapError .index))) := by
  rw [ServiceRun.proceed_leave h.slots]
  refine ⟨_, h.leaves hsits hvisitor hheard hobtains, ?_⟩
  rw [Scheduler.size_finish, Scheduler.rouse_eq]
  refine load_update_lt (h.roster.bounds (Stage.inside_of_visitor hvisitor)).2 ?_
  cases hstage : g.stage id <;> rw [hstage] at hsits <;> first | exact Nat.succ_pos _ | cases hsits

/-- A visit that is looking up its view goes on with the result of a fetch of its package. -/
theorem attending (h : p.Sound g (some id) s) (hsits : (g.stage id).sits = true)
    (hvisitor : (g.stage id).visitor? = some name)
    (hheard : ∀ found fetch, g.stage id = .joining found fetch → (g.stage fetch).hasEnded = true)
    {result : Except Fault (List (String × Json))} (hfetched : g.stage fetch = .fetched spelling result)
    (hpackage : Work.normalized spelling = Work.normalized name) : p.Advances g.stage s.tasks.size
      (s.proceed id (Work.attend p.view name p.index (.finished (result.map .document)))) := by
  obtain ⟨visit, hvisit, -⟩ := h.roster.named fetch spelling (by rw [hfetched]; rfl)
  obtain ⟨served, hserved, hobtains, hworld⟩ :=
    h.world.concludes hfetched hvisit.mem ((h.roster.visits id name).mp hvisitor).mem hpackage s.now
  obtain ⟨hslots, hreceived⟩ := Work.kept_eq p.view name (.finished (result.map .document)) s.now s.state
  rw [ServiceRun.proceed_attend, hserved]
  exact (h.withState hworld hslots).leaving hsits hvisitor hheard (hobtains.mono (.of_eq hreceived))

/-- A visit that has a slot waits for a fetch that goes on. -/
theorem waits (h : p.Sound g (some id) s) (hseated : g.stage id = .seated name)
    (hspelling : (g.stage fetch).spelling? = some spelling) (hgoing : (g.stage fetch).hasEnded = false)
    (hpackage : Work.normalized spelling = Work.normalized name) : p.Advances g.stage s.tasks.size
      (joining s id fetch (Work.attend p.view name p.index)) := by
  have hvisitor : (g.stage id).visitor? = some name := by rw [hseated]; rfl
  have hid := (h.roster.bounds (Stage.inside_of_visitor hvisitor)).2
  have hne : fetch ≠ id := by
    rintro rfl
    rw [hseated] at hspelling
    cases hspelling
  have hgoes : GoesOn g.stage id (.joining name fetch) := goesOn_of_eq hseated rfl rfl nofun nofun nofun
  have hfetch : (g.move id (.joining name fetch)).stage fetch = g.stage fetch := Function.update_of_ne hne ..
  have hjoining : p.Sound (g.move id (.joining name fetch)) (some id) { s with state := s.state } := by
    refine h.goesOn hgoes (by rw [hseated]; exact nofun) (by rw [hseated]; exact nofun) (fun _ _ hjoining => ?_)
      (by rw [hseated]; exact False.elim) (by rw [hseated]; exact False.elim) (by rw [hseated]; rfl)
      (by rw [hseated]; rfl) rfl (by rw [hseated]; exact fun _ _ => rfl)
      (h.world.goesOn hgoes (by rw [hseated]; rfl) trivial) rfl
    cases hjoining
    exact ⟨spelling, hspelling, hpackage⟩
  refine ⟨_, hjoining.joins (Function.update_self ..) (by rw [hfetch, hgoing]), ?_⟩
  rw [joining, Scheduler.size_modifyTask, Scheduler.watch, Scheduler.size_modifyTask]
  exact load_update_lt hid (by rw [hseated]; simp only [Stage.rank]; omega)

/-- A visit that has a slot starts a fetch and waits for it. -/
theorem starts (h : p.Sound g (some id) s) (hseated : g.stage id = .seated name) : p.Advances g.stage s.tasks.size
    (joining (entering s (.fetch name) (Work.enlist (Work.normalized name) s.tasks.size s.state)) id s.tasks.size
      (Work.attend p.view name p.index)) := by
  have hvisitor : (g.stage id).visitor? = some name := by rw [hseated]; rfl
  have hid := (h.roster.bounds (Stage.inside_of_visitor hvisitor)).2
  have hne : s.tasks.size ≠ id := by omega
  have hnew : g.stage s.tasks.size = .outside := (h.roster.inside _).mpr (by omega)
  have hfetch : ((g.move s.tasks.size (.entered name)).move id (.joining name s.tasks.size)).stage s.tasks.size =
      .entered name := by
    rw [Account.stage_move, Function.update_of_ne hne, Account.stage_move, Function.update_self]
  refine ⟨_, (h.enters hseated).joins (Function.update_self ..) (by rw [hfetch]; rfl), ?_⟩
  have hsize : (joining (entering s (.fetch name) (Work.enlist (Work.normalized name) s.tasks.size s.state)) id
      s.tasks.size (Work.attend p.view name p.index)).tasks.size = s.tasks.size + 1 := by
    rw [joining, Scheduler.size_modifyTask, Scheduler.watch, Scheduler.size_modifyTask]
    exact Array.size_push _
  have hentered : p.load (Function.update g.stage s.tasks.size (.entered name)) (s.tasks.size + 1) =
      p.load g.stage s.tasks.size + (2 * p.attempts + 1) := by
    have hupdate := @load_update p g.stage _ _ (.entered name) (Nat.lt_add_one s.tasks.size)
    have hbefore : p.load g.stage (s.tasks.size + 1) = p.load g.stage s.tasks.size := by
      rw [load, Finset.sum_range_succ, hnew]
      rfl
    rw [hnew, hbefore] at hupdate
    exact hupdate
  have hjoined := @load_update p (Function.update g.stage s.tasks.size (.entered name)) _ _
    (.joining name s.tasks.size) (hid.trans (Nat.lt_add_one _))
  rw [Function.update_of_ne hne.symm, hseated, hentered] at hjoined
  rw [hsize, Account.stage_move, Account.stage_move]
  simp only [Stage.rank] at hjoined
  omega

/-- **A visit that has a slot** leaves with what is cached or with the result of a fetch that has ended, or it waits
for a fetch. -/
theorem seeking (h : p.Sound g (some id) s) (hseated : g.stage id = .seated name) : p.Advances g.stage s.tasks.size
    (s.proceed id (Work.seek p.view name p.index)) := by
  have hsits : (g.stage id).sits = true := by rw [hseated]; rfl
  have hvisitor : (g.stage id).visitor? = some name := by rw [hseated]; rfl
  have hheard (found : String) (fetch : Nat) (hjoining : g.stage id = .joining found fetch) :
      (g.stage fetch).hasEnded = true := by
    rw [hseated] at hjoining
    cases hjoining
  have hlooked : p.Sound g (some id) (s.looked p.view name) :=
    h.withState (h.world.looked _ _) (World.cached_slots _ _ _)
  by_cases hmiss : s.Misses p.view name
  · rw [ServiceRun.proceed_seek_miss hmiss]
    rcases @ServiceRun.listed_or_free (s.looked p.view name) name with hlisted | ⟨-, hfree⟩
    · obtain ⟨spelling, hspelling, hpackage⟩ := hlooked.world.listed _ _ hlisted
      have hinside := Stage.inside_of_spelling hspelling
      have hne : some id ≠ some (ServiceRun.fetchFor (s.looked p.view name) name) := by
        intro heq
        rw [← Option.some.inj heq, hseated] at hspelling
        cases hspelling
      rw [ServiceRun.proceed_listed hlisted]
      cases hended : (g.stage (ServiceRun.fetchFor (s.looked p.view name) name)).hasEnded with
      | true =>
          obtain ⟨result, hfetched, hresult⟩ := hlooked.exists_fetched hspelling hended hne
          rw [ServiceRun.proceed_join_ended ((hlooked.hasEnded_iff hinside hne).mpr hended), hresult]
          exact hlooked.attending hsits hvisitor hheard hfetched hpackage
      | false =>
          have hgoing : Scheduler.hasEnded (s.looked p.view name) (ServiceRun.fetchFor (s.looked p.view name) name) =
              false := by
            rw [Bool.eq_false_iff, ne_eq, hlooked.hasEnded_iff hinside hne, hended]
            exact Bool.false_ne_true
          rw [ServiceRun.proceed_join_going hgoing]
          exact hlooked.waits hseated hspelling hended hpackage
    · rw [ServiceRun.proceed_free hfree, ServiceRun.proceed_join_going]
      · exact hlooked.starts hseated
      · rw [hasEnded_entering, Scheduler.hasEnded_eq_false_iff]
        exact Scheduler.resultOf_of_none _ (by simp)
  · obtain ⟨found, hfound⟩ := Option.ne_none_iff_exists'.mp hmiss
    obtain ⟨overview, rfl, hobtains⟩ := h.world.obtains_hit h.now hfound
    rw [ServiceRun.proceed_seek_hit hfound]
    exact hlooked.leaving hsits hvisitor hheard (hobtains.mono (.of_eq (World.cached_received ..)))

end Prefetch.Sound

theorem Prefetch.Advances.of_lt {p : Prefetch} {stage before : Nat → Stage} {size size' : Nat} {s : ServiceRun}
    (h : p.Advances stage size s) (hload : p.load stage size < p.load before size') : p.Advances before size' s :=
  h.imp fun _ hsound => ⟨hsound.1, hsound.2.trans hload⟩

namespace Prefetch.Sound

variable {p : Prefetch} {g : Account} {running : Option Nat} {s s' : ServiceRun} {id fetch : Nat} {next : Stage}
  {name spelling : String} {rest : List Turn}

/-- The settings being those at the start, a visit that has its slot looks for its view. -/
theorem proceed_sit (h : p.Sound g running s) : s.proceed id (Work.sit name p.includePre p.index) =
    s.proceed id (Work.seek p.view name p.index) := by
  have hsit : s.proceed id (Work.sit name p.includePre p.index) =
      s.proceed id (Work.seek (.metadata (p.includePre.getD s.state.service.includePre)) name p.index) := rfl
  rw [hsit, h.world.includePre]
  rfl

/-- The first turn of a visit. -/
theorem visitBegins (h : p.Sound g (some id) s) (hfresh : g.stage id = .fresh name) :
    p.Advances g.stage s.tasks.size (s.proceed id (Work.prefetchOne name p.includePre p.index)) := by
  have hinside : g.stage id ≠ .outside := by rw [hfresh]; exact nofun
  have hid := (h.roster.bounds hinside).2
  cases htake : (g.slots.take id).1 with
  | true =>
      have htakes := h.takes hfresh htake
      rw [ServiceRun.proceed_prefetchOne_free h.slots htake, htakes.proceed_sit]
      refine (htakes.seeking (Function.update_self ..)).of_lt (load_update_lt hid ?_)
      rw [hfresh]
      simp only [Stage.rank]
      omega
  | false =>
      rw [ServiceRun.proceed_prefetchOne_full h.slots htake]
      refine ⟨_, h.queues hfresh htake, ?_⟩
      rw [Scheduler.pausing, Scheduler.size_modifyTask]
      refine load_update_lt hid ?_
      rw [hfresh]
      simp only [Stage.rank]
      omega

/-- The turn of a visit that has been given a slot. -/
theorem visitWakes (h : p.Sound g (some id) s) (hqueued : g.stage id = .queued name)
    (hwoken : (id, true) ∈ g.slots.waiting) :
    p.Advances g.stage s.tasks.size (s.proceed id (Work.woken name p.includePre p.index)) := by
  have hinside : g.stage id ≠ .outside := by rw [hqueued]; exact nofun
  have hid := (h.roster.bounds hinside).2
  have hawakes := h.awakes hqueued hwoken
  rw [ServiceRun.proceed_woken h.slots, hawakes.proceed_sit]
  have hseeks := hawakes.seeking (Function.update_self ..)
  rw [Scheduler.rouse_eq] at hseeks ⊢
  refine hseeks.of_lt (load_update_lt hid ?_)
  rw [hqueued]
  simp only [Stage.rank]
  omega

/-- The turn of a visit in which it hears of the end of the fetch for which it has waited. -/
theorem visitHears (h : p.Sound g (some id) s) (hjoining : g.stage id = .joining name fetch)
    (hended : (g.stage fetch).hasEnded = true) : p.Advances g.stage s.tasks.size
      (s.proceed id (Work.attend p.view name p.index (s.resultOf fetch))) := by
  obtain ⟨spelling, hspelling, hpackage⟩ := h.roster.attends id name fetch hjoining
  have hne : some id ≠ some fetch := fun heq => h.roster.ne_fetch hjoining (Option.some.inj heq).symm
  obtain ⟨result, hfetched, hresult⟩ := h.exists_fetched hspelling hended hne
  rw [hresult]
  refine h.attending (by rw [hjoining]; rfl) (by rw [hjoining]; rfl) (fun found other hother => ?_) hfetched hpackage
  rw [hjoining] at hother
  cases hother
  exact hended

/-- The first turn of a fetch. -/
theorem fetchBegins (h : p.Sound g (some id) s) (hentered : g.stage id = .entered spelling) :
    p.Advances g.stage s.tasks.size (s.proceed id (Work.run (.fetch spelling))) := by
  have hinside : g.stage id ≠ .outside := by rw [hentered]; exact nofun
  have hid := (h.roster.bounds hinside).2
  have hgoes : GoesOn g.stage id (.asking spelling []) := goesOn_of_eq hentered rfl rfl nofun nofun nofun
  have hworld : Surroundings p (Function.update g.stage id (.asking spelling [])) s.state :=
    h.world.goesOn hgoes (by rw [hentered]; rfl) ⟨p.attempts_pos, nofun, nofun⟩
  have hasks : p.Sound (g.move id (.asking spelling [])) (some id) s :=
    h.fetchGoesOn (by rw [hentered]; rfl) (by rw [hentered]; rfl) rfl hworld rfl
  have hfetches : s.proceed id (Work.run (.fetch spelling)) = s.proceed id (Work.fetching
      (s.state.service.client.plan (Work.documentPath spelling)) 1
      (s.state.service.client.plan (Work.documentPath spelling)).attempts) := by
    rw [Work.run_fetch]
    rfl
  rw [hfetches, h.world.plan]
  refine (hasks.fetching (Function.update_self ..)).of_lt (load_update_lt hid ?_)
  rw [hentered]
  simp only [Stage.rank, List.length_nil]
  omega

/-- **A turn of a task**: less is left to do then, or nothing happens as the task has ended. -/
theorem runs (h : p.Sound g none s) (hready : s.ready = .run id :: rest) (hid : id ≠ 0) :
    p.Advances g.stage s.tasks.size (Scheduler.runTask Work.program { s with ready := rest } id) ∨
      Scheduler.runTask Work.program { s with ready := rest } id = { s with ready := rest } ∧
        p.Sound g none { s with ready := rest } := by
  obtain ⟨hbegun, hmay⟩ := h.begins hready hid
  have hinside : g.stage id ≠ .outside := by
    intro houtside
    rw [houtside] at hmay
    exact hmay
  obtain ⟨t, ht, hat⟩ := h.exists_task hinside
  have ht : ({ s with ready := rest } : ServiceRun).tasks[id]? = some t := ht
  have hstatus := hat.status nofun
  cases hstage : g.stage id with
  | outside => exact absurd hstage hinside
  | seated name =>
      rw [hstage] at hmay
      exact hmay.elim
  | fresh name =>
      rw [hstage] at hstatus
      rw [Scheduler.runTask_fresh ht hat.kept (Option.some.inj hstatus).symm]
      exact .inl (hbegun.visitBegins hstage)
  | queued name =>
      rw [hstage] at hstatus
      rw [Scheduler.runTask_paused ht hat.kept (Option.some.inj hstatus).symm]
      have hwoken := h.turns.woken_of_run hstage (by rw [hready]; exact List.mem_cons_self)
      exact .inl (hbegun.visitWakes hstage hwoken)
  | joining name fetch =>
      rw [hstage] at hstatus hmay
      rw [Scheduler.runTask_paused ht hat.kept (Option.some.inj hstatus).symm]
      exact .inl (hbegun.visitHears hstage hmay)
  | left name result =>
      rw [hstage] at hstatus
      exact .inr ⟨runTask_of_ended ht (Option.some.inj hstatus).symm nofun, h.passes hready hid (by rw [hstage]; rfl)⟩
  | entered spelling =>
      rw [hstage] at hstatus
      rw [Scheduler.runTask_fresh ht hat.kept (Option.some.inj hstatus).symm]
      exact .inl (hbegun.fetchBegins hstage)
  | asking spelling answers =>
      rw [hstage] at hstatus
      rw [Scheduler.runTask_paused ht hat.kept (Option.some.inj hstatus).symm]
      exact .inl (hbegun.fetching hstage)
  | waiting spelling answers answer =>
      rw [hstage] at hstatus
      rw [Scheduler.runTask_paused ht hat.kept (Option.some.inj hstatus).symm]
      exact .inl (hbegun.receiving hstage)
  | fetched spelling result =>
      rw [hstage] at hstatus
      exact .inr ⟨runTask_of_ended ht (Option.some.inj hstatus).symm nofun, h.passes hready hid (by rw [hstage]; rfl)⟩

end Prefetch.Sound

/-! ### The whole run -/

/-- How many turns may follow from a turn, with itself. -/
def Turn.weight : Turn → Nat
  | .run _ | .ended _ => 1
  | .tell _ | .settle _ _ => 2

/-- How many turns there may be before a task has something to do. -/
def ServiceRun.weight (s : ServiceRun) : Nat := (s.ready.map Turn.weight).sum + 2 * s.timers.timers.size

theorem TimerHeap.size_dropFirst {heap : TimerHeap} {timer : Timer} (h : heap.first? = some timer) :
    heap.timers.size = heap.dropFirst.timers.size + 1 := by
  have hlength := (dropFirst_perm h).length_eq
  simpa using hlength

theorem ServiceRun.weight_fired {s : ServiceRun} {timer : Timer} (h : s.timers.first? = some timer) :
    ServiceRun.weight (s.fired timer) < s.weight := by
  have hsize := TimerHeap.size_dropFirst h
  have hready : (s.fired timer).ready = s.ready ++ [.run timer.task] := rfl
  have htimers : (s.fired timer).timers = s.timers.dropFirst := rfl
  simp only [weight, hready, htimers, List.map_append, List.sum_append, List.map_cons, List.map_nil, Turn.weight,
    List.sum_cons, List.sum_nil]
  omega

theorem ServiceRun.settle_keeps (s : ServiceRun) (child watcher : Nat) :
    (Scheduler.settle Work.program s child watcher).tasks.size = s.tasks.size ∧
      ServiceRun.weight (Scheduler.settle Work.program s child watcher) ≤ s.weight + 1 := by
  have hmodify (f : TaskState World Errand Outcome → TaskState World Errand Outcome) :
      (Scheduler.modifyTask s watcher f).tasks.size = s.tasks.size ∧
        ServiceRun.weight (Scheduler.modifyTask s watcher f) = s.weight := ⟨Scheduler.size_modifyTask, rfl⟩
  have hask (f : TaskState World Errand Outcome → TaskState World Errand Outcome) :
      ServiceRun.weight ((Scheduler.modifyTask s watcher f).ask (.run watcher)) = s.weight + 1 := by
    have hready : ((Scheduler.modifyTask s watcher f).ask (.run watcher)).ready = s.ready ++ [.run watcher] := rfl
    have htimers : ((Scheduler.modifyTask s watcher f).ask (.run watcher)).timers = s.timers := rfl
    simp only [weight, hready, htimers, List.map_append, List.sum_append, List.map_cons, List.map_nil, Turn.weight,
      List.sum_cons, List.sum_nil]
    omega
  unfold Scheduler.settle
  split
  · exact ⟨rfl, Nat.le_succ _⟩
  · simp only
    split
    all_goals
      split
      · exact ⟨(hmodify _).1, (hask _).le⟩
      · split
        · exact ⟨(hmodify _).1, (hask _).le⟩
        · exact ⟨(hmodify _).1, (hmodify _).2.le.trans (Nat.le_succ _)⟩

namespace Prefetch.Sound

variable {p : Prefetch} {g : Account} {running : Option Nat} {s s' : ServiceRun} {id fetch : Nat} {next : Stage}
  {name spelling : String} {rest : List Turn}

/-- While nobody has a turn to come, whoever waits for a fetch waits for a timer in the end. -/
theorem exists_timer_of_joining (h : p.Sound g none s) (hready : s.ready = [])
    (hjoining : g.stage id = .joining name fetch) : ∃ timer, timer ∈ s.timers.timers := by
  obtain ⟨spelling, hspelling, -⟩ := h.roster.attends id name fetch hjoining
  obtain ⟨t, ht, hat⟩ := h.exists_task (Stage.inside_of_spelling hspelling)
  have hwatched : .waiter id ∈ t.watchers := by
    have hroused := h.turns.roused id name fetch hjoining nofun
    rw [hready, Scheduler.watchersOf_of_getElem? _ ht] at hroused
    simpa using hroused
  cases hended : (g.stage fetch).hasEnded with
  | true =>
      rw [hat.unwatched hended nofun] at hwatched
      cases hwatched
  | false =>
      have hbusy := h.turns.busy fetch spelling hspelling hended nofun
      rw [hready] at hbusy
      obtain ⟨timer, htimer, -⟩ := hbusy.resolve_left List.not_mem_nil
      exact ⟨timer, htimer⟩

/-- While nobody has a turn to come, nobody who waits for a slot has been woken. -/
theorem asleep (h : p.Sound g none s) (hready : s.ready = []) {w : Nat × Bool} (hwaiting : w ∈ g.slots.waiting) :
    w.2 = false := by
  obtain ⟨name, hqueued⟩ := (h.seats.queued_iff w.1).mp ⟨w.2, hwaiting⟩
  have hcount := h.turns.queued w.1 name hqueued
  rw [hready] at hcount
  cases hwoken : w.2 with
  | false => rfl
  | true =>
      have hmem : (w.1, true) ∈ g.slots.waiting := hwoken ▸ hwaiting
      simp [hmem] at hcount

/-- Then whoever waits for a slot waits for one who has it. -/
theorem exists_seated (h : p.Sound g none s) (hready : s.ready = []) (hqueued : g.stage id = .queued name) :
    ∃ other, (g.stage other).sits = true := by
  obtain ⟨woken, hwaiting⟩ := (h.seats.queued_iff id).mpr ⟨name, hqueued⟩
  have hfree : g.slots.free = 0 := by
    by_contra hfree
    obtain ⟨task, htask⟩ := h.seats.account.fair (Nat.pos_of_ne_zero hfree) (List.ne_nil_of_mem hwaiting)
    cases h.asleep hready htask
  have hwoken : g.slots.waiting.countP (·.2) = 0 :=
    List.countP_eq_zero.mpr fun w hw => by simp [h.asleep hready hw]
  have htotal := h.seats.account.total
  rw [hfree, hwoken] at htotal
  have hpositive := p.positive
  have hlength : 0 < g.seated.length := by omega
  obtain ⟨other, hother⟩ := List.exists_mem_of_length_pos hlength
  exact ⟨other, (h.seats.sits_iff other).mp hother⟩

/-- **Nobody is forgotten.** As long as the prefetch has not got its turn, there is a turn or a timer to come. -/
theorem exists_timer (h : p.Sound g none s) (hready : s.ready = []) : ∃ timer, s.timers.first? = some timer := by
  have hseated (id : Nat) (hsits : (g.stage id).sits = true) : ∃ timer, timer ∈ s.timers.timers := by
    cases hstage : g.stage id with
    | joining name fetch => exact h.exists_timer_of_joining hready hstage
    | seated name =>
        have hinside : g.stage id ≠ .outside := by rw [hstage]; exact nofun
        obtain ⟨status, hstatus, -⟩ := h.exists_status hinside nofun
        rw [hstage] at hstatus
        cases hstatus
    | _ => rw [hstage] at hsits; cases hsits
  have hunsettled : g.unsettled ≠ [] := fun hempty => by
    have hdone := h.gathers.done.mpr hempty
    rw [hready] at hdone
    cases hdone
  obtain ⟨id, hid⟩ := List.exists_mem_of_ne_nil _ hunsettled
  obtain ⟨⟨name, hvisitor⟩, hgoing⟩ := (h.gathers.mem_iff id).mp hid
  have hgoing := hgoing.resolve_right (by rw [hready]; exact List.not_mem_nil)
  obtain ⟨timer, htimer⟩ : ∃ timer, timer ∈ s.timers.timers := by
    cases hstage : g.stage id with
    | fresh found =>
        have hcount := h.turns.fresh id found hstage
        rw [hready] at hcount
        cases hcount
    | queued found =>
        obtain ⟨other, hsits⟩ := h.exists_seated hready hstage
        exact hseated other hsits
    | seated found => exact hseated id (by rw [hstage]; rfl)
    | joining found fetch => exact hseated id (by rw [hstage]; rfl)
    | left found result => rw [hstage] at hgoing; cases hgoing
    | _ => rw [hstage] at hvisitor; cases hvisitor
  obtain ⟨i, hi, -⟩ := Array.getElem_of_mem htimer
  exact ⟨_, Array.getElem?_eq_getElem (Nat.zero_lt_of_lt hi)⟩

end Prefetch.Sound

namespace Prefetch

variable (p : Prefetch)

/-- The run is sound when no task has its turn, and it is nearer to its end. -/
def Nears (g : Account) (s s' : ServiceRun) : Prop :=
  ∃ g' : Account, p.Sound g' none s' ∧ (p.load g'.stage s'.tasks.size < p.load g.stage s.tasks.size ∨
    p.load g'.stage s'.tasks.size = p.load g.stage s.tasks.size ∧ s'.weight < s.weight)

/-- Timers have gone off since, at least one. -/
structure Fired (g : Account) (s s' : ServiceRun) : Prop where
  sound : p.Sound g none s'
  size : s'.tasks.size = s.tasks.size
  weight : s'.weight < s.weight

variable {p} {g : Account} {s : ServiceRun} {id : Nat} {turn : Turn} {rest : List Turn}

namespace Sound

/-- **A turn brings the run nearer to its end.** -/
theorem takes_turn (h : p.Sound g none s) (hready : s.ready = turn :: rest) (hturn : turn ≠ .run 0) :
    p.Nears g s (Scheduler.take Work.program { s with ready := rest } turn) := by
  have hweight : s.weight = turn.weight + ServiceRun.weight { s with ready := rest } := by
    simp only [ServiceRun.weight, hready, List.map_cons, List.sum_cons]
    omega
  cases turn with
  | run id =>
      rw [Turn.weight] at hweight
      rcases h.runs hready fun hid => hturn (hid ▸ rfl) with ⟨g', hsound, hload⟩ | ⟨hsame, hsound⟩
      · exact ⟨g', hsound, .inl hload⟩
      · refine ⟨g, ?_, .inr ⟨?_, ?_⟩⟩
        · rw [Scheduler.take, hsame]
          exact hsound
        · rw [Scheduler.take, hsame]
        · rw [Scheduler.take, hsame]
          omega
  | ended id =>
      have hsame : ServiceRun.weight { s with ready := rest, state := Work.program.onEnd id s.state } =
          ServiceRun.weight { s with ready := rest } := rfl
      rw [Turn.weight] at hweight
      refine ⟨g, h.forgets hready, .inr ⟨rfl, ?_⟩⟩
      rw [Scheduler.take, hsame]
      omega
  | tell id =>
      have hasked : ServiceRun.weight ({ s with ready := rest }.ask (.run id)) =
          ServiceRun.weight { s with ready := rest } + 1 := by
        simp only [ServiceRun.weight, Scheduler.ask, List.map_append, List.sum_append, List.map_cons, List.map_nil,
          Turn.weight, List.sum_cons, List.sum_nil]
        omega
      rw [Turn.weight] at hweight
      refine ⟨g, h.tells hready, .inr ⟨rfl, ?_⟩⟩
      rw [Scheduler.take, hasked]
      omega
  | settle child watcher =>
      obtain ⟨hsize, hsettled⟩ := ServiceRun.settle_keeps { s with ready := rest } child watcher
      rw [Turn.weight] at hweight
      refine ⟨_, h.settles hready, .inr ⟨?_, ?_⟩⟩
      · rw [Scheduler.take, hsize]
      · rw [Scheduler.take]
        omega

/-- If no turn is to come, the jump to the first timer brings the run nearer to its end. -/
theorem jumps (h : p.Sound g none s) (hready : s.ready = []) :
    ∃ s', s.jump? = some s' ∧ p.Nears g s s' := by
  obtain ⟨timer, hfirst⟩ := h.exists_timer hready
  obtain ⟨now, fuel, limit, hnow, hjump⟩ := Scheduler.exists_jump hfirst h.live
  have hfired (s' : ServiceRun) (timer : Timer) (hsound : p.Sound g none s') (hsize : s'.tasks.size = s.tasks.size)
      (hweight : s'.weight ≤ s.weight) (hfirst : s'.timers.first? = some timer) : p.Fired g s (s'.fired timer) :=
    ⟨hsound.fires hfirst, Scheduler.size_modifyTask.trans hsize, (ServiceRun.weight_fired hfirst).trans_le hweight⟩
  have hlast : p.Fired g s (Scheduler.fireDue fuel limit (Scheduler.fired { s with now } timer)) :=
    Scheduler.fireDue_induct (fun _ h => h.sound.live)
      (fun s' timer h => hfired s' timer h.sound h.size h.weight.le) fuel limit
      (hfired { s with now } timer (h.withNow hnow) rfl le_rfl hfirst)
  exact ⟨_, hjump, g, hlast.sound, .inr ⟨by rw [hlast.size], hlast.weight⟩⟩

/-- **The run comes to its end**, where the prefetch itself has its turn. -/
theorem arrives {α : Type} (h : p.Sound g none s) (paused : Paused World Errand Outcome α) :
    ∃ (g' : Account) (s' : ServiceRun) (rest : List Turn) (turns : Nat), p.Sound g' none s' ∧
      s'.ready = .run 0 :: rest ∧
      ∀ fuel, Scheduler.complete Work.program (fuel + turns) s paused =
        Scheduler.complete Work.program fuel s' paused := by
  -- What is left to do does not grow; while it stays the same there are only so many turns.
  induction hload : p.load g.stage s.tasks.size using Nat.strong_induction_on generalizing g s with
  | _ load ihload =>
    induction hweight : s.weight using Nat.strong_induction_on generalizing g s with
    | _ weight ihweight =>
      have hnears {s' : ServiceRun} (hnears : p.Nears g s s')
          (hstep : ∀ fuel, Scheduler.complete Work.program (fuel + 1) s paused =
            Scheduler.complete Work.program fuel s' paused) :
          ∃ (g' : Account) (last : ServiceRun) (rest : List Turn) (turns : Nat), p.Sound g' none last ∧
            last.ready = .run 0 :: rest ∧ ∀ fuel, Scheduler.complete Work.program (fuel + turns) s paused =
              Scheduler.complete Work.program fuel last paused := by
        obtain ⟨g', hsound, hless⟩ := hnears
        obtain ⟨last, after, rest, turns, hlast, hready, hturns⟩ :
            ∃ (last : Account) (after : ServiceRun) (rest : List Turn) (turns : Nat), p.Sound last none after ∧
              after.ready = .run 0 :: rest ∧ ∀ fuel, Scheduler.complete Work.program (fuel + turns) s' paused =
                Scheduler.complete Work.program fuel after paused := by
          rcases hless with hless | ⟨hsame, hless⟩
          · exact ihload _ (hload ▸ hless) hsound rfl
          · exact ihweight _ (hweight ▸ hless) hsound (hsame.trans hload) rfl
        exact ⟨last, after, rest, turns + 1, hlast, hready, fun fuel => by rw [← Nat.add_assoc, hstep, hturns]⟩
      cases hready : s.ready with
      | nil =>
          obtain ⟨s', hjump, hnear⟩ := h.jumps hready
          exact hnears hnear fun fuel => by simp only [Scheduler.complete, hready, hjump]
      | cons turn rest =>
          by_cases hturn : turn = .run 0
          · exact ⟨g, s, rest, 0, h, by rw [hready, hturn], fun fuel => rfl⟩
          · exact hnears (h.takes_turn hready hturn) fun fuel => Scheduler.complete_cons hready hturn fuel paused

end Sound

end Prefetch

/-! ### The start -/

namespace Work

/-- Starts a visit for each name. -/
def visits {α : Type} (includePre : Option Bool) (index : Nat) : List String → (List Nat → Work α) → Work α
  | [], next => next []
  | name :: rest, next =>
      .spawn (.prefetchOne name includePre index) fun id => visits includePre index rest fun ids => next (id :: ids)

open Process (spawn) in
theorem mapM_visits_andThen {α : Type} (includePre : Option Bool) (index : Nat) (names : List String)
    (next : Except Fault (List Nat) → Work α) :
    (names.mapM fun name => (ExceptT.lift (Process.start (.prefetchOne name includePre index)) :
        FallibleWork Nat)).run.andThen next = visits includePre index names fun ids => next (.ok ids) := by
  suffices hloop : ∀ ids : List Nat, (List.mapM.loop (fun name =>
      (ExceptT.lift (Process.start (.prefetchOne name includePre index)) : FallibleWork Nat)) names ids).run.andThen
        next = visits includePre index names fun more => next (.ok (ids.reverse ++ more)) from hloop []
  induction names with
  | nil =>
      intro ids
      rw [List.mapM.loop, visits, List.append_nil]
      rfl
  | cons name rest ih =>
      intro ids
      rw [List.mapM.loop, Process.run_bind, Process.run_lift]
      refine congrArg (spawn _) (funext fun id => (ih (id :: ids)).trans ?_)
      simp only [List.reverse_cons, List.append_assoc, List.singleton_append]

/-- What a prefetch makes of the results of its visits. -/
def gathered (names : List String) : GroupResult Outcome →
    Work (Except Fault (List (String × Except IndexError PackageOverview)))
  | .failed result => .done ((prefetchResult result).bind fun _ => .error .cancelled)
  | .all results => .done ((results.mapM prefetchResult).map fun results => names.zip results)

theorem prefetch_run (names : List String) (includePre : Option Bool) (concurrency : Int) :
    (prefetch names includePre concurrency).run = .look fun _ world =>
      .change (fun _ => { world with slots := world.slots ++ [{ free := (max 1 concurrency).toNat }] }) <|
        visits includePre world.slots.length (distinctNames names) fun ids =>
          .joinAll ids true (gathered (distinctNames names)) := by
  unfold prefetch
  rw [Process.run_bind, Process.run_lift]
  simp only [Process.update, Process.look_andThen, Process.change_andThen, Process.done_andThen]
  congr 1
  funext _ world
  congr 1
  rw [Process.run_bind, mapM_visits_andThen]
  congr 1
  funext ids
  simp only
  rw [Process.run_bind, Process.run_lift]
  simp only [Process.awaitAll, Process.andThen]
  congr 1
  funext result
  cases result with
  | failed result =>
      simp only [Process.run_bind, Process.run_mk, Process.pure_eq_done, Process.done_andThen, gathered]
      cases prefetchResult result <;> rfl
  | all results =>
      simp only [Process.run_bind, Process.run_mk, Process.pure_eq_done, Process.done_andThen, gathered]
      cases results.mapM prefetchResult <;> rfl

end Work

namespace ServiceRun

variable (s : ServiceRun) (includePre : Option Bool) (index : Nat) (names : List String)

/-- The run in which a visit has been started for each name. -/
def visiting : ServiceRun :=
  { s with
    tasks := s.tasks ++ (names.map fun name =>
      ({ status := .fresh (.prefetchOne name includePre index), errand := some (.prefetchOne name includePre index) } :
        TaskState World Errand Outcome)).toArray
    ready := s.ready ++ (List.range' s.tasks.size names.length).map .run }

theorem visiting_nil : s.visiting includePre index [] = s := by simp [visiting]

theorem advance_visits {α : Type} (next : List Nat → Work α) :
    s.advance 0 (Work.visits includePre index names next) =
      Scheduler.advance (s.visiting includePre index names) 0 (next (List.range' s.tasks.size names.length)) := by
  induction names generalizing s next with
  | nil =>
      rw [visiting_nil]
      rfl
  | cons name rest ih =>
      rw [Work.visits, Scheduler.advance, ih]
      have hsize : ((s.enter (.prefetchOne name includePre index)).ask (.run s.tasks.size)).tasks.size =
          s.tasks.size + 1 := Array.size_push _
      have hsame : ServiceRun.visiting ((s.enter (.prefetchOne name includePre index)).ask (.run s.tasks.size))
          includePre index rest = s.visiting includePre index (name :: rest) := by
        unfold visiting
        simp only [hsize, List.length_cons, List.range'_succ, List.map_cons]
        simp only [Scheduler.ask, Scheduler.enter, List.append_assoc, List.singleton_append]
        congr 1
        apply Array.toList_inj.mp
        simp
      rw [hsame, hsize, List.length_cons, List.range'_succ]

end ServiceRun

namespace Scheduler

variable {σ δ ρ : Type}

/-- Tasks are watched together. -/
theorem exists_foldl_watch (s : Scheduler σ δ ρ) {children : List Nat} (hnodup : children.Nodup) (watcher : Watcher) :
    ∃ tasks, children.foldl (fun s child => s.watch child watcher) s = { s with tasks } ∧
      tasks.size = s.tasks.size ∧ ∀ id, tasks[id]? = if id ∈ children then
        s.tasks[id]?.map fun t => { t with watchers := t.watchers ++ [watcher] } else s.tasks[id]? := by
  induction children generalizing s with
  | nil => exact ⟨s.tasks, rfl, rfl, fun id => by rw [if_neg List.not_mem_nil]⟩
  | cons child rest ih =>
      obtain ⟨hnew, hrest⟩ := List.nodup_cons.mp hnodup
      obtain ⟨tasks, htasks, hsize, hget⟩ := ih (s.watch child watcher) hrest
      refine ⟨tasks, htasks, hsize.trans size_modifyTask, fun id => ?_⟩
      rw [hget, watch, getElem?_modifyTask]
      by_cases hchild : child = id
      · subst hchild
        rw [if_pos rfl, if_neg hnew, if_pos List.mem_cons_self]
      · simp only [if_neg hchild, List.mem_cons, Ne.symm hchild, false_or]

end Scheduler

namespace Prefetch

variable (p : Prefetch)

/-- The stage of every task when the visits have been started. -/
def opening (id : Nat) : Stage :=
  if p.first ≤ id then (p.names[id - p.first]?.map Stage.fresh).getD .outside else .outside

/-- The account when the visits have been started. -/
def begun : Account := ⟨p.opening, [], { free := p.capacity }, List.range' p.first p.names.length⟩

/-- The run in which the slots are there. -/
def opened : ServiceRun :=
  { p.start with state := { p.start.state with slots := p.start.state.slots ++ [{ free := p.capacity }] } }

/-- The run in which the visits have been started and are waited for. -/
def beginning : ServiceRun :=
  Scheduler.gather (p.opened.visiting p.includePre p.index p.names) 0 (List.range' p.first p.names.length) true

variable {p} {id : Nat} {name : String}

theorem opening_of_visits (h : p.Visits id name) : p.opening id = .fresh name := by
  rw [opening, if_pos h.1, h.2]
  rfl

theorem exists_visits (hfirst : p.first ≤ id) (hlast : id < p.first + p.names.length) :
    ∃ name, p.Visits id name := ⟨_, hfirst, List.getElem?_eq_getElem (by omega)⟩

theorem Visits.lt (h : p.Visits id name) : p.first ≤ id ∧ id < p.first + p.names.length := by
  have := (List.getElem?_eq_some_iff.mp h.2).1
  have := h.1
  omega

theorem opening_cases (id : Nat) : (∃ name, p.Visits id name ∧ p.opening id = .fresh name) ∨
    ¬ (p.first ≤ id ∧ id < p.first + p.names.length) ∧ p.opening id = .outside := by
  by_cases hid : p.first ≤ id ∧ id < p.first + p.names.length
  · obtain ⟨name, hvisits⟩ := exists_visits hid.1 hid.2
    exact .inl ⟨name, hvisits, opening_of_visits hvisits⟩
  · refine .inr ⟨hid, ?_⟩
    rw [opening]
    split
    · rw [List.getElem?_eq_none (by omega)]
      rfl
    · rfl

/-- What the first run is like. -/
theorem exists_beginning (p : Prefetch) : ∃ tasks : Array (TaskState World Errand Outcome),
    p.beginning = { p.opened with
      ready := (List.range' p.first p.names.length).map .run
      tasks := tasks } ∧ tasks.size = p.first + p.names.length ∧
      (∃ t, tasks[0]? = some t ∧ t.group = some (p.names.length, true) ∧ t.failed = none) ∧
      ∀ id name, p.Visits id name → tasks[id]? = some {
        status := .fresh (.prefetchOne name p.includePre p.index)
        errand := some (.prefetchOne name p.includePre p.index)
        watchers := [.gatherer 0] } := by
  have hidle := p.resting.idle
  generalize hvisiting : p.opened.visiting p.includePre p.index p.names = visiting
  have hold (id : Nat) (hid : id < p.first) : visiting.tasks[id]? = p.start.tasks[id]? := by
    rw [← hvisiting]
    exact Array.getElem?_append_left hid
  have hnew (id : Nat) (name : String) (hvisits : p.Visits id name) : visiting.tasks[id]? =
      some {
        status := .fresh (.prefetchOne name p.includePre p.index)
        errand := some (.prefetchOne name p.includePre p.index) } := by
    rw [← hvisiting]
    refine (Array.getElem?_append_right hvisits.1).trans ?_
    rw [List.getElem?_toArray, List.getElem?_map]
    exact congrArg (Option.map _) hvisits.2
  have hsize : visiting.tasks.size = p.first + p.names.length := by
    rw [← hvisiting]
    simp [ServiceRun.visiting, opened, first]
  have hgoing : ∀ child ∈ List.range' p.first p.names.length, Scheduler.hasEnded visiting child = false := by
    intro child hchild
    obtain ⟨name, hvisits⟩ := exists_visits (List.mem_range'_1.mp hchild).1 (List.mem_range'_1.mp hchild).2
    rw [Scheduler.hasEnded_eq_false_iff, Scheduler.resultOf_of_getElem? _ (hnew child name hvisits)]
    rfl
  obtain ⟨tasks, htasks, hsame, hget⟩ := Scheduler.exists_foldl_watch
    (visiting.modifyTask 0 fun t =>
      { t with group := some ((List.range' p.first p.names.length).length, true), failed := none })
    List.nodup_range' (.gatherer 0)
  refine ⟨tasks, ?_, ?_, ?_, fun id name hvisits => ?_⟩
  · rw [beginning, hvisiting, Scheduler.gather_of_going hgoing, htasks, ← hvisiting]
    simp only [Scheduler.modifyTask, ServiceRun.visiting, opened, hidle.ready, List.nil_append]
    rfl
  · rw [hsame, Scheduler.size_modifyTask, hsize]
  · have hzero : 0 ∉ List.range' p.first p.names.length := by
      have := p.first_pos
      simp only [List.mem_range'_1]
      omega
    obtain ⟨outside, houtside⟩ : ∃ outside, visiting.tasks[0]? = some outside :=
      ⟨_, (hold 0 p.first_pos).trans (Array.getElem?_eq_getElem hidle.outside)⟩
    rw [hget, if_neg hzero, Scheduler.modifyTask_self houtside]
    exact ⟨_, rfl, by rw [List.length_range'], rfl⟩
  · rw [hget, if_pos (List.mem_range'_1.mpr hvisits.lt), Scheduler.modifyTask_of_ne, hnew id name hvisits]
    · rfl
    · have := p.first_pos
      have := hvisits.1
      omega

theorem opening_eq_fresh_iff : p.opening id = .fresh name ↔ p.Visits id name := by
  refine ⟨fun hstage => ?_, opening_of_visits⟩
  rcases p.opening_cases id with ⟨other, hvisits, hother⟩ | ⟨-, houtside⟩
  · rw [hother] at hstage
    cases hstage
    exact hvisits
  · rw [houtside] at hstage
    cases hstage

/-- When the visits have been started nothing is found but visits before their first turn. -/
theorem eq_outside_of_opening {stage : Stage} (hstage : p.opening id = stage) (hfresh : ∀ name, stage ≠ .fresh name) :
    stage = .outside := by
  rcases p.opening_cases id with ⟨other, -, hother⟩ | ⟨-, houtside⟩
  · exact absurd (hstage.symm.trans hother) (hfresh other)
  · exact hstage.symm.trans houtside

theorem spelling_opening : (p.opening id).spelling? = none := by
  rcases p.opening_cases id with ⟨other, -, hother⟩ | ⟨-, houtside⟩
  · rw [hother]
    rfl
  · rw [houtside]
    rfl

theorem visitor_opening : (p.opening id).visitor? = some name ↔ p.Visits id name := by
  rw [← opening_eq_fresh_iff]
  rcases p.opening_cases id with ⟨other, -, hother⟩ | ⟨-, houtside⟩
  · simp [hother, Stage.visitor?]
  · simp [houtside, Stage.visitor?]

theorem roster_opening (p : Prefetch) : Roster p p.opening (p.first + p.names.length) where
  inside id := by
    rcases p.opening_cases id with ⟨other, hvisits, hother⟩ | ⟨hnot, houtside⟩
    · simp only [hother, reduceCtorEq, false_iff, not_not]
      exact hvisits.lt
    · simp only [houtside, hnot, not_false_eq_true]
  visits id name := visitor_opening
  attends id name fetch hjoining := by cases eq_outside_of_opening hjoining nofun
  named fetch spelling hspelling := by
    rw [spelling_opening] at hspelling
    cases hspelling
  once fetch other spelling hspelling := by
    rw [spelling_opening] at hspelling
    cases hspelling
  attended fetch spelling hspelling := by
    rw [spelling_opening] at hspelling
    cases hspelling

theorem turns_opening (slots : Slots) (watchers : Nat → List Watcher) :
    Turns p.opening slots none ((List.range' p.first p.names.length).map .run) watchers #[] where
  turn turn hturn := by
    obtain ⟨id, hid, rfl⟩ := List.mem_map.mp hturn
    obtain ⟨name, hvisits⟩ := exists_visits (List.mem_range'_1.mp hid).1 (List.mem_range'_1.mp hid).2
    exact .inr (by rw [opening_of_visits hvisits]; trivial)
  fresh id name hfresh := by
    have hid := List.mem_range'_1.mpr (opening_eq_fresh_iff.mp hfresh).lt
    have hnodup : ((List.range' p.first p.names.length).map Turn.run).Nodup :=
      List.Nodup.map (fun _ _ heq => Turn.run.inj heq) List.nodup_range'
    rw [if_neg nofun, List.count_eq_one_of_mem hnodup (List.mem_map_of_mem hid)]
  queued id name hqueued := by cases eq_outside_of_opening hqueued nofun
  roused id name fetch hjoining := by cases eq_outside_of_opening hjoining nofun
  busy id spelling hspelling := by
    rw [spelling_opening] at hspelling
    cases hspelling
  timers timer htimer := absurd htimer (Array.not_mem_empty timer)

theorem gathers_opening (hnames : p.names ≠ []) {outside : Option (TaskState World Errand Outcome)}
    (htask : ∃ t, outside = some t ∧ t.group = some (p.names.length, true) ∧ t.failed = none) :
    Gathers p.opening (List.range' p.first p.names.length) ((List.range' p.first p.names.length).map .run)
      outside where
  nodup := List.nodup_range'
  mem_iff id := by
    rw [List.mem_range'_1]
    constructor
    · rintro ⟨hfirst, hlast⟩
      obtain ⟨name, hvisits⟩ := exists_visits hfirst hlast
      exact ⟨⟨name, visitor_opening.mpr hvisits⟩, .inl (by rw [opening_of_visits hvisits]; rfl)⟩
    · rintro ⟨⟨name, hvisitor⟩, -⟩
      exact (visitor_opening.mp hvisitor).lt
  once id := by
    rw [List.count_eq_zero.mpr]
    · exact Nat.zero_le _
    · simp
  done := by
    have := p.first_pos
    have := List.length_pos_iff.mpr hnames
    simp only [List.mem_map, List.mem_range'_1, Turn.run.injEq, ← List.length_eq_zero_iff, List.length_range']
    constructor
    · rintro ⟨id, hid, rfl⟩
      omega
    · intro hempty
      omega
  task := by
    obtain ⟨t, ht, hgroup, hfailed⟩ := htask
    exact ⟨t, ht, hfailed, fun _ => by rw [List.length_range']; exact hgroup⟩

theorem seats_opening (p : Prefetch) : Seats p.capacity p.opening [] { free := p.capacity } where
  account := ⟨rfl, List.nodup_nil, fun _ hne => absurd rfl hne⟩
  nodup := List.nodup_nil
  sits_iff id := by
    rcases p.opening_cases id with ⟨other, -, hother⟩ | ⟨-, houtside⟩
    · simp [hother, Stage.sits]
    · simp [houtside, Stage.sits]
  queued_iff id := by
    refine ⟨fun ⟨_, hwaiting⟩ => absurd hwaiting List.not_mem_nil, fun ⟨name, hqueued⟩ => ?_⟩
    cases eq_outside_of_opening hqueued nofun

theorem surroundings_opening (p : Prefetch) : Surroundings p p.opening p.opened.state where
  plan _ := rfl
  includePre := rfl
  today := rfl
  script := ⟨[], List.nil_subset _, rfl⟩
  notes := .refl _
  listed key fetch hlisted := by
    have hnone := p.resting.inFlight ▸ hlisted
    cases hnone
  opened := by
    change p.start.state.openRequests.Nodup
    rw [p.quiet]
    exact List.nodup_nil
  open_iff id := by
    change id ∈ p.start.state.openRequests ↔ _
    rw [p.quiet]
    rcases p.opening_cases id with ⟨other, -, hother⟩ | ⟨-, houtside⟩
    · simp [hother, Stage.isOpen]
    · simp [houtside, Stage.isOpen]
  peak := le_max_left _ _
  cache key entry hentry name hkey := by
    have hfits := p.resting.kinded key entry hentry p.view name hkey
    cases hdata : entry.data with
    | metadata overview => exact ⟨overview, rfl, .inl ⟨entry, hentry, hdata, rfl, rfl⟩⟩
    | _ => rw [hdata] at hfits; exact hfits.elim
  stages id := by
    rcases p.opening_cases id with ⟨other, -, hother⟩ | ⟨-, houtside⟩
    · rw [hother]
      trivial
    · rw [houtside]
      trivial

/-- **The beginning is sound.** -/
theorem sound_beginning (hnames : p.names ≠ []) : p.Sound p.begun none p.beginning := by
  obtain ⟨tasks, hbeginning, hsize, htask, hvisit⟩ := p.exists_beginning
  have hidle := p.resting.idle
  rw [hbeginning]
  refine ⟨hsize ▸ p.roster_opening, fun id t hid ht => ?_, ?_, gathers_opening hnames htask, p.seats_opening,
    p.surroundings_opening, ?_, .inl rfl, ?_, hidle.fresh⟩
  · have hlast : id < p.first + p.names.length := by
      rw [← hsize]
      exact (Array.getElem?_eq_some_iff.mp ht).1
    obtain ⟨name, hvisits⟩ := exists_visits hid hlast
    have hstage : p.begun.stage id = .fresh name := opening_of_visits hvisits
    obtain rfl := Option.some.inj (ht.symm.trans (hvisit id name hvisits))
    refine ⟨rfl, by rw [hstage]; rfl, fun _ => by rw [hstage]; rfl, fun _ _ _ => rfl, fun spelling hspelling => ?_,
      fun hended => ?_⟩
    · rw [hstage] at hspelling
      cases hspelling
    · rw [hstage] at hended
      cases hended
  · change Turns _ _ none _ _ p.start.timers.timers
    rw [hidle.timers]
    exact turns_opening _ _
  · change (p.start.state.slots ++ [_])[p.index]? = _
    rw [index, List.getElem?_append_right (Nat.le_refl _), Nat.sub_self]
    rfl
  · change ∀ timer ∈ p.start.timers.timers, _
    rw [hidle.timers]
    exact fun timer htimer => nomatch htimer

end Prefetch

/-! ### The end -/

namespace Prefetch.Sound

variable {p : Prefetch} {g : Account} {s : ServiceRun} {rest : List Turn}

/-- When the prefetch has its turn every visit has left with what its name obtains. -/
theorem exists_result (h : p.Sound g none s) (hready : s.ready = .run 0 :: rest) {id : Nat} {name : String}
    (hvisits : p.Visits id name) : ∃ result : Except IndexError PackageOverview,
      p.start.Obtains p.names p.admits s.state name result ∧
        s.resultOf id = .finished (.ok (Work.replyFor result)) := by
  have hvisitor := (h.roster.visits id name).mpr hvisits
  have hempty : g.unsettled = [] := h.gathers.done.mp (by rw [hready]; exact List.mem_cons_self)
  have hended : (g.stage id).hasEnded = true := by
    by_contra hgoing
    have hmem := (h.gathers.mem_iff id).mpr ⟨⟨name, hvisitor⟩, .inl (by simpa using hgoing)⟩
    rw [hempty] at hmem
    cases hmem
  obtain ⟨result, hleft, hresult⟩ := h.exists_left hvisitor hended
  have hstage := h.world.stages id
  rw [hleft] at hstage
  exact ⟨result, hstage, hresult⟩

/-- What the prefetch makes of the results of its visits. -/
theorem exists_results (h : p.Sound g none s) (hready : s.ready = .run 0 :: rest) :
    ∃ results : List (Except IndexError PackageOverview),
      (((List.range' p.first p.names.length).map s.resultOf).mapM Work.prefetchResult) = .ok results ∧
      List.Forall₂ (p.start.Obtains p.names p.admits s.state) p.names results := by
  suffices hall : ∀ (first : Nat) (names : List String), (∀ i name, names[i]? = some name →
      ∃ result : Except IndexError PackageOverview, p.start.Obtains p.names p.admits s.state name result ∧
        s.resultOf (first + i) = .finished (.ok (Work.replyFor result))) →
      ∃ results : List (Except IndexError PackageOverview),
        (((List.range' first names.length).map s.resultOf).mapM Work.prefetchResult) = .ok results ∧
        List.Forall₂ (p.start.Obtains p.names p.admits s.state) names results from
    hall p.first p.names fun i name hname => h.exists_result hready ⟨Nat.le_add_right _ _, by
      rw [Nat.add_sub_cancel_left]
      exact hname⟩
  intro first names
  induction names generalizing first with
  | nil => exact fun _ => ⟨[], rfl, .nil⟩
  | cons name names ih =>
      intro hnames
      obtain ⟨result, hobtains, hresult⟩ := hnames 0 name rfl
      obtain ⟨results, hresults, hforall⟩ := ih (first + 1) fun i other hother => by
        obtain ⟨found, hfound, hended⟩ := hnames (i + 1) other hother
        exact ⟨found, hfound, by rw [Nat.add_right_comm, Nat.add_assoc]; exact hended⟩
      refine ⟨result :: results, ?_, .cons hobtains hforall⟩
      rw [List.length_cons, List.range'_succ, List.map_cons, List.mapM_cons, hresults]
      rw [Nat.add_zero] at hresult
      rw [hresult, Work.prefetchResult_replyFor]
      rfl

/-- Every fetch is for one of the names, and there is no other one for the same name. -/
theorem exists_fetch (h : p.Sound g none s) {fetch : Nat} {spelling : String} (hfirst : p.first ≤ fetch)
    (herrand : s.errandOf fetch = some (.fetch spelling)) : (g.stage fetch).spelling? = some spelling := by
  obtain ⟨t, ht, hfetch⟩ := (Scheduler.errandOf_eq_some_iff _).mp herrand
  rw [(h.tasks fetch t hfirst ht).errand] at hfetch
  cases hstage : g.stage fetch <;> rw [hstage] at hfetch <;> cases hfetch <;> rfl

theorem openRequests_le (h : p.Sound g none s) : s.state.openRequests.length ≤ p.capacity := by
  refine length_going_le h.roster h.seats h.world.opened fun fetch hopen => ?_
  have hwaiting := (h.world.open_iff fetch).mp hopen
  cases hstage : g.stage fetch <;> rw [hstage] at hwaiting <;> first | exact ⟨⟨_, rfl⟩, rfl⟩ | cases hwaiting

end Prefetch.Sound

/-! ### The result -/

namespace Work

theorem distinctNames_append (names : List String) (name : String) : distinctNames (names ++ [name]) =
    if (distinctNames names).contains name then distinctNames names else distinctNames names ++ [name] := by
  rw [distinctNames, List.foldl_append]
  rfl

/-- The distinct names are those of a list, each of them once, in the order of the first occurrences. -/
theorem distinctNames_spec (names : List String) : (∀ name, name ∈ distinctNames names ↔ name ∈ names) ∧
    (distinctNames names).Pairwise fun a b => names.idxOf a < names.idxOf b := by
  induction names using List.reverseRecOn with
  | nil => exact ⟨fun _ => Iff.rfl, .nil⟩
  | append_singleton names last ih =>
      obtain ⟨hmem, hpairwise⟩ := ih
      have hkept : (distinctNames names).Pairwise fun a b => (names ++ [last]).idxOf a < (names ++ [last]).idxOf b := by
        refine hpairwise.imp_of_mem fun ha hb hlt => ?_
        rwa [List.idxOf_append_of_mem ((hmem _).mp ha), List.idxOf_append_of_mem ((hmem _).mp hb)]
      rw [distinctNames_append]
      by_cases hlast : last ∈ names
      · rw [if_pos (List.contains_iff_mem.mpr ((hmem last).mpr hlast))]
        refine ⟨fun name => ?_, hkept⟩
        rw [hmem, List.mem_append, List.mem_singleton, or_iff_left_of_imp]
        rintro rfl
        exact hlast
      · rw [if_neg fun hcontains => hlast ((hmem last).mp (List.contains_iff_mem.mp hcontains))]
        refine ⟨fun name => by rw [List.mem_append, hmem, List.mem_append], ?_⟩
        refine List.pairwise_append.mpr ⟨hkept, List.pairwise_singleton _ _, fun a ha b hb => ?_⟩
        obtain rfl := List.mem_singleton.mp hb
        rw [List.idxOf_append_of_mem ((hmem a).mp ha), List.idxOf_append_of_notMem hlast]
        exact (List.idxOf_lt_length_of_mem ((hmem a).mp ha)).trans_le (Nat.le_add_right _ _)

end Work

namespace ServiceRun

variable {s : ServiceRun} {names : List String} {includePre : Option Bool}

theorem Obtains.of_subset {more : List String} {admits : Bool} {world : World} {name : String}
    {result : Except IndexError PackageOverview} (h : s.Obtains names admits world name result)
    (hsub : ∀ name ∈ names, name ∈ more) : s.Obtains more admits world name result := by
  cases h with
  | remembered hentry hnow hvalid hdata => exact .remembered hentry hnow hvalid hdata
  | fetched hspelling hasker hpackage hasked hbrings hoverview =>
      exact .fetched (hsub _ hspelling) (hsub _ hasker) hpackage hasked hbrings hoverview
  | failed hspelling hpackage hbrings herror hname => exact .failed (hsub _ hspelling) hpackage hbrings herror hname

/-- What a prefetch is to bring about. Its results are one for each of the names, in the order of their first
occurrences, and each is what the name obtains. Not more requests are open at once than the limit says, or than
there were once before. For no name there is more than one fetch, and there are none but for names. -/
structure Prefetches (s : ServiceRun) (names : List String) (includePre : Option Bool) (concurrency : Int)
    (after : ServiceRun) (results : List (String × Except IndexError PackageOverview)) : Prop where
  mem_keys : ∀ name, name ∈ results.map Prod.fst ↔ name ∈ names
  ordered : (results.map Prod.fst).Pairwise fun a b => names.idxOf a < names.idxOf b
  obtains : ∀ name result, (name, result) ∈ results →
    s.Obtains names (includePre.getD s.state.service.includePre) after.state name result
  limited : after.state.peak ≤ max s.state.peak (max 1 concurrency).toNat
  named : ∀ fetch spelling, s.tasks.size ≤ fetch → after.errandOf fetch = some (.fetch spelling) → spelling ∈ names
  once : ∀ fetch other spelling, s.tasks.size ≤ fetch → s.tasks.size ≤ other →
    after.errandOf fetch = some (.fetch spelling) → after.errandOf other = some (.fetch spelling) → fetch = other

end ServiceRun

namespace Prefetch

variable {p : Prefetch} {g : Account} {s : ServiceRun}

/-- Once the prefetch has its turn it is done. -/
theorem exists_resume (s : ServiceRun) (names : List String) (ids : List Nat) :
    ∃ value, s.resume 0 (.gathering ids (Work.gathered names)) = .done value := by
  rw [Scheduler.resume]
  split
  · exact ⟨_, rfl⟩
  · exact ⟨_, rfl⟩

/-- **The limit.** At no turn are more requests open than there are slots. -/
theorem Sound.openRequests_complete (h : p.Sound g none s) (names : List String) (ids : List Nat) (fuel : Nat) :
    (Scheduler.complete Work.program fuel s
      (.gathering ids (Work.gathered names))).1.state.openRequests.length ≤ p.capacity := by
  induction fuel generalizing g s with
  | zero => exact h.openRequests_le
  | succ fuel ih =>
      cases hready : s.ready with
      | nil =>
          obtain ⟨s', hjump, g', hsound, -⟩ := h.jumps hready
          simp only [Scheduler.complete, hready, hjump]
          exact ih hsound
      | cons turn rest =>
          by_cases hturn : turn = .run 0
          · subst hturn
            obtain ⟨value, hvalue⟩ := exists_resume { s with ready := rest } names ids
            rw [Scheduler.complete_outside hready, hvalue]
            exact h.openRequests_le
          · obtain ⟨g', hsound, -⟩ := h.takes_turn hready hturn
            rw [Scheduler.complete_cons hready hturn]
            exact ih hsound

theorem advance_prefetch (p : Prefetch) {names : List String} {concurrency : Int}
    (hnames : p.names = Work.distinctNames names) (hcapacity : p.capacity = (max 1 concurrency).toNat) :
    p.start.advance 0 (Work.prefetch names p.includePre concurrency).run =
      if p.names = [] then
        (p.opened, .inl (.ok []))
      else (p.beginning, .inr (.gathering (List.range' p.first p.names.length) (Work.gathered p.names))) := by
  rw [Work.prefetch_run, ← hnames, ← hcapacity, Scheduler.advance, Scheduler.advance, ServiceRun.advance_visits]
  rw [Scheduler.advance]
  by_cases hempty : p.names = []
  · rw [hempty, ServiceRun.visiting_nil, if_pos rfl]
    rfl
  · rw [if_neg hempty, if_neg (by simpa using hempty)]
    rfl

/-- A prefetch of names comes to its end with the results of all visits. -/
theorem exists_ends (p : Prefetch) {names : List String} {concurrency : Int}
    (hnames : p.names = Work.distinctNames names) (hcapacity : p.capacity = (max 1 concurrency).toNat) :
    ∃ (after : ServiceRun) (results : List (Except IndexError PackageOverview)),
      p.start.Ends Work.program (Work.prefetch names p.includePre concurrency).run after (.ok (p.names.zip results)) ∧
        List.Forall₂ (p.start.Obtains p.names p.admits after.state) p.names results ∧
        after.state.peak ≤ max p.start.state.peak p.capacity ∧ ∃ stage : Nat → Stage, Roster p stage after.tasks.size ∧
          ∀ fetch spelling, p.first ≤ fetch → after.errandOf fetch = some (.fetch spelling) →
            (stage fetch).spelling? = some spelling := by
  have hadvance := p.advance_prefetch hnames hcapacity
  by_cases hempty : p.names = []
  · rw [if_pos hempty] at hadvance
    refine ⟨p.opened, [], ⟨0, fun fuel => ?_⟩, hempty ▸ .nil, le_max_left _ _, p.opening, ?_,
      fun fetch spelling hfetch herrand => ?_⟩
    · rw [Scheduler.run, hadvance, hempty]
      rfl
    · have hroster := p.roster_opening
      rw [hempty] at hroster
      exact hroster
    · obtain ⟨t, ht, -⟩ := (Scheduler.errandOf_eq_some_iff _).mp herrand
      exact absurd (Array.getElem?_eq_some_iff.mp ht).1 (Nat.not_lt_of_le hfetch)
  · rw [if_neg hempty] at hadvance
    obtain ⟨g, s, rest, turns, hsound, hready, hturns⟩ := (sound_beginning hempty).arrives
      (.gathering (List.range' p.first p.names.length) (Work.gathered p.names))
    obtain ⟨results, hresults, hobtains⟩ := hsound.exists_results hready
    obtain ⟨t, ht, hfailed, -⟩ := hsound.gathers.task
    have hresume : Scheduler.resume { s with ready := rest } 0
        (.gathering (List.range' p.first p.names.length) (Work.gathered p.names)) =
          .done (.ok (p.names.zip results)) := by
      have hgathered : Work.gathered p.names (.all ((List.range' p.first p.names.length).map s.resultOf)) =
          .done (.ok (p.names.zip results)) := by
        rw [Work.gathered, hresults]
        rfl
      simp only [Scheduler.resume, ht, Option.bind_some, hfailed]
      exact hgathered
    refine ⟨{ s with ready := rest }, results, ⟨1 + turns, fun fuel => ?_⟩, hobtains, hsound.world.peak, g.stage,
      hsound.roster, fun fetch spelling hfetch herrand => hsound.exists_fetch hfetch herrand⟩
    rw [Scheduler.run, hadvance]
    simp only
    rw [← Nat.add_assoc, hturns, Scheduler.complete_outside hready, hresume]
    rfl

end Prefetch

namespace ServiceRun

variable {s : ServiceRun} {names : List String} {includePre : Option Bool}

def prefetching (hresting : s.IsResting) (hquiet : s.state.openRequests = []) (hserves : s.Serves names includePre)
    (concurrency : Int) : Prefetch where
  start := s
  names := Work.distinctNames names
  includePre := includePre
  capacity := (max 1 concurrency).toNat
  nodup := (Work.distinctNames_spec names).2.imp fun hlt heq => absurd (heq ▸ hlt) (Nat.lt_irrefl _)
  positive := by omega
  resting := hresting
  quiet := hquiet
  serves name hname urls hurls :=
    hserves name (((Work.distinctNames_spec names).1 name).mp hname) urls fun _ hurl =>
      List.map_subset _ (fun name => ((Work.distinctNames_spec names).1 name).mp) (hurls hurl)

/-- **A prefetch of packages.** Let the service be at rest and the index such that a single call for one of the
packages ends with metadata or with a failure of the index. Whatever the names and the limit, the prefetch ends, with
one result for each of the names, and with every turn there are at most as many requests open as the limit says. -/
theorem exists_prefetches (hresting : s.IsResting) (hquiet : s.state.openRequests = [])
    (hserves : s.Serves names includePre) (concurrency : Int) :
    (∃ after results, s.Ends Work.program (Work.prefetch names includePre concurrency).run after (.ok results) ∧
      s.Prefetches names includePre concurrency after results) ∧
    ∀ fuel, (s.run Work.program fuel (Work.prefetch names includePre concurrency).run).1.state.openRequests.length ≤
      (max 1 concurrency).toNat := by
  obtain ⟨hmem, hordered⟩ := Work.distinctNames_spec names
  obtain ⟨p, rfl, hnames, rfl, hcapacity⟩ : ∃ p : Prefetch, p.start = s ∧ p.names = Work.distinctNames names ∧
      p.includePre = includePre ∧ p.capacity = (max 1 concurrency).toNat :=
    ⟨prefetching hresting hquiet hserves concurrency, rfl, rfl, rfl, rfl⟩
  constructor
  · obtain ⟨after, results, hends, hobtains, hpeak, stage, hroster, hfetch⟩ := p.exists_ends hnames hcapacity
    obtain ⟨hlength, hzip⟩ := List.forall₂_iff_zip.mp hobtains
    have hkeys : (p.names.zip results).map Prod.fst = p.names := List.map_fst_zip hlength.le
    have hincluded (name : String) : name ∈ p.names ↔ name ∈ names := by rw [hnames, hmem]
    refine ⟨after, _, hends, ⟨fun name => ?_, ?_, fun name result hresult => ?_, hcapacity ▸ hpeak,
      fun fetch spelling hfirst herrand => ?_, fun fetch other spelling hfirst hother herrand hagain => ?_⟩⟩
    · rw [hkeys, hincluded]
    · rw [hkeys, hnames]
      exact hordered
    · exact (hzip hresult).of_subset fun name => (hincluded name).mp
    · obtain ⟨visit, hvisit, -⟩ := hroster.named fetch spelling (hfetch fetch spelling hfirst herrand)
      exact (hincluded spelling).mp hvisit.mem
    · exact hroster.once fetch other spelling (hfetch fetch spelling hfirst herrand)
        (hfetch other spelling hother hagain)
  · intro fuel
    rw [Scheduler.run, p.advance_prefetch hnames hcapacity, ← hcapacity]
    by_cases hempty : p.names = []
    · rw [if_pos hempty]
      change p.start.state.openRequests.length ≤ _
      rw [hquiet]
      exact Nat.zero_le _
    · rw [if_neg hempty]
      exact (Prefetch.sound_beginning hempty).openRequests_complete p.names _ fuel

/-- Two spellings of a package that is not there, one of them twice, and a limit that is not positive. -/
theorem exists_prefetches_notFound :
    let start := ServiceRun.opening (.constant ⟨.response .notFound, 0⟩)
    let names := ["Flask", "flask", "Flask"]
    start.IsResting ∧ start.state.openRequests = [] ∧ start.Serves names none ∧
      (∃ after results, start.Ends Work.program (Work.prefetch names none (-1)).run after (.ok results) ∧
        start.Prefetches names none (-1) after results) ∧
      ∀ fuel, (start.run Work.program fuel (Work.prefetch names none (-1)).run).1.state.openRequests.length ≤ 1 := by
  intro start names
  have hresting : start.IsResting := (isFresh_opening _).isResting
  have hserves : start.Serves names none := by
    refine serves_of_constant hresting rfl fun name _ => ?_
    obtain ⟨error, herror⟩ : ∃ error, (start.planFor name).classify start.state.today (.response .notFound) =
      .error (.index error) := ⟨_, rfl⟩
    rw [RequestPlan.outcome, herror]
    exact isServed_error_iff.mpr ⟨_, rfl⟩
  exact ⟨hresting, rfl, hserves, exists_prefetches hresting rfl hserves (-1)⟩

end ServiceRun

end ManifestLens
