import ManifestLens.Proofs.Schedule.Process
import ManifestLens.Proofs.Schedule.Tasks

/-!
# Running alone

A scheduler in which nobody is ready and no timer is set stays out of the way of a process that needs
nobody else: the process goes from pause to pause to its end, each sleep costs its time and nothing else
happens meanwhile. This holds of the process run from outside, and of a task for which everybody else
waits.
-/

namespace ManifestLens

variable {σ δ ρ α β : Type}

namespace Binary64

theorem le_self {x : Binary64} (h : x ≠ nan) : x.le x = true := by
  cases x with
  | finite value => simp [le, toRat?]
  | negativeZero => rfl
  | infinite negative => cases negative <;> rfl
  | nan => exact absurd rfl h

theorem le_of_not_lt {x y : Binary64} (hx : x ≠ nan) (hy : y ≠ nan) (h : x.lt y = false) :
    y.le x = true := by
  cases x <;> cases y <;> simp_all [lt]

end Binary64

/-- What a paused process goes on with when another one follows it. -/
def Paused.andThen (paused : Paused σ δ ρ α) (f : α → Process σ δ ρ β) : Paused σ δ ρ β :=
  match paused with
  | .plain next => .plain (next.andThen f)
  | .joining task next => .joining task fun result => (next result).andThen f
  | .gathering tasks next => .gathering tasks fun result => (next result).andThen f

namespace Scheduler

variable {program : Program σ δ ρ} {s : Scheduler σ δ ρ} {task : Nat}

/-! ### Timers -/

theorem isDue_jump (now due : Binary64) :
    (due.le (if now.lt due then due else now)
      || !((if now.lt due then due else now).add resolution).le due) = true := by
  by_cases hnow : now = .nan
  · subst hnow
    have : (Binary64.nan.add resolution).le due = false := rfl
    simp [Binary64.lt, this]
  by_cases hdue : due = .nan
  · subst hdue
    have hlt : now.lt .nan = false := by cases now <;> rfl
    have hle : ∀ x : Binary64, x.le .nan = false := by intro x; cases x <;> rfl
    simp [hlt, hle]
  by_cases hlt : now.lt due = true
  · rw [if_pos hlt, Binary64.le_self hdue, Bool.true_or]
  · rw [if_neg hlt, Binary64.le_of_not_lt hnow hdue (by simpa using hlt), Bool.true_or]

theorem jump?_single {timer : Timer} (htimers : s.timers = ⟨#[timer]⟩)
    (hlive : timer.serial ∉ s.cancelledTimers) :
    s.jump? = some ((({ s with
      now := if s.now.lt timer.due then timer.due else s.now
      timers := {} }).modifyTask timer.task fun t => { t with timer := none }).ask
        (.run timer.task)) := by
  have hfirst : s.timers.first? = some timer := by rw [htimers]; rfl
  have hdrop : s.timers.dropFirst = {} := by rw [htimers]; rfl
  have hsize : s.timers.timers.size = 1 := by rw [htimers]; rfl
  have hcontains : s.cancelledTimers.contains timer.serial = false := by simpa using hlive
  have hkept : dropCancelled s.timers.timers.size s = s := by
    rw [hsize, dropCancelled, hfirst]
    simp only [hcontains, Bool.false_eq_true, if_false]
  simp only [jump?]
  rw [hkept, hfirst, Option.map_some, hsize, fireDue]
  simp only [hfirst, isDue_jump, if_true, hcontains, Bool.false_eq_true, if_false, hdrop, fireDue]

/-- The scheduler after the timer that is due first has gone off. -/
def fired (s : Scheduler σ δ ρ) (timer : Timer) : Scheduler σ δ ρ :=
  ({ s with timers := s.timers.dropFirst }.modifyTask timer.task fun t => { t with timer := none }).ask
    (.run timer.task)

/-- What is kept by every timer that goes off is kept by all those that are due, as long as no timer has been
cancelled. -/
theorem fireDue_induct {P : Scheduler σ δ ρ → Prop}
    (hlive : ∀ s : Scheduler σ δ ρ, P s → ∀ timer ∈ s.timers.timers, timer.serial ∉ s.cancelledTimers)
    (hfired : ∀ (s : Scheduler σ δ ρ) (timer : Timer), P s → s.timers.first? = some timer → P (s.fired timer))
    (fuel : Nat) (limit : Binary64) (h : P s) : P (fireDue fuel limit s) := by
  induction fuel generalizing s with
  | zero => exact h
  | succ fuel ih =>
      rw [fireDue]
      cases hfirst : s.timers.first? with
      | none => exact h
      | some timer =>
          have hcontains : s.cancelledTimers.contains timer.serial = false := by
            simpa using hlive s h timer (TimerHeap.mem_of_first? hfirst)
          simp only [hcontains, Bool.false_eq_true, if_false]
          split
          · exact ih (hfired s timer h hfirst)
          · exact h

/-- If no timer has been cancelled the scheduler jumps to the first one, which goes off, and others with it. -/
theorem exists_jump {timer : Timer} (hfirst : s.timers.first? = some timer)
    (hlive : ∀ timer ∈ s.timers.timers, timer.serial ∉ s.cancelledTimers) :
    ∃ now fuel limit, (now = s.now ∨ s.now.lt now = true) ∧
      s.jump? = some (fireDue fuel limit (fired { s with now } timer)) := by
  obtain ⟨fuel, hfuel⟩ : ∃ fuel, s.timers.timers.size = fuel + 1 :=
    Nat.exists_eq_succ_of_ne_zero (Nat.ne_of_gt (Array.getElem?_eq_some_iff.mp hfirst).1)
  have hcontains : s.cancelledTimers.contains timer.serial = false := by
    simpa using hlive timer (TimerHeap.mem_of_first? hfirst)
  have hkept : dropCancelled s.timers.timers.size s = s := by
    rw [hfuel, dropCancelled, hfirst]
    simp only [hcontains, Bool.false_eq_true, if_false]
  refine ⟨if s.now.lt timer.due then timer.due else s.now, fuel,
    (if s.now.lt timer.due then timer.due else s.now).add resolution, ?_, ?_⟩
  · by_cases hlt : s.now.lt timer.due = true
    · exact .inr (by rwa [if_pos hlt])
    · exact .inl (if_neg hlt)
  · simp only [jump?]
    rw [hkept, hfirst, Option.map_some, hfuel, fireDue]
    simp only [hfirst, isDue_jump, if_true, hcontains, Bool.false_eq_true, if_false]
    rfl

theorem timers_insert_empty (timer : Timer) : ({} : TimerHeap).insert timer = ⟨#[timer]⟩ := by
  have hrise : TimerHeap.rise #[timer] 0 = #[timer] := by rw [TimerHeap.rise]; rfl
  exact congrArg TimerHeap.mk hrise

/-! ### Nobody else -/

/-- Nobody is ready and no timer is set. -/
structure IsIdle (s : Scheduler σ δ ρ) : Prop where
  ready : s.ready = []
  timers : s.timers = {}
  /-- The serial numbers to come are not those of cancelled timers. -/
  fresh : ∀ serial ∈ s.cancelledTimers, serial < s.timerCount
  /-- There is the task that is run from outside. -/
  outside : 0 < s.tasks.size

theorem isIdle_initial (state : σ) : ({ state } : Scheduler σ δ ρ).IsIdle :=
  ⟨rfl, rfl, by simp, Nat.one_pos⟩

theorem IsIdle.withState (h : s.IsIdle) (state : σ) : ({ s with state } : Scheduler σ δ ρ).IsIdle :=
  ⟨h.ready, h.timers, h.fresh, h.outside⟩

theorem IsIdle.modifyTask (h : s.IsIdle) (task : Nat) (f : TaskState σ δ ρ → TaskState σ δ ρ) :
    (s.modifyTask task f).IsIdle :=
  ⟨h.ready, h.timers, h.fresh, by simpa [Scheduler.modifyTask] using h.outside⟩

theorem IsIdle.enter (h : s.IsIdle) (description : δ) : (s.enter description).IsIdle :=
  ⟨h.ready, h.timers, h.fresh, by simp [Scheduler.enter]⟩

/-- Everybody but one task waits, and that one has just gone to sleep. -/
structure IsAsleep (s : Scheduler σ δ ρ) (task : Nat) (seconds : Number) : Prop where
  yields : seconds ≤ 0 → s.ready = [.run task] ∧ s.timers = {}
  sleeps : ¬ seconds ≤ 0 → s.ready = [] ∧ ∃ serial, serial ∉ s.cancelledTimers ∧
    s.timers = ⟨#[⟨s.now.add seconds.toBinary64, task, serial⟩]⟩
  fresh : ∀ serial ∈ s.cancelledTimers, serial < s.timerCount
  outside : 0 < s.tasks.size

theorem IsAsleep.modifyTask {seconds : Number} (h : s.IsAsleep task seconds) (other : Nat)
    (f : TaskState σ δ ρ → TaskState σ δ ρ) : (s.modifyTask other f).IsAsleep task seconds :=
  ⟨h.yields, h.sleeps, h.fresh, by simpa [Scheduler.modifyTask] using h.outside⟩

theorem IsIdle.isAsleep_advance (h : s.IsIdle) (task : Nat) (seconds : Number)
    (next : Process σ δ ρ α) : (s.advance task (.sleep seconds next)).1.IsAsleep task seconds := by
  by_cases hle : seconds ≤ 0
  · rw [advance, if_pos hle]
    exact ⟨fun _ => ⟨by simp [ask, h.ready], h.timers⟩, fun hgt => absurd hle hgt, h.fresh,
      h.outside⟩
  · have hserial : s.timerCount ∉ s.cancelledTimers := fun hmem =>
      Nat.lt_irrefl _ (h.fresh _ hmem)
    rw [advance, if_neg hle]
    refine ⟨fun hpos => absurd hpos hle, fun _ => ⟨h.ready, s.timerCount, hserial, ?_⟩, ?_, ?_⟩
    · simp only [setTimer, Scheduler.modifyTask, h.timers, timers_insert_empty]
    · intro serial hmem
      exact Nat.lt_succ_of_lt (h.fresh serial hmem)
    · simpa [setTimer, Scheduler.modifyTask] using h.outside

/-- A task that sleeps while everybody waits gets its turn at its time. -/
theorem IsAsleep.exists_woken {seconds : Number} (h : s.IsAsleep task seconds)
    (program : Program σ δ ρ) (α : Type) :
    ∃ turns, ∃ woken : Scheduler σ δ ρ, woken.IsIdle ∧
      woken.now = Process.wakeTime s.now seconds ∧ woken.state = s.state ∧
      (woken.tasks = s.tasks ∨
        woken.tasks = s.tasks.modify task fun t => { t with timer := none }) ∧
      ∀ (fuel : Nat) (paused : Paused σ δ ρ α), complete program (fuel + turns) s paused
        = complete program fuel (woken.ask (.run task)) paused := by
  by_cases hle : seconds ≤ 0
  · obtain ⟨hready, htimers⟩ := h.yields hle
    refine ⟨0, { s with ready := [] }, ⟨rfl, htimers, h.fresh, h.outside⟩, ?_, rfl, .inl rfl, ?_⟩
    · rw [Process.wakeTime, if_pos hle]
    · intro fuel paused
      have hs : ({ s with ready := [] } : Scheduler σ δ ρ).ask (.run task) = s := by
        simp only [ask, List.nil_append, ← hready]
      rw [hs, Nat.add_zero]
  · obtain ⟨hready, serial, hserial, htimers⟩ := h.sleeps hle
    have hjump := jump?_single htimers hserial
    refine ⟨1, ({ s with
      now := if s.now.lt (s.now.add seconds.toBinary64) then s.now.add seconds.toBinary64
        else s.now
      timers := {} }).modifyTask task fun t => { t with timer := none },
      ⟨hready, rfl, h.fresh, by simpa [Scheduler.modifyTask] using h.outside⟩, ?_, rfl, .inr rfl, ?_⟩
    · rw [Process.wakeTime, if_neg hle]
      rfl
    · intro fuel paused
      simp only [complete, hready, hjump]

/-! ### From outside -/

/-- A process from outside ends with a value and leaves a scheduler behind, however many turns it is given
beyond those it needs. -/
def Ends (program : Program σ δ ρ) (s : Scheduler σ δ ρ) (process : Process σ δ ρ α)
    (after : Scheduler σ δ ρ) (value : α) : Prop :=
  ∃ turns, ∀ fuel, s.run program (fuel + turns) process = (after, some value)

theorem Ends.unique {process : Process σ δ ρ α} {after other : Scheduler σ δ ρ} {value found : α}
    (h : s.Ends program process after value) (hother : s.Ends program process other found) :
    after = other ∧ value = found := by
  obtain ⟨turns, hturns⟩ := h
  obtain ⟨more, hmore⟩ := hother
  have hboth := (hturns more).symm.trans ((Nat.add_comm turns more) ▸ hmore turns)
  simpa using hboth

theorem ends_done (value : α) : s.Ends program (.done value) s value := ⟨0, fun _ => rfl⟩

theorem ends_look {next : Moment → σ → Process σ δ ρ α} {after : Scheduler σ δ ρ} {value : α}
    (h : s.Ends program (next ⟨s.now, 0⟩ s.state) after value) :
    s.Ends program (.look next) after value := h

theorem ends_change {f : σ → σ} {next : Process σ δ ρ α} {after : Scheduler σ δ ρ} {value : α}
    (h : ({ s with state := f s.state } : Scheduler σ δ ρ).Ends program next after value) :
    s.Ends program (.change f next) after value := h

theorem advance_andThen (s : Scheduler σ δ ρ) (task : Nat) (p : Process σ δ ρ α)
    (f : α → Process σ δ ρ β) : s.advance task (p.andThen f)
      = match s.advance task p with
        | (s, .inl value) => s.advance task (f value)
        | (s, .inr paused) => (s, .inr (paused.andThen f)) := by
  induction p generalizing s with
  | done value => rfl
  | look next ih => exact ih _ _ _
  | change g next ih => exact ih _
  | spawn description next ih => exact ih _ _
  | cancel other next ih => exact ih _
  | sleep seconds next ih =>
      simp only [Process.andThen, advance]
      split <;> rfl
  | join other next ih =>
      simp only [Process.andThen, advance]
      split
      · exact ih _ _
      · rfl
  | joinAll others eager next ih =>
      simp only [Process.andThen, advance]
      split
      · exact ih _ _
      · rfl
  | park next ih => rfl
  | wake other next ih => exact ih _

theorem resume_andThen (s : Scheduler σ δ ρ) (task : Nat) (paused : Paused σ δ ρ α)
    (f : α → Process σ δ ρ β) : s.resume task (paused.andThen f) = (s.resume task paused).andThen f := by
  cases paused with
  | plain next => rfl
  | joining other next => rfl
  | gathering others next =>
      simp only [Paused.andThen, resume]
      split <;> rfl

/-- The turns that a paused process needs to its end are those in which the process after it begins. -/
theorem complete_andThen {s mid after : Scheduler σ δ ρ} {fuel turns : Nat} {paused : Paused σ δ ρ α}
    {f : α → Process σ δ ρ β} {value : α} {last : β}
    (h : complete program fuel s paused = (mid, some value))
    (hrest : ∀ fuel, mid.run program (fuel + turns) (f value) = (after, some last)) :
    ∀ more, complete program (more + turns + fuel) s (paused.andThen f) = (after, some last) := by
  intro more
  induction fuel generalizing s paused with
  | zero => simp [complete] at h
  | succ fuel ih =>
      rw [← Nat.add_assoc]
      cases hready : s.ready with
      | nil =>
          simp only [complete, hready] at h ⊢
          cases hjump : s.jump? with
          | none => simp [hjump] at h
          | some later =>
              rw [hjump] at h
              exact ih h
      | cons turn ready =>
          simp only [complete, hready] at h ⊢
          by_cases hturn : turn = .run 0
          · simp only [if_pos hturn, resume_andThen, advance_andThen] at h ⊢
            cases hadvance : advance { s with ready } 0 (resume { s with ready } 0 paused) with
            | mk next part =>
                rw [hadvance] at h
                cases part with
                | inl result =>
                    obtain ⟨rfl, rfl⟩ : next = mid ∧ result = value := by simpa using h
                    have hlast := hrest (more + fuel)
                    rw [Nat.add_right_comm] at hlast
                    exact hlast
                | inr paused => exact ih h
          · rw [if_neg hturn] at h ⊢
            exact ih h

theorem Ends.andThen {mid after : Scheduler σ δ ρ} {p : Process σ δ ρ α} {f : α → Process σ δ ρ β}
    {value : α} {last : β} (h : s.Ends program p mid value) (hrest : mid.Ends program (f value) after last) :
    s.Ends program (p.andThen f) after last := by
  obtain ⟨turns, hturns⟩ := h
  obtain ⟨needed, hneeded⟩ := hrest
  refine ⟨needed + turns, fun more => ?_⟩
  have hfirst := hturns 0
  rw [Nat.zero_add] at hfirst
  rw [run, advance_andThen]
  rw [run] at hfirst
  cases hadvance : s.advance 0 p with
  | mk next part =>
      rw [hadvance] at hfirst
      cases part with
      | inl result =>
          obtain ⟨rfl, rfl⟩ : next = mid ∧ result = value := by simpa using hfirst
          have hlast := hneeded (more + turns)
          rw [Nat.add_right_comm, Nat.add_assoc more] at hlast
          exact hlast
      | inr paused =>
          rw [← Nat.add_assoc]
          exact complete_andThen hfirst hneeded more

theorem complete_cons {turn : Turn} {ready : List Turn} (hready : s.ready = turn :: ready)
    (hturn : turn ≠ .run 0) (fuel : Nat) (paused : Paused σ δ ρ α) :
    complete program (fuel + 1) s paused
      = complete program fuel (take program { s with ready } turn) paused := by
  rw [complete, hready]
  simp only [if_neg hturn]

theorem complete_outside {ready : List Turn} (hready : s.ready = .run 0 :: ready) (fuel : Nat)
    (paused : Paused σ δ ρ α) : complete program (fuel + 1) s paused
      = run program fuel { s with ready } (resume { s with ready } 0 paused) := by
  rw [complete, hready]
  simp only [if_true, run]

theorem IsIdle.ask_ready (h : s.IsIdle) (turn : Turn) : (s.ask turn).ready = [turn] := by
  simp [ask, h.ready]

theorem IsIdle.ask_taken (h : s.IsIdle) (turn : Turn) : { s.ask turn with ready := [] } = s := by
  simp only [ask, ← h.ready]

/-- **Alone from outside.** A process that needs nobody else ends in an idle scheduler with what comes of it
on its own. -/
theorem exists_ends_of_alone (program : Program σ δ ρ) {process : Process σ δ ρ α} (hidle : s.IsIdle)
    {now : Binary64} {state : σ} {value : α} (h : process.alone 0 s.now s.state = some (now, state, value)) :
    ∃ after : Scheduler σ δ ρ, after.IsIdle ∧ after.now = now ∧ after.state = state ∧
      s.Ends program process after value := by
  induction process generalizing s with
  | done result =>
      obtain ⟨rfl, rfl, rfl⟩ : s.now = now ∧ s.state = state ∧ result = value := by simpa using h
      exact ⟨s, hidle, rfl, rfl, ends_done result⟩
  | look next ih =>
      obtain ⟨after, hafter, hnow, hstate, hends⟩ := ih _ _ hidle h
      exact ⟨after, hafter, hnow, hstate, ends_look hends⟩
  | change f next ih =>
      obtain ⟨after, hafter, hnow, hstate, hends⟩ := ih (hidle.withState (f s.state)) h
      exact ⟨after, hafter, hnow, hstate, ends_change hends⟩
  | sleep seconds next ih =>
      obtain ⟨turns, woken, hwoken, hnow, hstate, -, hturns⟩ :=
        (hidle.isAsleep_advance 0 seconds next).exists_woken program α
      have hkept : (s.advance 0 (.sleep seconds next)).1.now = s.now ∧
          (s.advance 0 (.sleep seconds next)).1.state = s.state ∧
          (s.advance 0 (.sleep seconds next)).2 = .inr (.plain next) := by
        rw [advance]
        split <;> exact ⟨rfl, rfl, rfl⟩
      rw [hkept.1] at hnow
      rw [hkept.2.1] at hstate
      rw [Process.alone_sleep, ← hnow, ← hstate] at h
      obtain ⟨after, hafter, hnow', hstate', needed, hneeded⟩ := ih hwoken h
      refine ⟨after, hafter, hnow', hstate', needed + 1 + turns, fun fuel => ?_⟩
      have hrun : s.run program (fuel + (needed + 1 + turns)) (.sleep seconds next)
          = complete program (fuel + (needed + 1 + turns)) (s.advance 0 (.sleep seconds next)).1
            (.plain next) := by
        rw [run]
        split <;> simp_all
      rw [hrun, ← Nat.add_assoc, hturns, ← Nat.add_assoc, complete_outside (hwoken.ask_ready _),
        hwoken.ask_taken]
      exact hneeded fuel
  | spawn | cancel | join | joinAll | park | wake => cases h

/-! ### In a task -/

theorem runTask_fresh {t : TaskState σ δ ρ} {description : δ} (ht : s.tasks[task]? = some t)
    (hlive : t.isCancelled = false) (hstatus : t.status = .fresh description) :
    s.runTask program task = s.proceed task (program.body description) := by
  simp only [runTask, ht, hlive, hstatus, Bool.false_and, Bool.false_eq_true, if_false]

theorem runTask_paused {t : TaskState σ δ ρ} {paused : Paused σ δ ρ ρ} (ht : s.tasks[task]? = some t)
    (hlive : t.isCancelled = false) (hstatus : t.status = .paused paused) :
    s.runTask program task = s.proceed task (s.resume task paused) := by
  simp only [runTask, ht, hlive, hstatus, Bool.false_and, Bool.false_eq_true, if_false]

/-- **Alone in a task.** While everybody else waits, a task that needs nobody else comes to its end with what
comes of it on its own. -/
theorem exists_finish_of_alone (program : Program σ δ ρ) {process : Process σ δ ρ ρ} (htask : task ≠ 0)
    (hidle : s.IsIdle)
    {t : TaskState σ δ ρ} (ht : s.tasks[task]? = some t) (hlive : t.isCancelled = false)
    {now : Binary64} {state : σ} {value : ρ}
    (h : process.alone task s.now s.state = some (now, state, value)) (α : Type) :
    ∃ turns, ∃ after : Scheduler σ δ ρ, after.IsIdle ∧ after.now = now ∧ after.state = state ∧
      (∃ t', after.tasks[task]? = some t' ∧ t'.watchers = t.watchers) ∧
      ∀ (fuel : Nat) (paused : Paused σ δ ρ α),
        complete program (fuel + turns) (s.proceed task process) paused
          = complete program fuel (after.finish task (.finished value)) paused := by
  induction process generalizing s t with
  | done result =>
      obtain ⟨rfl, rfl, rfl⟩ : s.now = now ∧ s.state = state ∧ result = value := by simpa using h
      exact ⟨0, s, hidle, rfl, rfl, ⟨t, ht, rfl⟩, fun _ _ => rfl⟩
  | look next ih => exact ih _ _ hidle ht hlive h
  | change f next ih => exact ih (hidle.withState (f s.state)) ht hlive h
  | sleep seconds next ih =>
      have hkept : (s.advance task (.sleep seconds next)).1.now = s.now ∧
          (s.advance task (.sleep seconds next)).1.state = s.state ∧
          (s.advance task (.sleep seconds next)).2 = .inr (.plain next) ∧
          ∃ timer, (s.advance task (.sleep seconds next)).1.tasks[task]? = some { t with timer } := by
        rw [advance]
        split
        · exact ⟨rfl, rfl, rfl, t.timer, ht⟩
        · refine ⟨rfl, rfl, rfl, some s.timerCount, ?_⟩
          rw [setTimer, getElem?_modifyTask, if_pos rfl, ht]
          rfl
      have hproceed : s.proceed task (.sleep seconds next)
          = (s.advance task (.sleep seconds next)).1.modifyTask task fun t =>
            { t with status := .paused (.plain next) } := by
        rw [proceed]
        split <;> simp_all
      obtain ⟨timer, htimer⟩ := hkept.2.2.2
      obtain ⟨turns, woken, hwoken, hnow, hstate, htasks, hturns⟩ :=
        ((hidle.isAsleep_advance task seconds next).modifyTask task fun t =>
          { t with status := .paused (.plain next) }).exists_woken program α
      obtain ⟨timer', ht'⟩ : ∃ timer', woken.tasks[task]?
          = some { t with status := .paused (.plain next), timer := timer' } := by
        rcases htasks with htasks | htasks
        · refine ⟨timer, ?_⟩
          rw [htasks, getElem?_modifyTask, if_pos rfl, htimer]
          rfl
        · refine ⟨none, ?_⟩
          rw [htasks, Array.getElem?_modify, if_pos rfl, getElem?_modifyTask, if_pos rfl, htimer]
          rfl
      have hnow' : woken.now = Process.wakeTime s.now seconds := by rw [hnow, ← hkept.1]; rfl
      have hstate' : woken.state = s.state := by rw [hstate, ← hkept.2.1]; rfl
      rw [Process.alone_sleep, ← hnow', ← hstate'] at h
      obtain ⟨needed, after, hafter, hend, hlast, ⟨t', hwatch, heq⟩, hneeded⟩ := ih hwoken ht' hlive h
      refine ⟨needed + 1 + turns, after, hafter, hend, hlast, ⟨t', hwatch, heq⟩, fun fuel paused => ?_⟩
      rw [hproceed, ← Nat.add_assoc, hturns, ← Nat.add_assoc,
        complete_cons (hwoken.ask_ready _) (by simpa using htask), hwoken.ask_taken, take,
        runTask_paused ht' hlive rfl]
      exact hneeded fuel paused
  | spawn | cancel | join | joinAll | park | wake => cases h

/-! ### Waiting for a task of one's own -/

theorem resultOf_finish (s : Scheduler σ δ ρ) {t : TaskState σ δ ρ} (ht : s.tasks[task]? = some t)
    (result : TaskResult ρ) :
    (s.modifyTask task fun t => { t with status := .ended result, watchers := [] }).resultOf task
      = result := by
  rw [resultOf, getElem?_modifyTask, if_pos rfl, ht]
  rfl

/-- **A task of one's own.** Who starts a task and waits for it, while there is nobody else, goes on with what
comes of the task on its own. -/
theorem IsIdle.exists_joined (hidle : s.IsIdle) (program : Program σ δ ρ) (description : δ)
    (note : Nat → σ → σ) {now : Binary64} {state : σ} {value : ρ}
    (h : (program.body description).alone s.tasks.size s.now (note s.tasks.size s.state)
      = some (now, state, value)) :
    ∃ mid : Scheduler σ δ ρ, mid.IsIdle ∧ mid.now = now ∧
      mid.state = program.onEnd s.tasks.size state ∧
        ∀ (next : Nat → TaskResult ρ → Process σ δ ρ α) (after : Scheduler σ δ ρ) (last : α),
        mid.Ends program (next s.tasks.size (.finished value)) after last →
        s.Ends program (.spawn description fun id => .change (note id) (.join id (next id))) after
          last := by
  let id := s.tasks.size
  let t : TaskState σ δ ρ :=
    { status := .fresh description, errand := some description, watchers := [.waiter 0] }
  -- The new task is entered and watched.
  let entered : Scheduler σ δ ρ :=
    ({ s.enter description with state := note id s.state } : Scheduler σ δ ρ).watch id (.waiter 0)
  have hentered : entered.IsIdle := ((hidle.enter description).withState _).modifyTask _ _
  have ht : entered.tasks[id]? = some t := by
    have hwatch : entered.tasks[id]? = if id = id then (s.enter description).tasks[id]?.map fun t =>
        { t with watchers := t.watchers ++ [.waiter 0] } else (s.enter description).tasks[id]? :=
      getElem?_modifyTask _ _ _ _
    rw [hwatch, if_pos rfl, Scheduler.enter, Array.getElem?_push_size]
    rfl
  have hid : id ≠ 0 := Nat.pos_iff_ne_zero.mp hidle.outside
  obtain ⟨turns, ended, hended, hnow, hstate, ⟨t', ht', hwatchers⟩, hturns⟩ :=
    exists_finish_of_alone program hid hentered ht rfl h α
  refine ⟨{ ended.modifyTask id fun t => { t with status := .ended (.finished value), watchers := [] } with
    state := program.onEnd id ended.state }, (hended.modifyTask _ _).withState _, hnow, by rw [hstate], ?_⟩
  rintro next after last ⟨needed, hneeded⟩
  have hadvance : s.advance 0 (.spawn description fun id => .change (note id) (.join id (next id)))
      = (entered.ask (.run id), .inr (.joining id (next id))) := by
    have hrunning : ({ (s.enter description).ask (.run id) with
        state := note id s.state } : Scheduler σ δ ρ).hasEnded id = false := by
      simp [hasEnded, resultOf, Scheduler.enter, ask, id]
    simp only [advance]
    rw [if_neg]
    · rfl
    · exact Bool.eq_false_iff.mp hrunning
  refine ⟨needed + 3 + turns + 1, fun fuel => ?_⟩
  rw [run, hadvance]
  simp only
  rw [← Nat.add_assoc, complete_cons (hentered.ask_ready _) (by simpa using hid), hentered.ask_taken,
    take, runTask_fresh ht rfl rfl, ← Nat.add_assoc, hturns]
  -- Three turns follow the end of the task: what the end undoes, the news of it, and the one who waits.
  let told : Scheduler σ δ ρ := { ended.modifyTask id fun t =>
    { t with status := .ended (.finished value), watchers := [] } with
    state := program.onEnd id ended.state }
  have htold : told.IsIdle := (hended.modifyTask _ _).withState _
  have hresult : told.resultOf id = .finished value := resultOf_finish ended ht' (.finished value)
  have hwatched : (ended.tasks[id]?.map TaskState.watchers).getD [] = [.waiter 0] := by
    rw [ht', Option.map_some, Option.getD_some, hwatchers]
  have hfinish : ended.finish id (.finished value) = ((ended.modifyTask id fun t =>
      { t with status := .ended (.finished value), watchers := [] }).ask (.ended id)).ask (.tell 0) := by
    rw [finish, hwatched]
    rfl
  have hready : (ended.finish id (.finished value)).ready = .ended id :: [.tell 0] := by
    simp [hfinish, ask, Scheduler.modifyTask, hended.ready]
  have hnext : take program { ended.finish id (.finished value) with ready := [.tell 0] } (.ended id)
      = told.ask (.tell 0) := by
    simp only [hfinish, take, ask, told, Scheduler.modifyTask, hended.ready, List.nil_append]
  have htell : told.take program (.tell 0) = told.ask (.run 0) := rfl
  have hcount : fuel + (needed + 3) = fuel + needed + 1 + 1 + 1 := by omega
  rw [hcount, complete_cons hready (by simp), hnext, complete_cons (htold.ask_ready _) (by simp),
    htold.ask_taken, htell, complete_outside (htold.ask_ready _), htold.ask_taken, resume, hresult]
  exact hneeded fuel

end Scheduler

end ManifestLens

/-!
## Being led to an end

A process from outside that waits goes on when its turn has come. The turns before it are gone through one by one:
if the scheduler after a turn leads the process to its end, so does the scheduler before it.
-/

namespace ManifestLens

variable {σ δ ρ α β : Type}

theorem Process.andThen_done (p : Process σ δ ρ α) : p.andThen .done = p := by
  induction p with
  | done value => rfl
  | look next ih => simp only [andThen, ih]
  | change g next ih => simp only [andThen, ih]
  | spawn task next ih => simp only [andThen, ih]
  | cancel task next ih => simp only [andThen, ih]
  | sleep seconds next ih => simp only [andThen, ih]
  | join task next ih => simp only [andThen, ih]
  | joinAll tasks eager next ih => simp only [andThen, ih]
  | park next ih => simp only [andThen, ih]
  | wake task next ih => simp only [andThen, ih]

theorem Paused.andThen_done (paused : Paused σ δ ρ α) : paused.andThen .done = paused := by
  cases paused <;> simp only [andThen, Process.andThen_done]

namespace Scheduler

variable {program : Program σ δ ρ} {s s' after : Scheduler σ δ ρ} {p : Process σ δ ρ α} {paused : Paused σ δ ρ α}
  {post : α → Prop} {value : α}

/-- Turns to come lead a process from outside that waits to a value of which the postcondition holds. -/
def Leads (program : Program σ δ ρ) (s : Scheduler σ δ ρ) (paused : Paused σ δ ρ α) (post : α → Prop) : Prop :=
  ∃ after value, post value ∧ ∃ turns, ∀ fuel, complete program (fuel + turns) s paused = (after, some value)

theorem Leads.of_turn {turn : Turn} {ready : List Turn} (hready : s.ready = turn :: ready) (hturn : turn ≠ .run 0)
    (h : Leads program (take program { s with ready } turn) paused post) : Leads program s paused post := by
  obtain ⟨after, value, hpost, turns, hturns⟩ := h
  refine ⟨after, value, hpost, turns + 1, fun fuel => ?_⟩
  rw [← Nat.add_assoc, complete_cons hready hturn]
  exact hturns fuel

/-- Tasks that are told of an end have their turns after all that were asked for before. -/
theorem Leads.of_tells {tasks : List Nat} {ready : List Turn} (hready : s.ready = tasks.map .tell ++ ready)
    (h : Leads program { s with ready := ready ++ tasks.map .run } paused post) : Leads program s paused post := by
  induction tasks generalizing s ready with
  | nil =>
      obtain rfl : s.ready = ready := hready
      rwa [List.map_nil, List.append_nil] at h
  | cons task rest ih =>
      have htold : Leads program { s with ready := rest.map .tell ++ (ready ++ [.run task]) } paused post := by
        refine ih rfl ?_
        rwa [List.append_assoc]
      refine .of_turn (show s.ready = .tell task :: (rest.map .tell ++ ready) from hready) (by simp) ?_
      rw [take, ask]
      simpa using htold

theorem Leads.of_jump (hready : s.ready = []) (hjump : s.jump? = some s')
    (h : Leads program s' paused post) : Leads program s paused post := by
  obtain ⟨after, value, hpost, turns, hturns⟩ := h
  refine ⟨after, value, hpost, turns + 1, fun fuel => ?_⟩
  simp only [complete, hready, hjump]
  exact hturns fuel

theorem leads_of_outside {ready : List Turn} (hready : s.ready = .run 0 :: ready)
    (hadvance : advance { s with ready } 0 (resume { s with ready } 0 paused) = (after, .inl value))
    (hpost : post value) : Leads program s paused post := by
  refine ⟨after, value, hpost, 1, fun fuel => ?_⟩
  rw [complete_outside hready, run, hadvance]

theorem Leads.exists_ends (h : Leads program s' paused post) (hadvance : s.advance 0 p = (s', .inr paused)) :
    ∃ after value, s.Ends program p after value ∧ post value := by
  obtain ⟨after, value, hpost, turns, hturns⟩ := h
  refine ⟨after, value, ⟨turns, fun fuel => ?_⟩, hpost⟩
  rw [run, hadvance]
  exact hturns fuel

/-! ### Ends of parts -/

theorem ends_of_run (fuel : Nat) (h : s.run program fuel p = (after, some value)) : s.Ends program p after value := by
  refine ⟨fuel, fun more => ?_⟩
  rw [run] at h ⊢
  cases hadvance : s.advance 0 p with
  | mk next part =>
      rw [hadvance] at h
      cases part with
      | inl result => exact h
      | inr paused =>
          have hmore := complete_andThen h (fun fuel => (rfl : after.run program (fuel + 0) (.done value) = _)) more
          rw [Paused.andThen_done] at hmore
          exact hmore

theorem complete_andThen_done (program : Program σ δ ρ) (g : α → β) (fuel : Nat) (s : Scheduler σ δ ρ)
    (paused : Paused σ δ ρ α) : complete program fuel s (paused.andThen fun value => .done (g value))
      = ((complete program fuel s paused).1, (complete program fuel s paused).2.map g) := by
  induction fuel generalizing s paused with
  | zero => rfl
  | succ fuel ih =>
      simp only [complete]
      cases s.ready with
      | nil =>
          simp only
          cases s.jump? with
          | none => rfl
          | some later => exact ih later paused
      | cons turn ready =>
          simp only
          split
          · rw [resume_andThen, advance_andThen]
            cases advance { s with ready } 0 (resume { s with ready } 0 paused) with
            | mk next part =>
                cases part with
                | inl result => rfl
                | inr paused => exact ih next paused
          · exact ih _ paused

/-- A process of which a function is taken in the end has ended itself. -/
theorem Ends.of_andThen_done {g : α → β} {found : β}
    (h : s.Ends program (p.andThen fun value => .done (g value)) after found) :
    ∃ value, s.Ends program p after value ∧ g value = found := by
  obtain ⟨turns, hturns⟩ := h
  have hrun := hturns 0
  rw [run, advance_andThen] at hrun
  cases hadvance : s.advance 0 p with
  | mk next part =>
      rw [hadvance] at hrun
      cases part with
      | inl value =>
          obtain ⟨rfl, rfl⟩ : next = after ∧ g value = found := by simpa [advance] using hrun
          exact ⟨value, ends_of_run 0 (by rw [run, hadvance]), rfl⟩
      | inr paused =>
          simp only [complete_andThen_done, Prod.mk.injEq, Option.map_eq_some_iff] at hrun
          obtain ⟨hafter, value, hvalue, rfl⟩ := hrun
          refine ⟨value, ends_of_run (0 + turns) ?_, rfl⟩
          rw [run, hadvance]
          exact Prod.ext hafter hvalue

end Scheduler

end ManifestLens
