import ManifestLens.Proofs.Schedule.Process
import ManifestLens.Proofs.Schedule.Tasks

/-!
# A rule that all tasks abide by

A rule says which changes of the state are allowed and what tasks may be started for, in states of which
something holds that these changes keep. A process abides by it if it does so in whatever such state it finds
when it goes on after a wait. Where all processes abide by a rule, so does the scheduler that runs them: each of
its operations only makes allowed changes and leaves every task with work that abides. A cancelled task may be
anything, for it is given no turn but the one in which it ends.
-/

namespace ManifestLens

variable {σ δ ρ α β : Type}

/-- Which changes of the state are allowed, and what tasks may be started for, while something holds. -/
structure TaskRule (σ δ : Type) where
  holds : σ → Prop
  change : σ → σ → Prop
  start : δ → Prop
  refl : ∀ state, change state state
  trans : ∀ {a b c}, change a b → change b c → change a c
  keeps : ∀ {a b}, holds a → change a b → holds b

namespace Process

variable {rule : TaskRule σ δ}

/-- From a state on, the process only makes allowed changes and starts allowed tasks, whatever the others do while
it waits. -/
def Abides (rule : TaskRule σ δ) : Process σ δ ρ α → σ → Prop
  | .done _, _ => True
  | .look next, state => ∀ moment, (next moment state).Abides rule state
  | .change f next, state => rule.change state (f state) ∧ next.Abides rule (f state)
  | .spawn task next, state => rule.start task ∧ ∀ id, (next id).Abides rule state
  | .cancel _ next, state | .wake _ next, state => next.Abides rule state
  | .sleep _ next, _ | .park next, _ => ∀ later, rule.holds later → next.Abides rule later
  | .join _ next, _ => ∀ result later, rule.holds later → (next result).Abides rule later
  | .joinAll _ _ next, _ => ∀ result later, rule.holds later → (next result).Abides rule later

theorem Abides.andThen {p : Process σ δ ρ α} {f : α → Process σ δ ρ β} {state : σ} (hstate : rule.holds state)
    (h : p.Abides rule state) (hnext : ∀ value later, rule.holds later → (f value).Abides rule later) :
    (p.andThen f).Abides rule state := by
  induction p generalizing state with
  | done value => exact hnext value state hstate
  | look next ih => exact fun moment => ih _ _ hstate (h moment)
  | change g next ih => exact ⟨h.1, ih (rule.keeps hstate h.1) h.2⟩
  | spawn task next ih => exact ⟨h.1, fun id => ih id hstate (h.2 id)⟩
  | cancel task next ih | wake task next ih => exact ih hstate h
  | sleep seconds next ih | park next ih => exact fun later hlater => ih hlater (h later hlater)
  | join task next ih | joinAll tasks eager next ih =>
      exact fun result later hlater => ih result hlater (h result later hlater)

end Process

/-- However long the process waits, it goes on abiding by the rule. -/
def Paused.Abides (rule : TaskRule σ δ) : Paused σ δ ρ α → Prop
  | .plain next => ∀ later, rule.holds later → next.Abides rule later
  | .joining _ next => ∀ result later, rule.holds later → (next result).Abides rule later
  | .gathering _ next => ∀ result later, rule.holds later → (next result).Abides rule later

/-- What a task is still going to do abides by the rule. -/
def TaskStatus.Abides (rule : TaskRule σ δ) : TaskStatus σ δ ρ → Prop
  | .fresh task => rule.start task
  | .paused waiting => waiting.Abides rule
  | .outside | .ended _ => True

/-- The task is cancelled, or what it is still going to do abides by the rule. -/
def TaskState.Abides (rule : TaskRule σ δ) (t : TaskState σ δ ρ) : Prop :=
  t.isCancelled = true ∨ t.status.Abides rule

/-- What the tasks of a program do abides by the rule, and so does what follows when they end. -/
structure Program.Abides (rule : TaskRule σ δ) (program : Program σ δ ρ) : Prop where
  body : ∀ task, rule.start task → ∀ state, rule.holds state → (program.body task).Abides rule state
  onCancel : ∀ task state, rule.holds state → rule.change state (program.onCancel task state)
  onEnd : ∀ task state, rule.holds state → rule.change state (program.onEnd task state)

namespace Scheduler

variable {rule : TaskRule σ δ} {s s' : Scheduler σ δ ρ}

/-- The state is as the rule takes it to be, and all tasks abide by it. -/
structure Abides (rule : TaskRule σ δ) (s : Scheduler σ δ ρ) : Prop where
  holds : rule.holds s.state
  tasks : ∀ (id : Nat) t, s.tasks[id]? = some t → t.Abides rule

theorem abides_initial {state : σ} {now : Binary64} (h : rule.holds state) :
    Abides rule ({ state, now } : Scheduler σ δ ρ) := by
  refine ⟨h, fun id t ht => ?_⟩
  have hmem : t ∈ #[({ status := .outside } : TaskState σ δ ρ)] := Array.mem_of_getElem? ht
  obtain rfl := Array.mem_singleton.mp hmem
  exact .inr trivial

/-- An operation that makes an allowed change, and after which all tasks abide by the rule if they did before. -/
structure Moves (rule : TaskRule σ δ) (s s' : Scheduler σ δ ρ) : Prop where
  change : rule.change s.state s'.state
  abides : s.Abides rule → s'.Abides rule

namespace Moves

theorem refl (s : Scheduler σ δ ρ) : Moves rule s s := ⟨rule.refl _, id⟩

theorem trans {s'' : Scheduler σ δ ρ} (h : Moves rule s s') (h' : Moves rule s' s'') : Moves rule s s'' :=
  ⟨rule.trans h.change h'.change, fun habides => h'.abides (h.abides habides)⟩

theorem of_tasks (htasks : s'.tasks = s.tasks) (hchange : rule.change s.state s'.state) : Moves rule s s' :=
  ⟨hchange, fun habides =>
    ⟨rule.keeps habides.holds hchange, fun id t ht => habides.tasks id t (htasks ▸ ht)⟩⟩

theorem of_eq (htasks : s'.tasks = s.tasks) (hstate : s'.state = s.state) : Moves rule s s' :=
  of_tasks htasks (hstate ▸ rule.refl _)

end Moves

theorem moves_modifyTask (s : Scheduler σ δ ρ) (task : Nat) {f : TaskState σ δ ρ → TaskState σ δ ρ}
    (hf : ∀ t, t.Abides rule → (f t).Abides rule) : Moves rule s (s.modifyTask task f) := by
  refine ⟨rule.refl _, fun habides => ⟨habides.holds, fun id t ht => ?_⟩⟩
  rw [getElem?_modifyTask] at ht
  split at ht
  · obtain ⟨u, hu, rfl⟩ := Option.map_eq_some_iff.mp ht
    exact hf u (habides.tasks id u hu)
  · exact habides.tasks id t ht

theorem moves_ask (s : Scheduler σ δ ρ) (turn : Turn) : Moves rule s (s.ask turn) := .of_eq rfl rfl

theorem moves_enter (s : Scheduler σ δ ρ) {description : δ} (h : rule.start description) :
    Moves rule s (s.enter description) := by
  refine ⟨rule.refl _, fun habides => ⟨habides.holds, fun id t ht => ?_⟩⟩
  rw [getElem?_enter] at ht
  split at ht
  · cases ht
    exact .inr h
  · exact habides.tasks id t ht

theorem state_requestCancel (s : Scheduler σ δ ρ) (task : Nat) : (s.requestCancel task).state = s.state := by
  unfold requestCancel
  split
  · rfl
  · simp only
    split <;> rfl

theorem moves_requestCancel (s : Scheduler σ δ ρ) (task : Nat) : Moves rule s (s.requestCancel task) := by
  unfold requestCancel
  split
  · exact .refl s
  · have hflag : Moves rule s (s.modifyTask task fun t => { t with isCancelled := true, timer := none }) :=
      moves_modifyTask s task fun _ _ => .inl rfl
    simp only
    split
    · exact hflag.trans (.of_eq rfl rfl)
    · exact hflag.trans (moves_ask _ _)
    · exact hflag

theorem tasks_requestCancel (s : Scheduler σ δ ρ) (task : Nat) : (s.requestCancel task).tasks =
    if s.hasEnded task then s.tasks
    else (s.modifyTask task fun t => { t with isCancelled := true, timer := none }).tasks := by
  unfold requestCancel
  split
  · rfl
  · simp only
    split <;> rfl

theorem abides_of_requestCancel {task : Nat} {t : TaskState σ δ ρ}
    (ht : (s.requestCancel task).tasks[task]? = some t) : t.Abides rule := by
  rw [tasks_requestCancel] at ht
  split at ht
  · next hended =>
    rw [hasEnded_iff, s.resultOf_of_getElem? ht] at hended
    cases hstatus : t.status with
    | ended result =>
        refine .inr ?_
        rw [hstatus]
        trivial
    | _ =>
        rw [hstatus] at hended
        exact absurd rfl hended
  · rw [getElem?_modifyTask, if_pos rfl] at ht
    obtain ⟨u, -, rfl⟩ := Option.map_eq_some_iff.mp ht
    exact .inl rfl

theorem requestCancel_of_ne {task other : Nat} (h : other ≠ task) :
    (s.requestCancel task).tasks[other]? = s.tasks[other]? := by
  rw [tasks_requestCancel]
  split
  · rfl
  · exact modifyTask_of_ne h

theorem abides_foldl_requestCancel {tasks : List Nat} (hstate : rule.holds s.state)
    (h : ∀ (id : Nat) t, s.tasks[id]? = some t → id ∈ tasks ∨ t.Abides rule) :
    (tasks.foldl requestCancel s).Abides rule := by
  induction tasks generalizing s with
  | nil => exact ⟨hstate, fun id t ht => (h id t ht).resolve_left List.not_mem_nil⟩
  | cons task tasks ih =>
      refine ih ((s.state_requestCancel task).symm ▸ hstate) fun id t ht => ?_
      by_cases hid : id = task
      · subst hid
        exact .inr (abides_of_requestCancel ht)
      · exact (h id t (requestCancel_of_ne hid ▸ ht)).imp_left fun hmem => (List.mem_cons.mp hmem).resolve_left hid

theorem moves_setTimer (s : Scheduler σ δ ρ) (task : Nat) (seconds : Number) :
    Moves rule s (s.setTimer task seconds) := by
  have hset : Moves rule s { s with
      timers := s.timers.insert ⟨s.now.add seconds.toBinary64, task, s.timerCount⟩
      timerCount := s.timerCount + 1 } := .of_eq rfl rfl
  exact hset.trans (moves_modifyTask _ task fun _ habides => habides)

theorem moves_watch (s : Scheduler σ δ ρ) (task : Nat) (watcher : Watcher) : Moves rule s (s.watch task watcher) :=
  moves_modifyTask s task fun _ habides => habides

theorem moves_gather (s : Scheduler σ δ ρ) (task : Nat) (children : List Nat) (eager : Bool) :
    Moves rule s (s.gather task children eager) := by
  have htell : ∀ s : Scheduler σ δ ρ, Moves rule s (children.foldl (fun s child =>
      if s.hasEnded child then s.ask (.settle child task) else s.watch child (.gatherer task)) s) := by
    induction children with
    | nil => exact .refl
    | cons child children ih =>
        intro s
        have hfirst : Moves rule s
            (if s.hasEnded child then s.ask (.settle child task) else s.watch child (.gatherer task)) := by
          split
          · exact moves_ask s _
          · exact moves_watch s child _
        exact hfirst.trans (ih _)
  refine (moves_modifyTask s task ?_).trans (htell _)
  exact fun _ habides => habides

theorem moves_finish (s : Scheduler σ δ ρ) (task : Nat) (result : TaskResult ρ) :
    Moves rule s (s.finish task result) := by
  have hended : Moves rule s (s.modifyTask task fun t => { t with status := .ended result, watchers := [] }) :=
    moves_modifyTask s task fun _ _ => .inr trivial
  rw [finish_eq]
  exact hended.trans (.of_eq rfl rfl)

/-- **A stretch of a process** makes allowed changes only, and if it waits then, it goes on abiding by the rule. -/
theorem advance_abides (s : Scheduler σ δ ρ) (task : Nat) {p : Process σ δ ρ α} (hstate : rule.holds s.state)
    (h : p.Abides rule s.state) : Moves rule s (s.advance task p).1 ∧
      ∀ paused, (s.advance task p).2 = .inr paused → paused.Abides rule := by
  induction p generalizing s with
  | done value => exact ⟨.refl s, fun _ hend => by cases hend⟩
  | look next ih => exact ih _ _ s hstate (h ⟨s.now, task⟩)
  | change f next ih =>
      obtain ⟨hmoves, hend⟩ := ih { s with state := f s.state } (rule.keeps hstate h.1) h.2
      have hchanged : Moves rule s { s with state := f s.state } := .of_tasks rfl h.1
      exact ⟨hchanged.trans hmoves, hend⟩
  | spawn description next ih =>
      obtain ⟨hmoves, hend⟩ := ih s.tasks.size ((s.enter description).ask (.run s.tasks.size)) hstate (h.2 _)
      exact ⟨((moves_enter s h.1).trans (moves_ask _ _)).trans hmoves, hend⟩
  | cancel other next ih =>
      have hsame := s.state_requestCancel other
      obtain ⟨hmoves, hend⟩ := ih (s.requestCancel other) (hsame.symm ▸ hstate) (hsame.symm ▸ h)
      exact ⟨(moves_requestCancel s other).trans hmoves, hend⟩
  | sleep seconds next =>
      rw [advance]
      split
      · exact ⟨moves_ask s _, fun _ hend => by cases hend; exact h⟩
      · exact ⟨moves_setTimer s task seconds, fun _ hend => by cases hend; exact h⟩
  | join other next ih =>
      rw [advance]
      split
      · exact ih _ s hstate (h _ _ hstate)
      · exact ⟨moves_watch s other _, fun _ hend => by cases hend; exact h⟩
  | joinAll others eager next ih =>
      rw [advance]
      split
      · exact ih _ s hstate (h _ _ hstate)
      · exact ⟨moves_gather s task others eager, fun _ hend => by cases hend; exact h⟩
  | park next => exact ⟨.refl s, fun _ hend => by cases hend; exact h⟩
  | wake other next ih =>
      obtain ⟨hmoves, hend⟩ := ih (s.ask (.run other)) hstate h
      exact ⟨(moves_ask s _).trans hmoves, hend⟩

theorem resume_abides (s : Scheduler σ δ ρ) (task : Nat) {paused : Paused σ δ ρ α} (h : paused.Abides rule)
    {state : σ} (hstate : rule.holds state) : (s.resume task paused).Abides rule state := by
  cases paused with
  | plain next => exact h state hstate
  | joining other next => exact h _ state hstate
  | gathering others next =>
      rw [resume]
      split
      · exact h _ state hstate
      · exact h _ state hstate

theorem moves_proceed (s : Scheduler σ δ ρ) (task : Nat) {p : Process σ δ ρ ρ} (hstate : rule.holds s.state)
    (h : p.Abides rule s.state) : Moves rule s (s.proceed task p) := by
  obtain ⟨hmoves, hend⟩ := advance_abides s task hstate h
  rw [proceed]
  split
  · next heq =>
    rw [heq] at hmoves
    exact hmoves.trans (moves_finish _ task _)
  · next heq =>
    rw [heq] at hmoves hend
    exact hmoves.trans (moves_modifyTask _ task fun _ _ => .inr (hend _ rfl : TaskStatus.Abides rule (.paused _)))

/-! ### Turns -/

section Turns

variable {program : Program σ δ ρ}

/-- **A turn of a task** makes allowed changes only. -/
theorem moves_runTask (hprogram : program.Abides rule) (habides : s.Abides rule) (task : Nat) :
    Moves rule s (s.runTask program task) := by
  have hstate := habides.holds
  rw [runTask]
  split
  · next t ht =>
    split
    · have hundone : Moves rule s { s with state := program.onCancel task s.state } :=
        .of_tasks rfl (hprogram.onCancel task s.state hstate)
      exact hundone.trans (moves_finish _ task _)
    -- A cancelled task that is not given up here has ended.
    · next hgoing =>
      have hstatus : t.status.result = .running → t.status.Abides rule := by
        intro hrunning
        refine (habides.tasks task t ht).resolve_left fun hcancelled => hgoing ?_
        rw [hcancelled, hasEnded_eq_false_iff.mpr ((s.resultOf_of_getElem? ht).trans hrunning)]
        rfl
      split
      · next description heq =>
        rw [heq] at hstatus
        exact moves_proceed s task hstate (hprogram.body description (hstatus rfl) s.state hstate)
      · next paused heq =>
        rw [heq] at hstatus
        exact moves_proceed s task hstate (resume_abides s task (hstatus rfl) hstate)
      · exact .refl s
  · exact .refl s

theorem moves_settle (s : Scheduler σ δ ρ) (child watcher : Nat) :
    Moves rule s (s.settle program child watcher) := by
  unfold settle
  split
  · exact .refl s
  · refine iteInduction (fun _ => ?_) fun _ => iteInduction (fun _ => ?_) fun _ => ?_
    · refine .trans (moves_modifyTask s watcher ?_) (moves_ask _ _)
      exact fun _ habides => habides
    · refine .trans (moves_modifyTask s watcher ?_) (moves_ask _ _)
      exact fun _ habides => habides
    · exact moves_modifyTask s watcher fun _ habides => habides

/-- **Any turn** makes allowed changes only. -/
theorem moves_take (hprogram : program.Abides rule) (habides : s.Abides rule) (turn : Turn) :
    Moves rule s (s.take program turn) := by
  cases turn with
  | run task => exact moves_runTask hprogram habides task
  | ended task => exact .of_tasks rfl (hprogram.onEnd task s.state habides.holds)
  | tell watcher => exact moves_ask s _
  | settle child watcher => exact moves_settle s child watcher

end Turns

/-! ### Time -/

theorem moves_dropCancelled (fuel : Nat) (s : Scheduler σ δ ρ) : Moves rule s (dropCancelled fuel s) := by
  induction fuel generalizing s with
  | zero => exact .refl s
  | succ fuel ih =>
      rw [dropCancelled]
      have hdropped : Moves rule s { s with timers := s.timers.dropFirst } := .of_eq rfl rfl
      split
      · split
        · exact hdropped.trans (ih _)
        · exact .refl s
      · exact .refl s

theorem moves_fireDue (fuel : Nat) (limit : Binary64) (s : Scheduler σ δ ρ) :
    Moves rule s (fireDue fuel limit s) := by
  induction fuel generalizing s with
  | zero => exact .refl s
  | succ fuel ih =>
      rw [fireDue]
      have hdropped : Moves rule s { s with timers := s.timers.dropFirst } := .of_eq rfl rfl
      split
      · split
        · refine hdropped.trans (.trans ?_ (ih _))
          refine iteInduction (fun _ => .refl _) fun _ => ?_
          refine .trans (moves_modifyTask _ _ ?_) (moves_ask _ _)
          exact fun _ habides => habides
        · exact .refl s
      · exact .refl s

theorem moves_jump? (h : s.jump? = some s') : Moves rule s s' := by
  obtain ⟨timer, -, rfl⟩ := Option.map_eq_some_iff.mp h
  have hdropped : Moves rule s (dropCancelled s.timers.timers.size s) := moves_dropCancelled _ s
  have hlater : ∀ now, Moves rule (dropCancelled s.timers.timers.size s)
      { dropCancelled s.timers.timers.size s with now } := fun _ => .of_eq rfl rfl
  exact hdropped.trans ((hlater _).trans (moves_fireDue _ _ _))

end Scheduler

end ManifestLens
