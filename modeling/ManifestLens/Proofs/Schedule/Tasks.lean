import ManifestLens.Schedule.Scheduler
import ManifestLens.Schedule.TimerHeap

/-!
# Tasks and turns

What each operation of the scheduler does to the tasks and to the turns that were asked for, as equations
that later proofs rewrite with.
-/

namespace ManifestLens

variable {σ δ ρ α : Type}

def TaskStatus.result : TaskStatus σ δ ρ → TaskResult ρ
  | .ended result => result
  | _ => .running

namespace Scheduler

variable (s : Scheduler σ δ ρ)

/-- Those who are to be told of the end of a task. -/
def watchersOf (task : Nat) : List Watcher := (s.tasks[task]?.map TaskState.watchers).getD []

/-- The turn in which a watcher of a task learns of its end. -/
def news (task : Nat) : Watcher → Turn
  | .waiter other => .tell other
  | .gatherer other => .settle task other

theorem getElem?_modifyTask (task : Nat) (f : TaskState σ δ ρ → TaskState σ δ ρ) (other : Nat) :
    (s.modifyTask task f).tasks[other]?
      = if task = other then s.tasks[other]?.map f else s.tasks[other]? := by
  rw [modifyTask, Array.getElem?_modify]

theorem getElem?_enter (description : δ) (other : Nat) : (s.enter description).tasks[other]?
    = if other = s.tasks.size then some { status := .fresh description, errand := some description }
      else s.tasks[other]? := by
  rw [enter, Array.getElem?_push]

theorem foldl_ask (turnOf : Watcher → Turn) {step : Scheduler σ δ ρ → Watcher → Scheduler σ δ ρ}
    (hstep : ∀ s watcher, step s watcher = s.ask (turnOf watcher)) (watchers : List Watcher) :
    watchers.foldl step s = { s with ready := s.ready ++ watchers.map turnOf } := by
  induction watchers generalizing s with
  | nil => simp
  | cons watcher watchers ih =>
      rw [List.foldl_cons, hstep, ih]
      simp [ask]

theorem finish_eq (task : Nat) (result : TaskResult ρ) : s.finish task result =
    { s.modifyTask task (fun t => { t with status := .ended result, watchers := [] }) with
      ready := s.ready ++ .ended task :: (s.watchersOf task).map (news task) } := by
  rw [finish, foldl_ask _ (news task)]
  · simp [ask, modifyTask, watchersOf]
  · intro s watcher
    cases watcher <;> rfl

theorem errandOf_eq_some_iff {task : Nat} {errand : δ} : s.errandOf task = some errand ↔
    ∃ t, s.tasks[task]? = some t ∧ t.errand = some errand := by
  simp [errandOf, Option.bind_eq_some_iff]

theorem resultOf_of_getElem? {task : Nat} {t : TaskState σ δ ρ} (ht : s.tasks[task]? = some t) :
    s.resultOf task = t.status.result := by
  rw [resultOf, ht]
  obtain ⟨status, errand, isCancelled, timer, watchers, group, failed⟩ := t
  cases status <;> rfl

theorem resultOf_of_none {task : Nat} (ht : s.tasks[task]? = none) : s.resultOf task = .running := by
  rw [resultOf, ht]

theorem watchersOf_of_getElem? {task : Nat} {t : TaskState σ δ ρ} (ht : s.tasks[task]? = some t) :
    s.watchersOf task = t.watchers := by rw [watchersOf, ht]; rfl

variable {s} {s' : Scheduler σ δ ρ}

theorem resultOf_congr {task : Nat} (h : s'.tasks[task]? = s.tasks[task]?) : s'.resultOf task = s.resultOf task := by
  rw [resultOf, h, resultOf]

theorem watchersOf_congr {task : Nat} (h : s'.tasks[task]? = s.tasks[task]?) :
    s'.watchersOf task = s.watchersOf task := by
  rw [watchersOf, h, watchersOf]

theorem hasEnded_iff {task : Nat} : s.hasEnded task = true ↔ s.resultOf task ≠ .running := by
  rw [hasEnded]
  cases s.resultOf task <;> simp

theorem hasEnded_eq_false_iff {task : Nat} : s.hasEnded task = false ↔ s.resultOf task = .running := by
  rw [hasEnded]
  cases s.resultOf task <;> simp

/-! ### Changing a task -/

section Modify

variable {task : Nat} {f : TaskState σ δ ρ → TaskState σ δ ρ}

theorem modifyTask_self {t : TaskState σ δ ρ} (ht : s.tasks[task]? = some t) :
    (s.modifyTask task f).tasks[task]? = some (f t) := by
  rw [getElem?_modifyTask, if_pos rfl, ht, Option.map_some]

theorem modifyTask_of_ne {other : Nat} (h : other ≠ task) :
    (s.modifyTask task f).tasks[other]? = s.tasks[other]? := by
  rw [getElem?_modifyTask, if_neg (Ne.symm h)]

theorem errandOf_modifyTask (hf : ∀ t, (f t).errand = t.errand) (other : Nat) :
    (s.modifyTask task f).errandOf other = s.errandOf other := by
  rw [errandOf, getElem?_modifyTask, errandOf]
  split
  · cases s.tasks[other]? with
    | none => rfl
    | some t => exact hf t
  · rfl

theorem resultOf_modifyTask (hf : ∀ t, (f t).status = t.status) (other : Nat) :
    (s.modifyTask task f).resultOf other = s.resultOf other := by
  cases ht : s.tasks[other]? with
  | none =>
      have hnone : (s.modifyTask task f).tasks[other]? = none := by
        rw [getElem?_modifyTask, ht]
        split <;> rfl
      rw [resultOf_of_none _ hnone, resultOf_of_none _ ht]
  | some t =>
      by_cases h : other = task
      · subst h
        rw [resultOf_of_getElem? _ (modifyTask_self ht), resultOf_of_getElem? _ ht, hf]
      · rw [resultOf_of_getElem? _ ((modifyTask_of_ne h).trans ht), resultOf_of_getElem? _ ht]

theorem resultOf_modifyTask_of_ne {other : Nat} (h : other ≠ task) :
    (s.modifyTask task f).resultOf other = s.resultOf other :=
  resultOf_congr (modifyTask_of_ne h)

theorem watchersOf_modifyTask (hf : ∀ t, (f t).watchers = t.watchers) (other : Nat) :
    (s.modifyTask task f).watchersOf other = s.watchersOf other := by
  rw [watchersOf, getElem?_modifyTask, watchersOf]
  split
  · cases s.tasks[other]? with
    | none => rfl
    | some t => exact hf t
  · rfl

theorem watchersOf_modifyTask_of_ne {other : Nat} (h : other ≠ task) :
    (s.modifyTask task f).watchersOf other = s.watchersOf other :=
  watchersOf_congr (modifyTask_of_ne h)

end Modify

/-! ### Watching a task -/

section Watch

variable {task : Nat} {watcher : Watcher}

theorem watch_self {t : TaskState σ δ ρ} (ht : s.tasks[task]? = some t) :
    (s.watch task watcher).tasks[task]? = some { t with watchers := t.watchers ++ [watcher] } :=
  modifyTask_self ht

theorem watch_of_ne {other : Nat} (h : other ≠ task) :
    (s.watch task watcher).tasks[other]? = s.tasks[other]? := modifyTask_of_ne h

theorem errandOf_watch (other : Nat) : (s.watch task watcher).errandOf other = s.errandOf other := by
  rw [watch, errandOf_modifyTask]
  exact fun _ => rfl

theorem resultOf_watch (other : Nat) : (s.watch task watcher).resultOf other = s.resultOf other := by
  rw [watch, resultOf_modifyTask]
  exact fun _ => rfl

theorem watchersOf_watch {t : TaskState σ δ ρ} (ht : s.tasks[task]? = some t) (other : Nat) :
    (s.watch task watcher).watchersOf other
      = if other = task then s.watchersOf task ++ [watcher] else s.watchersOf other := by
  split
  · next h =>
    subst h
    rw [watchersOf_of_getElem? _ (watch_self ht), watchersOf_of_getElem? _ ht]
  · next h => exact watchersOf_modifyTask_of_ne h

theorem foldl_watch_of_going {children : List Nat} (h : ∀ child ∈ children, s.hasEnded child = false) :
    children.foldl (fun s child =>
      if s.hasEnded child then s.ask (.settle child task) else s.watch child (.gatherer task)) s
      = children.foldl (fun s child => s.watch child (.gatherer task)) s := by
  induction children generalizing s with
  | nil => rfl
  | cons child rest ih =>
      rw [List.foldl_cons, h child (List.mem_cons_self ..), if_neg Bool.false_ne_true, List.foldl_cons, ih]
      intro other hother
      rw [hasEnded, resultOf_watch]
      exact h other (List.mem_cons_of_mem _ hother)

theorem gather_of_going {children : List Nat} {eager : Bool} (h : ∀ child ∈ children, s.hasEnded child = false) :
    s.gather task children eager = children.foldl (fun s child => s.watch child (.gatherer task))
      (s.modifyTask task fun t => { t with group := some (children.length, eager), failed := none }) := by
  refine foldl_watch_of_going fun child hchild => ?_
  rw [hasEnded, resultOf_modifyTask]
  · exact h child hchild
  · exact fun _ => rfl

end Watch

/-! ### Entering a task -/

section Enter

variable {description : δ}

theorem enter_self : (s.enter description).tasks[s.tasks.size]?
    = some { status := .fresh description, errand := some description } := by
  rw [getElem?_enter, if_pos rfl]

theorem enter_of_ne {other : Nat} (h : other ≠ s.tasks.size) :
    (s.enter description).tasks[other]? = s.tasks[other]? := by rw [getElem?_enter, if_neg h]

theorem ne_size_of_getElem? {task : Nat} {t : TaskState σ δ ρ} (ht : s.tasks[task]? = some t) :
    task ≠ s.tasks.size := by
  rintro rfl
  simp at ht

theorem enter_of_getElem? {task : Nat} {t : TaskState σ δ ρ} (ht : s.tasks[task]? = some t) :
    (s.enter description).tasks[task]? = some t :=
  (enter_of_ne (ne_size_of_getElem? ht)).trans ht

theorem resultOf_enter (other : Nat) : (s.enter description).resultOf other = s.resultOf other := by
  by_cases h : other = s.tasks.size
  · subst h
    rw [resultOf_of_getElem? _ enter_self, resultOf_of_none _ (by simp)]
    rfl
  · rw [resultOf, enter_of_ne h, resultOf]

theorem watchersOf_enter (other : Nat) : (s.enter description).watchersOf other = s.watchersOf other := by
  by_cases h : other = s.tasks.size
  · subst h
    rw [watchersOf_of_getElem? _ enter_self, watchersOf]
    simp
  · rw [watchersOf, enter_of_ne h, watchersOf]

end Enter

end Scheduler

end ManifestLens

/-!
## The timers in a heap

Timers only move within a heap: the operations bring in none but the one that is inserted, and only the first one
is taken out.
-/

namespace ManifestLens.TimerHeap

variable {timers : Array Timer} {timer : Timer}

theorem swapIfInBounds_perm (timers : Array Timer) (i j : Nat) : (timers.swapIfInBounds i j).Perm timers := by
  unfold Array.swapIfInBounds
  split
  · split
    · exact Array.swap_perm _ _
    · exact .refl _
  · exact .refl _

theorem rise_perm (timers : Array Timer) (position : Nat) : (rise timers position).Perm timers := by
  induction timers, position using rise.induct with
  | case1 timers position hpos parent hbefore ih =>
      rw [rise, if_pos hpos, if_pos hbefore]
      exact ih.trans (swapIfInBounds_perm _ _ _)
  | case2 timers position hpos parent hbefore =>
      rw [rise, if_pos hpos, if_neg hbefore]
  | case3 timers position hroot =>
      rw [rise, if_neg hroot]

theorem sink_perm (fuel : Nat) (timers : Array Timer) (position : Nat) :
    (sink fuel timers position).1.Perm timers := by
  induction fuel generalizing timers position with
  | zero => exact .refl _
  | succ fuel ih =>
      rw [sink]
      split
      · exact (ih _ _).trans (swapIfInBounds_perm _ _ _)
      · exact .refl _

theorem insert_perm (heap : TimerHeap) (new : Timer) : (heap.insert new).timers.Perm (heap.timers.push new) :=
  rise_perm _ _

theorem mem_insert {heap : TimerHeap} {new : Timer} :
    timer ∈ (heap.insert new).timers ↔ timer ∈ heap.timers ∨ timer = new := by
  rw [(insert_perm heap new).mem_iff, Array.mem_push]

theorem dropFirst_perm {heap : TimerHeap} (h : heap.first? = some timer) :
    heap.timers.toList.Perm (timer :: heap.dropFirst.timers.toList) := by
  obtain ⟨timers⟩ := heap
  obtain ⟨rest, last, rfl⟩ := Array.exists_push_of_size_pos (Array.getElem?_eq_some_iff.mp h).1
  simp only [dropFirst, Array.back?_push, Array.pop_push]
  obtain ⟨rest⟩ := rest
  cases rest with
  | nil =>
      obtain rfl : last = timer := by simpa [first?] using h
      exact .refl _
  | cons first others =>
      obtain rfl : first = timer := by simpa [first?] using h
      have hrest : (rise (sink (first :: others).toArray.size ((first :: others).toArray.setIfInBounds 0 last) 0).1
          (sink (first :: others).toArray.size ((first :: others).toArray.setIfInBounds 0 last) 0).2).toList.Perm
            (last :: others) :=
        ((rise_perm _ _).trans (sink_perm _ _ _)).toList
      refine .trans ?_ (hrest.symm.cons first)
      simp

theorem mem_of_first? {heap : TimerHeap} (h : heap.first? = some timer) : timer ∈ heap.timers :=
  Array.mem_of_getElem? h

theorem mem_of_mem_dropFirst {heap : TimerHeap} (h : timer ∈ heap.dropFirst.timers) : timer ∈ heap.timers := by
  cases hfirst : heap.first? with
  | none =>
      have hempty : heap.dropFirst = heap := by
        rw [dropFirst, show heap.timers = #[] by simpa [first?] using hfirst]
        rfl
      rwa [hempty] at h
  | some first =>
      exact Array.mem_toList_iff.mp ((dropFirst_perm hfirst).mem_iff.mpr
        (List.mem_cons_of_mem _ (Array.mem_toList_iff.mpr h)))

end ManifestLens.TimerHeap
