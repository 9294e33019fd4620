import ManifestLens.Proofs.Prefetch.Visits
import Mathlib.Data.List.Nodup

/-!
# The slots and the tasks of a prefetch

Every slot is free, or a visit sits in it, or it has been given to a visit that is going to wake up; this account
bounds how many visits look up their views at once. The tasks are told apart by their stages: a visit stands before
its lookup, has a slot, waits for a fetch or has left, and a fetch asks, waits or has its result. The roster says who
is who and who waits for whom, and what is recorded of the tasks, the turns that were asked for, the group that is
waited for and the seats are each described by the stages. For every move of a task to another stage there is one
lemma for each of these parts.
-/

namespace ManifestLens

namespace Slots

variable {slots : Slots} {capacity seated task other : Nat} {woken : Bool}

/-- The slots that are not free are those of a number of tasks that are seated and of those that have been woken.
While somebody waits a slot is free only if it is going to be passed on by one who has been woken. -/
structure Accounts (slots : Slots) (capacity seated : Nat) : Prop where
  total : slots.free + seated + slots.waiting.countP (·.2) = capacity
  nodup : (slots.waiting.map Prod.fst).Nodup
  fair : 0 < slots.free → slots.waiting ≠ [] → ∃ task, (task, true) ∈ slots.waiting

/-- Those who wait when one of them is woken. -/
def mark (task : Nat) (waiting : List (Nat × Bool)) : List (Nat × Bool) :=
  waiting.map fun w => if w.1 = task then (task, true) else w

theorem map_fst_mark (task : Nat) (waiting : List (Nat × Bool)) :
    (mark task waiting).map Prod.fst = waiting.map Prod.fst := by
  rw [mark, List.map_map]
  refine List.map_congr_left fun w _ => ?_
  simp only [Function.comp]
  split
  · next h => exact h.symm
  · rfl

theorem mem_mark {waiting : List (Nat × Bool)} (h : (task, false) ∈ waiting) :
    (other, woken) ∈ mark task waiting ↔ if other = task then woken = true else (other, woken) ∈ waiting := by
  simp only [mark, List.mem_map]
  constructor
  · rintro ⟨w, hw, heq⟩
    split at heq
    · next htask => simp [(Prod.mk.inj heq).1.symm, (Prod.mk.inj heq).2.symm]
    · next hne =>
      subst heq
      rwa [if_neg hne]
  · intro hmem
    split at hmem
    · next heq => exact ⟨_, h, by simp [heq, hmem]⟩
    · next hne => exact ⟨_, hmem, if_neg hne⟩

theorem countP_mark {waiting : List (Nat × Bool)} (h : (task, false) ∈ waiting)
    (hnodup : (waiting.map Prod.fst).Nodup) :
    (mark task waiting).countP (·.2) = waiting.countP (·.2) + 1 := by
  induction waiting with
  | nil => cases h
  | cons w rest ih =>
      obtain ⟨hnew, hrest⟩ := List.nodup_cons.mp hnodup
      rcases List.mem_cons.mp h with rfl | hmem
      · have hkept : mark task rest = rest := by
          refine (List.map_congr_left fun w hw => if_neg ?_).trans (List.map_id rest)
          rintro rfl
          exact hnew (List.mem_map.mpr ⟨w, hw, rfl⟩)
        rw [mark, List.map_cons, ← mark, hkept]
        simp
      · have hne : w.1 ≠ task := fun heq => hnew (heq ▸ List.mem_map_of_mem hmem)
        rw [mark, List.map_cons, if_neg hne, ← mark, List.countP_cons, ih hmem hrest, List.countP_cons]
        omega

theorem wakeNext_cases (slots : Slots) :
    ((∀ w ∈ slots.waiting, w.2 = true) ∧ slots.wakeNext = (none, slots)) ∨
      ∃ task, (task, false) ∈ slots.waiting ∧
        slots.wakeNext = (some task, ⟨slots.free - 1, mark task slots.waiting⟩) := by
  unfold wakeNext
  cases hfind : slots.waiting.find? (!·.2) with
  | none => exact .inl ⟨by simpa using hfind, rfl⟩
  | some found =>
      obtain ⟨task, woken⟩ := found
      obtain rfl : woken = false := by simpa using List.find?_some hfind
      exact .inr ⟨task, List.mem_of_find?_eq_some hfind, rfl⟩

theorem mem_of_wakeNext (h : slots.wakeNext.1 = some task) : (task, false) ∈ slots.waiting := by
  rcases slots.wakeNext_cases with ⟨-, hnone⟩ | ⟨found, hfound, hsome⟩
  · rw [hnone] at h
    cases h
  · rw [hsome] at h
    cases h
    exact hfound

theorem mem_wakeNext : (other, woken) ∈ slots.wakeNext.2.waiting ↔
    if slots.wakeNext.1 = some other then woken = true else (other, woken) ∈ slots.waiting := by
  rcases slots.wakeNext_cases with ⟨-, hnone⟩ | ⟨task, htask, hsome⟩
  · simp [hnone]
  · rw [hsome, mem_mark htask]
    simp only [Option.some.injEq, eq_comm]

theorem accounts_wakeNext (htotal : slots.free + seated + slots.waiting.countP (·.2) = capacity)
    (hnodup : (slots.waiting.map Prod.fst).Nodup) (hfree : 0 < slots.free) :
    slots.wakeNext.2.Accounts capacity seated := by
  rcases slots.wakeNext_cases with ⟨hall, hnone⟩ | ⟨task, htask, hsome⟩
  · rw [hnone]
    refine ⟨htotal, hnodup, fun _ hne => ?_⟩
    obtain ⟨⟨task, woken⟩, hmem⟩ := List.exists_mem_of_ne_nil _ hne
    obtain rfl : woken = true := hall _ hmem
    exact ⟨task, hmem⟩
  · rw [hsome]
    refine ⟨?_, ?_, fun _ _ => ⟨task, (mem_mark htask).mpr (by simp)⟩⟩
    · simp only
      rw [countP_mark htask hnodup]
      omega
    · rw [map_fst_mark]
      exact hnodup

theorem Accounts.take_free (h : slots.Accounts capacity seated) (hfree : (slots.take task).1 = true) :
    (slots.take task).2.Accounts capacity (seated + 1) ∧ (slots.take task).2.waiting = slots.waiting := by
  unfold take at hfree ⊢
  split
  · next hcond =>
    obtain ⟨hpos, hempty⟩ : 0 < slots.free ∧ slots.waiting = [] := by simpa using hcond
    have htotal := h.total
    refine ⟨⟨?_, h.nodup, fun _ hne => absurd hempty hne⟩, rfl⟩
    simp only
    omega
  · next hcond => rw [if_neg hcond] at hfree; cases hfree

theorem Accounts.take_full (h : slots.Accounts capacity seated) (hfull : (slots.take task).1 = false)
    (hnew : ∀ woken, (task, woken) ∉ slots.waiting) :
    (slots.take task).2.Accounts capacity seated ∧
      (slots.take task).2.waiting = slots.waiting ++ [(task, false)] := by
  unfold take at hfull ⊢
  split
  · next hcond => rw [if_pos hcond] at hfull; cases hfull
  · next hcond =>
    refine ⟨⟨?_, ?_, fun hpos _ => ?_⟩, rfl⟩
    · simpa [List.countP_append] using h.total
    · rw [List.map_append, List.nodup_append]
      refine ⟨h.nodup, by simp, fun other hother last hlast => ?_⟩
      obtain rfl : last = task := by simpa using hlast
      rintro rfl
      obtain ⟨⟨_, woken⟩, hmem, rfl⟩ := List.mem_map.mp hother
      exact hnew woken hmem
    · have hne : slots.waiting ≠ [] := fun hempty => hcond (by simpa [hempty] using hpos)
      obtain ⟨woken, hwoken⟩ := h.fair hpos hne
      exact ⟨woken, List.mem_append_left _ hwoken⟩

/-- Those who wait when one of them goes. -/
def without (slots : Slots) (task : Nat) : Slots := { slots with waiting := slots.waiting.filter (·.1 != task) }

theorem mem_without : (other, woken) ∈ (slots.without task).waiting ↔
    other ≠ task ∧ (other, woken) ∈ slots.waiting := by
  simp [without, and_comm]

theorem leave_eq (slots : Slots) (task : Nat) : slots.leave task =
    if 0 < slots.free then (slots.without task).wakeNext else (none, slots.without task) := rfl

theorem countP_without {waiting : List (Nat × Bool)} (h : (task, true) ∈ waiting)
    (hnodup : (waiting.map Prod.fst).Nodup) :
    (waiting.filter (·.1 != task)).countP (·.2) + 1 = waiting.countP (·.2) := by
  induction waiting with
  | nil => cases h
  | cons w rest ih =>
      obtain ⟨hnew, hrest⟩ := List.nodup_cons.mp hnodup
      rcases List.mem_cons.mp h with rfl | hmem
      · have hkept : rest.filter (·.1 != task) = rest := by
          refine List.filter_eq_self.mpr fun w hw => ?_
          simp only [bne_iff_ne]
          rintro rfl
          exact hnew (List.mem_map.mpr ⟨w, hw, rfl⟩)
        simp [hkept]
      · have hne : w.1 ≠ task := fun heq => hnew (heq ▸ List.mem_map_of_mem hmem)
        rw [List.filter_cons_of_pos (by simpa using hne), List.countP_cons, List.countP_cons, ← ih hmem hrest]
        omega

/-- One who has been woken takes the slot and passes on what is free. -/
theorem Accounts.leave (h : slots.Accounts capacity seated) (hwoken : (task, true) ∈ slots.waiting) :
    (slots.leave task).2.Accounts capacity (seated + 1) := by
  have htotal : (slots.without task).free + (seated + 1) + (slots.without task).waiting.countP (·.2) = capacity := by
    have hcount := countP_without hwoken h.nodup
    have := h.total
    simp only [without]
    omega
  have hnodup : ((slots.without task).waiting.map Prod.fst).Nodup :=
    h.nodup.sublist (List.filter_sublist.map Prod.fst)
  rw [leave_eq]
  split
  · next hfree => exact accounts_wakeNext htotal hnodup hfree
  · next hnone => exact ⟨htotal, hnodup, fun hfree => absurd hfree hnone⟩

/-- One who is seated gives the slot back, to the next one if somebody waits. -/
theorem Accounts.release (h : slots.Accounts capacity (seated + 1)) : slots.release.2.Accounts capacity seated := by
  have htotal := h.total
  refine accounts_wakeNext ?_ h.nodup (Nat.succ_pos _)
  simp only
  omega

theorem exists_mem_wakeNext : (∃ woken, (other, woken) ∈ slots.wakeNext.2.waiting) ↔
    ∃ woken, (other, woken) ∈ slots.waiting := by
  simp only [mem_wakeNext]
  split
  · next hsome => exact ⟨fun _ => ⟨false, mem_of_wakeNext hsome⟩, fun _ => ⟨true, rfl⟩⟩
  · rfl

theorem exists_mem_leave : (∃ woken, (other, woken) ∈ (slots.leave task).2.waiting) ↔
    other ≠ task ∧ ∃ woken, (other, woken) ∈ slots.waiting := by
  rw [leave_eq, ← exists_and_left]
  split
  · rw [exists_mem_wakeNext]
    simp only [mem_without]
  · simp only [mem_without]

theorem mem_leave : (other, woken) ∈ (slots.leave task).2.waiting ↔
    if (slots.leave task).1 = some other then woken = true else other ≠ task ∧ (other, woken) ∈ slots.waiting := by
  rw [leave_eq]
  split
  · rw [mem_wakeNext, mem_without]
  · rw [if_neg nofun, mem_without]

theorem mem_of_leave (h : (slots.leave task).1 = some other) : other ≠ task ∧ (other, false) ∈ slots.waiting := by
  rw [leave_eq] at h
  split at h
  · exact mem_without.mp (mem_of_wakeNext h)
  · cases h

theorem mem_release : (other, woken) ∈ slots.release.2.waiting ↔
    if slots.release.1 = some other then woken = true else (other, woken) ∈ slots.waiting := mem_wakeNext

theorem mem_of_release (h : slots.release.1 = some other) : (other, false) ∈ slots.waiting :=
  @mem_of_wakeNext { slots with free := slots.free + 1 } other h

theorem Accounts.not_mem (h : slots.Accounts capacity seated) (hasleep : (task, false) ∈ slots.waiting) :
    (task, true) ∉ slots.waiting := by
  intro hwoken
  have hsame := List.inj_on_of_nodup_map h.nodup hasleep hwoken rfl
  cases hsame

theorem exists_mem_release : (∃ woken, (other, woken) ∈ slots.release.2.waiting) ↔
    ∃ woken, (other, woken) ∈ slots.waiting := exists_mem_wakeNext

end Slots

/-! ### The prefetch -/

/-- A prefetch of distinct names, from a service at rest whose index serves each of them. -/
structure Prefetch where
  start : ServiceRun
  names : List String
  includePre : Option Bool
  /-- The number of slots. -/
  capacity : Nat
  nodup : names.Nodup
  positive : 0 < capacity
  resting : start.IsResting
  quiet : start.state.openRequests = []
  serves : start.Serves names includePre

/-- How far a task is that belongs to a prefetch: a visit before it has a slot, with a slot, and after it has given
the slot back, or a fetch between its attempts, during an attempt, and with its result. -/
inductive Stage where
  | outside
  | fresh (name : String)
  | queued (name : String)
  | seated (name : String)
  | joining (name : String) (fetch : Nat)
  | left (name : String) (result : Except IndexError PackageOverview)
  | entered (spelling : String)
  | asking (spelling : String) (answers : List IndexAnswer)
  | waiting (spelling : String) (answers : List IndexAnswer) (answer : IndexAnswer)
  | fetched (spelling : String) (result : Except Fault (List (String × Json)))

namespace Stage

def visitor? : Stage → Option String
  | .fresh name | .queued name | .seated name | .joining name _ | .left name _ => some name
  | _ => none

def spelling? : Stage → Option String
  | .entered spelling | .asking spelling _ | .waiting spelling _ _ | .fetched spelling _ => some spelling
  | _ => none

/-- The visit has looked for its view. -/
def hasAsked : Stage → Bool
  | .joining .. | .left .. => true
  | _ => false

def hasEnded : Stage → Bool
  | .left .. | .fetched .. => true
  | _ => false

def sits : Stage → Bool
  | .seated _ | .joining .. => true
  | _ => false

/-- The visit is going to get a turn of its own, or a slot with a turn. -/
def isWaiting : Stage → Bool
  | .fresh _ | .queued _ => true
  | _ => false

def isOpen : Stage → Bool
  | .waiting .. => true
  | _ => false

/-- The fetch that a visit waits for. -/
def awaited? : Stage → Option Nat
  | .joining _ fetch => some fetch
  | _ => none

/-- How much there is still to do for a task, and for those that it may start. -/
def rank (attempts : Nat) : Stage → Nat
  | .outside | .left .. | .fetched .. => 0
  | .fresh _ => 2 * attempts + 5
  | .queued _ => 2 * attempts + 4
  | .seated _ => 2 * attempts + 3
  | .joining .. => 1
  | .entered _ => 2 * attempts + 1
  | .asking _ answers => 2 * (attempts - answers.length)
  | .waiting _ answers _ => 2 * (attempts - answers.length) - 1

theorem eq_outside_iff {stage : Stage} : stage = .outside ↔ stage.visitor? = none ∧ stage.spelling? = none := by
  cases stage <;> simp [visitor?, spelling?]

theorem inside_of_visitor {stage : Stage} {name : String} (h : stage.visitor? = some name) : stage ≠ .outside := by
  rintro rfl
  cases h

theorem inside_of_spelling {stage : Stage} {spelling : String} (h : stage.spelling? = some spelling) :
    stage ≠ .outside := by
  rintro rfl
  cases h

/-- A fetch is no visit. -/
theorem of_spelling {stage : Stage} {spelling : String} (h : stage.spelling? = some spelling) :
    stage.visitor? = none ∧ stage.hasAsked = false ∧ stage.sits = false ∧ stage.awaited? = none := by
  cases stage <;> first | exact ⟨rfl, rfl, rfl, rfl⟩ | cases h

/-- A visit that has a slot is no fetch, and it has not ended. -/
theorem of_sits {stage : Stage} (h : stage.sits = true) :
    stage.spelling? = none ∧ stage.hasEnded = false ∧ stage.isOpen = false := by
  cases stage <;> first | exact ⟨rfl, rfl, rfl⟩ | cases h

end Stage

namespace Prefetch

variable (p : Prefetch)

def first : Nat := p.start.tasks.size

def index : Nat := p.start.state.slots.length

def admits : Bool := p.includePre.getD p.start.state.service.includePre

def view : Lookup := .metadata p.admits

def plan (spelling : String) : RequestPlan := p.start.planFor spelling

/-- The number of attempts at a request. -/
def attempts : Nat := (max 1 p.start.state.service.client.attempts).toNat

/-- A task is the visit for a name. -/
def Visits (id : Nat) (name : String) : Prop := p.first ≤ id ∧ p.names[id - p.first]? = some name

variable {p}

theorem attempts_pos : 0 < p.attempts := by
  simp only [attempts]
  omega

theorem first_pos : 0 < p.first := p.resting.idle.outside

theorem Visits.mem {id : Nat} {name : String} (h : p.Visits id name) : name ∈ p.names :=
  List.mem_of_getElem? h.2

theorem Visits.unique {id other : Nat} {name : String} (h : p.Visits id name) (hother : p.Visits other name) :
    id = other := by
  have hsame := (List.getElem?_inj (List.getElem?_eq_some_iff.mp h.2).1 p.nodup).mp (h.2.trans hother.2.symm)
  have := h.1
  have := hother.1
  omega

variable (p)

/-- What a task at a stage was started for. -/
def errandOf : Stage → Option Errand
  | .outside => none
  | .fresh name | .queued name | .seated name | .joining name _ | .left name _ =>
      some (.prefetchOne name p.includePre p.index)
  | .entered spelling | .asking spelling _ | .waiting spelling _ _ | .fetched spelling _ => some (.fetch spelling)

/-- The status of a task at a stage, if it may be found there between two turns. -/
def statusOf : Stage → Option (TaskStatus World Errand Outcome)
  | .outside | .seated _ => none
  | .fresh name => some (.fresh (.prefetchOne name p.includePre p.index))
  | .queued name => some (.paused (.plain (Work.woken name p.includePre p.index)))
  | .joining name fetch => some (.paused (.joining fetch (Work.attend p.view name p.index)))
  | .left _ result => some (.ended (.finished (.ok (Work.replyFor result))))
  | .entered spelling => some (.fresh (.fetch spelling))
  | .asking spelling answers =>
      some (.paused (.plain (Work.fetching (p.plan spelling) (answers.length + 1) (p.attempts - answers.length))))
  | .waiting spelling answers answer =>
      some (.paused (.plain (Work.receiving (p.plan spelling) (answers.length + 1)
        (p.attempts - (answers.length + 1)) answer)))
  | .fetched _ result => some (.ended (.finished (result.map .document)))

variable {p}

theorem errandOf_congr {stage other : Stage} (hvisitor : other.visitor? = stage.visitor?)
    (hspelling : other.spelling? = stage.spelling?) : p.errandOf other = p.errandOf stage := by
  cases stage <;> cases other <;> simp_all [errandOf, Stage.visitor?, Stage.spelling?]

theorem result_of_statusOf {stage : Stage} {status : TaskStatus World Errand Outcome}
    (h : p.statusOf stage = some status) : status.result ≠ .running ↔ stage.hasEnded = true := by
  cases stage <;> cases h <;> simp [TaskStatus.result, Stage.hasEnded]

end Prefetch

/-! ### The roster -/

/-- Who is who among the tasks, and who waits for whom. Each fetch is for the name of a visit, which has asked for
it; and as long as a fetch has not ended somebody waits for it. -/
structure Roster (p : Prefetch) (stage : Nat → Stage) (size : Nat) : Prop where
  inside : ∀ id, stage id = .outside ↔ ¬ (p.first ≤ id ∧ id < size)
  visits : ∀ id name, (stage id).visitor? = some name ↔ p.Visits id name
  attends : ∀ id name fetch, stage id = .joining name fetch →
    ∃ spelling, (stage fetch).spelling? = some spelling ∧ Work.normalized spelling = Work.normalized name
  named : ∀ fetch spelling, (stage fetch).spelling? = some spelling →
    ∃ id, p.Visits id spelling ∧ (stage id).hasAsked = true
  once : ∀ fetch other spelling, (stage fetch).spelling? = some spelling → (stage other).spelling? = some spelling →
    fetch = other
  attended : ∀ fetch spelling, (stage fetch).spelling? = some spelling → (stage fetch).hasEnded = false →
    ∃ id name, stage id = .joining name fetch

/-- What changes when a task goes on to another stage: it stays what it is, what it has done stays done, and nobody
stops to wait for a fetch that has not ended. -/
structure GoesOn (stage : Nat → Stage) (id : Nat) (next : Stage) : Prop where
  visitor : next.visitor? = (stage id).visitor?
  spelling : next.spelling? = (stage id).spelling?
  asked : (stage id).hasAsked = true → next.hasAsked = true
  ended : (stage id).hasEnded = true → next.hasEnded = true
  heard : ∀ name fetch, stage id = .joining name fetch → (stage fetch).hasEnded = true

section GoesOn

variable {p : Prefetch} {stage : Nat → Stage} {size id other : Nat} {next : Stage} {name : String}

theorem goesOn_of_eq {old : Stage} (hstage : stage id = old) (hvisitor : next.visitor? = old.visitor?)
    (hspelling : next.spelling? = old.spelling?) (hasked : old.hasAsked = true → next.hasAsked = true)
    (hended : old.hasEnded = true → next.hasEnded = true)
    (hheard : ∀ name fetch, old = .joining name fetch → (stage fetch).hasEnded = true) : GoesOn stage id next :=
  ⟨hstage ▸ hvisitor, hstage ▸ hspelling, hstage ▸ hasked, hstage ▸ hended, hstage ▸ hheard⟩

theorem GoesOn.visitor_eq (h : GoesOn stage id next) (other : Nat) :
    (Function.update stage id next other).visitor? = (stage other).visitor? := by
  by_cases hother : other = id
  · subst hother
    rw [Function.update_self, h.visitor]
  · rw [Function.update_of_ne hother]

theorem GoesOn.spelling_eq (h : GoesOn stage id next) (other : Nat) :
    (Function.update stage id next other).spelling? = (stage other).spelling? := by
  by_cases hother : other = id
  · subst hother
    rw [Function.update_self, h.spelling]
  · rw [Function.update_of_ne hother]

theorem GoesOn.hasEnded (h : GoesOn stage id next) (hended : (stage other).hasEnded = true) :
    (Function.update stage id next other).hasEnded = true := by
  by_cases hother : other = id
  · subst hother
    rw [Function.update_self]
    exact h.ended hended
  · rwa [Function.update_of_ne hother]

theorem GoesOn.hasAsked (h : GoesOn stage id next) (hasked : (stage other).hasAsked = true) :
    (Function.update stage id next other).hasAsked = true := by
  by_cases hother : other = id
  · subst hother
    rw [Function.update_self]
    exact h.asked hasked
  · rwa [Function.update_of_ne hother]

/-- The tasks that belong to the prefetch are those that have been started since. -/
theorem Roster.bounds (h : Roster p stage size) (hinside : stage id ≠ .outside) : p.first ≤ id ∧ id < size :=
  not_not.mp (mt (h.inside id).mpr hinside)

theorem Roster.ne_zero (h : Roster p stage size) (hinside : stage id ≠ .outside) : id ≠ 0 := by
  have hid := h.bounds hinside
  have hfirst := p.first_pos
  omega

theorem Roster.ne_fetch {fetch : Nat} (h : Roster p stage size) (hjoining : stage id = .joining name fetch) :
    fetch ≠ id := by
  rintro rfl
  obtain ⟨spelling, hspelling, -⟩ := h.attends fetch name fetch hjoining
  rw [hjoining] at hspelling
  cases hspelling

/-- A task goes on. If it begins to wait it is for the fetch of its package. -/
theorem Roster.goesOn (h : Roster p stage size) (hgoes : GoesOn stage id next)
    (hjoins : ∀ name fetch, next = .joining name fetch →
      ∃ spelling, (stage fetch).spelling? = some spelling ∧ Work.normalized spelling = Work.normalized name) :
    Roster p (Function.update stage id next) size where
  inside other := by
    rw [← h.inside other, Stage.eq_outside_iff, Stage.eq_outside_iff, hgoes.visitor_eq, hgoes.spelling_eq]
  visits other name := by rw [hgoes.visitor_eq, h.visits]
  attends other name fetch hother := by
    rw [hgoes.spelling_eq]
    by_cases heq : other = id
    · subst heq
      rw [Function.update_self] at hother
      exact hjoins name fetch hother
    · rw [Function.update_of_ne heq] at hother
      exact h.attends other name fetch hother
  named fetch spelling hspelling := by
    rw [hgoes.spelling_eq] at hspelling
    obtain ⟨visit, hvisit, hasked⟩ := h.named fetch spelling hspelling
    exact ⟨visit, hvisit, hgoes.hasAsked hasked⟩
  once fetch other spelling hfetch hother := by
    rw [hgoes.spelling_eq] at hfetch hother
    exact h.once fetch other spelling hfetch hother
  attended fetch spelling hspelling hgoing := by
    rw [hgoes.spelling_eq] at hspelling
    have hbefore : (stage fetch).hasEnded = false := by
      by_contra hended
      rw [hgoes.hasEnded (by simpa using hended)] at hgoing
      cases hgoing
    obtain ⟨visit, name, hvisit⟩ := h.attended fetch spelling hspelling hbefore
    refine ⟨visit, name, ?_⟩
    rw [Function.update_of_ne, hvisit]
    rintro rfl
    rw [hgoes.heard name fetch hvisit] at hbefore
    cases hbefore

/-- What changes when a visit starts a fetch of its own name: the fetch is a new task, and the visit waits for it. -/
structure Founds (stage : Nat → Stage) (id fetch : Nat) (name : String) (after : Nat → Stage) : Prop where
  seated : stage id = .seated name
  unknown : stage fetch = .outside
  joining : after id = .joining name fetch
  entered : after fetch = .entered name
  others : ∀ other, other ≠ id → other ≠ fetch → after other = stage other

theorem founds_update {fetch : Nat} (hseated : stage id = .seated name) (hunknown : stage fetch = .outside) :
    Founds stage id fetch name
      (Function.update (Function.update stage fetch (.entered name)) id (.joining name fetch)) where
  seated := hseated
  unknown := hunknown
  joining := Function.update_self ..
  entered := by
    have hne : fetch ≠ id := by
      rintro rfl
      cases hseated.symm.trans hunknown
    rw [Function.update_of_ne hne, Function.update_self]
  others other hid hfetch := by rw [Function.update_of_ne hid, Function.update_of_ne hfetch]

namespace Founds

variable {fetch task : Nat} {spelling found : String} {after : Nat → Stage}

/-- A task is the visit, the fetch, or one that stays where it is. -/
theorem trichotomy (h : Founds stage id fetch name after) (other : Nat) :
    (other = id ∧ stage other = .seated name ∧ after other = .joining name fetch) ∨
      (other = fetch ∧ stage other = .outside ∧ after other = .entered name) ∨
      (other ≠ id ∧ other ≠ fetch ∧ after other = stage other) := by
  by_cases hid : other = id
  · exact .inl ⟨hid, hid ▸ h.seated, hid ▸ h.joining⟩
  · by_cases hfetch : other = fetch
    · exact .inr (.inl ⟨hfetch, hfetch ▸ h.unknown, hfetch ▸ h.entered⟩)
    · exact .inr (.inr ⟨hid, hfetch, h.others other hid hfetch⟩)

theorem visitor_eq (h : Founds stage id fetch name after) (other : Nat) :
    (after other).visitor? = (stage other).visitor? := by
  rcases h.trichotomy other with ⟨-, hstage, hafter⟩ | ⟨-, hstage, hafter⟩ | ⟨-, -, hafter⟩
  · rw [hstage, hafter]
    rfl
  · rw [hstage, hafter]
    rfl
  · rw [hafter]

theorem spelling_iff (h : Founds stage id fetch name after) (other : Nat) : (after other).spelling? = some spelling ↔
    other = fetch ∧ spelling = name ∨ (stage other).spelling? = some spelling := by
  rcases h.trichotomy other with ⟨rfl, hstage, hafter⟩ | ⟨rfl, hstage, hafter⟩ | ⟨-, hother, hafter⟩
  · have hne : other ≠ fetch := by
      rintro rfl
      cases hstage.symm.trans h.unknown
    simp [hstage, hafter, hne, Stage.spelling?]
  · simp [hstage, hafter, Stage.spelling?, eq_comm]
  · simp [hafter, hother]

theorem eq_of_spelling (h : Founds stage id fetch name after) (hspelling : (stage task).spelling? = some spelling) :
    after task = stage task := by
  rcases h.trichotomy task with ⟨-, hstage, -⟩ | ⟨-, hstage, -⟩ | ⟨-, -, hafter⟩
  · rw [hstage] at hspelling
    cases hspelling
  · rw [hstage] at hspelling
    cases hspelling
  · exact hafter

theorem joining_iff (h : Founds stage id fetch name after) (other : Nat) : after other = .joining found task ↔
    other = id ∧ found = name ∧ task = fetch ∨ stage other = .joining found task := by
  rcases h.trichotomy other with ⟨rfl, hstage, hafter⟩ | ⟨rfl, hstage, hafter⟩ | ⟨hother, -, hafter⟩
  · simp [hstage, hafter, eq_comm]
  · have hne : other ≠ id := by
      rintro rfl
      cases hstage.symm.trans h.seated
    simp [hstage, hafter, hne]
  · simp [hafter, hother]

theorem hasAsked (h : Founds stage id fetch name after) {other : Nat} (hasked : (stage other).hasAsked = true) :
    (after other).hasAsked = true := by
  rcases h.trichotomy other with ⟨-, -, hafter⟩ | ⟨-, hstage, -⟩ | ⟨-, -, hafter⟩
  · rw [hafter]
    rfl
  · rw [hstage] at hasked
    cases hasked
  · rwa [hafter]

end Founds

/-- A fetch is only started for a name that nobody has asked for. -/
theorem Roster.founds {after : Nat → Stage} (h : Roster p stage size) (hfounds : Founds stage id size name after) :
    Roster p after (size + 1) where
  inside other := by
    have hinside : stage id ≠ .outside := by
      rw [hfounds.seated]
      exact nofun
    have hid := h.bounds hinside
    rcases hfounds.trichotomy other with ⟨rfl, -, hafter⟩ | ⟨rfl, -, hafter⟩ | ⟨-, hother, hafter⟩
    · simp only [hafter, reduceCtorEq, false_iff, not_not]
      omega
    · simp only [hafter, reduceCtorEq, false_iff, not_not]
      omega
    · rw [hafter, h.inside]
      omega
  visits other found := by rw [hfounds.visitor_eq, h.visits]
  attends other found fetch hjoining := by
    rcases (hfounds.joining_iff other).mp hjoining with ⟨rfl, rfl, rfl⟩ | hjoining
    · exact ⟨found, by rw [hfounds.entered]; rfl, rfl⟩
    · obtain ⟨spelling, hspelling, hname⟩ := h.attends other found fetch hjoining
      exact ⟨spelling, (hfounds.spelling_iff fetch).mpr (.inr hspelling), hname⟩
  named fetch spelling hspelling := by
    rcases (hfounds.spelling_iff fetch).mp hspelling with ⟨rfl, rfl⟩ | hspelling
    · exact ⟨id, (h.visits id spelling).mp (by rw [hfounds.seated]; rfl), by rw [hfounds.joining]; rfl⟩
    · obtain ⟨visit, hvisit, hasked⟩ := h.named fetch spelling hspelling
      exact ⟨visit, hvisit, hfounds.hasAsked hasked⟩
  once fetch other spelling hfetch hother := by
    have hvisits : p.Visits id name := (h.visits id name).mp (by rw [hfounds.seated]; rfl)
    have hfree (fetch : Nat) : (stage fetch).spelling? ≠ some name := by
      intro hspelling
      obtain ⟨visit, hvisit, hasked⟩ := h.named fetch name hspelling
      rw [hvisit.unique hvisits, hfounds.seated] at hasked
      cases hasked
    rw [hfounds.spelling_iff] at hfetch hother
    rcases hfetch with ⟨rfl, rfl⟩ | hfetch <;> rcases hother with ⟨rfl, hname⟩ | hother
    · rfl
    · exact absurd hother (hfree other)
    · exact absurd (hname ▸ hfetch) (hfree fetch)
    · exact h.once fetch other spelling hfetch hother
  attended fetch spelling hspelling hgoing := by
    rcases (hfounds.spelling_iff fetch).mp hspelling with ⟨rfl, rfl⟩ | hbefore
    · exact ⟨id, spelling, hfounds.joining⟩
    · rw [hfounds.eq_of_spelling hbefore] at hgoing
      obtain ⟨visit, found, hvisit⟩ := h.attended fetch spelling hbefore hgoing
      exact ⟨visit, found, (hfounds.joining_iff visit).mpr (.inr hvisit)⟩

end GoesOn

/-! ### The tasks -/

/-- What is recorded of a task that belongs to a prefetch. While a task has its turn, it is left open how far it
is. -/
structure TaskAt (p : Prefetch) (stage : Nat → Stage) (running : Option Nat) (id : Nat)
    (t : TaskState World Errand Outcome) : Prop where
  kept : t.isCancelled = false
  errand : t.errand = p.errandOf (stage id)
  status : running ≠ some id → p.statusOf (stage id) = some t.status
  gathered : ∀ name, (stage id).visitor? = some name → (stage id).hasEnded = false → t.watchers = [.gatherer 0]
  watched : ∀ spelling, (stage id).spelling? = some spelling → ∀ watcher ∈ t.watchers,
    ∃ visit name, watcher = .waiter visit ∧ stage visit = .joining name id
  unwatched : (stage id).hasEnded = true → running ≠ some id → t.watchers = []

/-- The records of all tasks that belong to a prefetch. -/
def Tasks (p : Prefetch) (stage : Nat → Stage) (running : Option Nat)
    (tasks : Array (TaskState World Errand Outcome)) : Prop :=
  ∀ id t, p.first ≤ id → tasks[id]? = some t → TaskAt p stage running id t

namespace Tasks

variable {p : Prefetch} {stage : Nat → Stage} {running : Option Nat} {s : ServiceRun} {id fetch visit : Nat}
  {next : Stage} {name : String}

/-- A task has its turn. -/
theorem begins (h : Tasks p stage none s.tasks) (id : Nat) : Tasks p stage (some id) s.tasks := by
  intro other t hother ht
  obtain ⟨hkept, herrand, hstatus, hgathered, hwatched, hunwatched⟩ := h other t hother ht
  exact ⟨hkept, herrand, fun _ => hstatus (by simp), hgathered, hwatched, fun hended _ => hunwatched hended (by simp)⟩

/-- The task that has its turn goes on to another stage. -/
theorem goesOn (h : Tasks p stage (some id) s.tasks) (hgoes : GoesOn stage id next)
    (hself : ∀ name fetch, stage id = .joining name fetch → fetch ≠ id) :
    Tasks p (Function.update stage id next) (some id) s.tasks := by
  intro other t hother ht
  obtain ⟨hkept, herrand, hstatus, hgathered, hwatched, hunwatched⟩ := h other t hother ht
  refine ⟨hkept, ?_, fun hne => ?_, fun name hvisitor hgoing => ?_, fun spelling hspelling watcher hwatcher => ?_,
    fun hended hne => ?_⟩
  · rw [herrand, Prefetch.errandOf_congr (hgoes.visitor_eq other) (hgoes.spelling_eq other)]
  · rw [Function.update_of_ne (fun heq => hne (congrArg some heq.symm))]
    exact hstatus hne
  · rw [hgoes.visitor_eq] at hvisitor
    refine hgathered name hvisitor ?_
    by_contra hended
    rw [hgoes.hasEnded (by simpa using hended)] at hgoing
    cases hgoing
  · rw [hgoes.spelling_eq] at hspelling
    obtain ⟨visit, name, rfl, hvisit⟩ := hwatched spelling hspelling watcher hwatcher
    refine ⟨visit, name, rfl, ?_⟩
    rw [Function.update_of_ne, hvisit]
    -- Who has gone on has waited for a fetch that has ended, and that one is not watched any more.
    rintro rfl
    have hnone := hunwatched (hgoes.heard name other hvisit)
      fun heq => hself name other hvisit (Option.some.inj heq).symm
    rw [hnone] at hwatcher
    cases hwatcher
  · rw [Function.update_of_ne (fun heq => hne (congrArg some heq.symm))] at hended
    exact hunwatched hended hne

/-- The turn of a task is over, which waits. -/
theorem pausing (h : Tasks p stage (some id) s.tasks) {paused : Paused World Errand Outcome Outcome}
    (hstatus : p.statusOf (stage id) = some (.paused paused)) :
    Tasks p stage none (s.pausing id paused).tasks := by
  have hgoing : (stage id).hasEnded = false := by
    by_contra hended
    exact (Prefetch.result_of_statusOf hstatus).mpr (by simpa using hended) rfl
  intro other t hother ht
  by_cases heq : other = id
  · subst heq
    rw [Scheduler.pausing, Scheduler.getElem?_modifyTask, if_pos rfl, Option.map_eq_some_iff] at ht
    obtain ⟨u, hu, rfl⟩ := ht
    have hat := h other u hother hu
    refine ⟨hat.kept, hat.errand, fun _ => hstatus, hat.gathered, hat.watched, fun hended _ => ?_⟩
    rw [hgoing] at hended
    cases hended
  · rw [Scheduler.pausing, Scheduler.modifyTask_of_ne heq] at ht
    have hat := h other t hother ht
    have hne : some id ≠ some other := fun hsame => heq (Option.some.inj hsame).symm
    exact ⟨hat.kept, hat.errand, fun _ => hat.status hne, hat.gathered, hat.watched,
      fun hended _ => hat.unwatched hended hne⟩

/-- The turn of a task is over, which ends. -/
theorem finish (h : Tasks p stage (some id) s.tasks) {result : TaskResult Outcome}
    (hstatus : p.statusOf (stage id) = some (.ended result)) (hended : (stage id).hasEnded = true) :
    Tasks p stage none (s.finish id result).tasks := by
  intro other t hother ht
  rw [Scheduler.finish_eq] at ht
  by_cases heq : other = id
  · subst heq
    change (s.modifyTask other _).tasks[other]? = some t at ht
    rw [Scheduler.getElem?_modifyTask, if_pos rfl, Option.map_eq_some_iff] at ht
    obtain ⟨u, hu, rfl⟩ := ht
    have hat := h other u hother hu
    refine ⟨hat.kept, hat.errand, fun _ => hstatus, fun name _ hgoing => ?_, fun _ _ _ hwatcher => ?_, fun _ _ => rfl⟩
    · rw [hended] at hgoing
      cases hgoing
    · cases hwatcher
  · change (s.modifyTask id _).tasks[other]? = some t at ht
    rw [Scheduler.modifyTask_of_ne heq] at ht
    have hat := h other t hother ht
    have hne : some id ≠ some other := fun hsame => heq (Option.some.inj hsame).symm
    exact ⟨hat.kept, hat.errand, fun _ => hat.status hne, hat.gathered, hat.watched,
      fun hended _ => hat.unwatched hended hne⟩

/-- A change of the record of a task that touches neither its status nor those who watch it. -/
theorem modifyTask (h : Tasks p stage running s.tasks)
    {f : TaskState World Errand Outcome → TaskState World Errand Outcome}
    (hkept : ∀ t, (f t).isCancelled = t.isCancelled) (herrand : ∀ t, (f t).errand = t.errand)
    (hstatus : ∀ t, (f t).status = t.status) (hwatchers : ∀ t, (f t).watchers = t.watchers) :
    Tasks p stage running (s.modifyTask id f).tasks := by
  intro other t hother ht
  rw [Scheduler.getElem?_modifyTask] at ht
  split at ht
  · obtain ⟨u, hu, rfl⟩ := Option.map_eq_some_iff.mp ht
    have hat := h other u hother hu
    exact ⟨(hkept u).trans hat.kept, (herrand u).trans hat.errand, fun hne => hstatus u ▸ hat.status hne,
      fun name hvisitor hgoing => (hwatchers u).trans (hat.gathered name hvisitor hgoing),
      fun spelling hspelling watcher hwatcher => hat.watched spelling hspelling watcher (hwatchers u ▸ hwatcher),
      fun hended hne => (hwatchers u).trans (hat.unwatched hended hne)⟩
  · exact h other t hother ht

/-- A visit begins to watch a fetch. -/
theorem watch (h : Tasks p stage running s.tasks) (hvisit : stage visit = .joining name fetch)
    (hspelling : (stage fetch).visitor? = none) (hgoing : (stage fetch).hasEnded = false) :
    Tasks p stage running (s.watch fetch (.waiter visit)).tasks := by
  intro other t hother ht
  rw [Scheduler.watch, Scheduler.getElem?_modifyTask] at ht
  split at ht
  · next heq =>
    subst heq
    obtain ⟨u, hu, rfl⟩ := Option.map_eq_some_iff.mp ht
    have hat := h fetch u hother hu
    refine ⟨hat.kept, hat.errand, hat.status, fun found hvisitor _ => ?_, fun spelling hfetch watcher hwatcher => ?_,
      fun hended _ => ?_⟩
    · rw [hspelling] at hvisitor
      cases hvisitor
    · rcases List.mem_append.mp hwatcher with hbefore | hnew
      · exact hat.watched spelling hfetch watcher hbefore
      · exact ⟨visit, name, List.mem_singleton.mp hnew, hvisit⟩
    · rw [hgoing] at hended
      cases hended
  · exact h other t hother ht

/-- A fetch is entered. -/
theorem enters (h : Tasks p stage running s.tasks) (hnew : stage s.tasks.size = .outside) :
    Tasks p (Function.update stage s.tasks.size (.entered name)) running (s.enter (.fetch name)).tasks := by
  intro other t hother ht
  by_cases heq : other = s.tasks.size
  · subst heq
    rw [Scheduler.enter_self] at ht
    obtain rfl := Option.some.inj ht
    have hself : Function.update stage s.tasks.size (.entered name) s.tasks.size = .entered name :=
      Function.update_self ..
    refine ⟨rfl, by rw [hself]; rfl, fun _ => by rw [hself]; rfl, fun found hvisitor => ?_, fun _ _ _ hwatcher => ?_,
      fun _ _ => rfl⟩
    · rw [hself] at hvisitor
      cases hvisitor
    · cases hwatcher
  · rw [Scheduler.enter_of_ne heq] at ht
    obtain ⟨hkept, herrand, hstatus, hgathered, hwatched, hunwatched⟩ := h other t hother ht
    refine ⟨hkept, ?_, ?_, ?_, fun spelling hspelling watcher hwatcher => ?_, ?_⟩
    · rwa [Function.update_of_ne heq]
    · rwa [Function.update_of_ne heq]
    · rwa [Function.update_of_ne heq]
    · rw [Function.update_of_ne heq] at hspelling
      obtain ⟨visit, found, rfl, hvisit⟩ := hwatched spelling hspelling watcher hwatcher
      refine ⟨visit, found, rfl, ?_⟩
      rw [Function.update_of_ne, hvisit]
      rintro rfl
      rw [hnew] at hvisit
      cases hvisit
    · rwa [Function.update_of_ne heq]

end Tasks

/-! ### The turns -/

/-- A turn of a task at a stage does no harm: if the task waits for a fetch, that one has ended. -/
def MayHaveTurn (stage : Nat → Stage) : Stage → Prop
  | .outside | .seated _ => False
  | .joining _ fetch => (stage fetch).hasEnded = true
  | _ => True

/-- News of the end of a fetch does no harm to a task at a stage. -/
def MayBeTold (stage : Nat → Stage) : Stage → Prop
  | .left .. => True
  | .joining _ fetch => (stage fetch).hasEnded = true
  | _ => False

/-- Why a turn was asked for. -/
def TurnAt (stage : Nat → Stage) : Turn → Prop
  | .run id => id = 0 ∨ MayHaveTurn stage (stage id)
  | .tell id => MayBeTold stage (stage id)
  | .ended _ => True
  | .settle child watcher =>
      watcher = 0 ∧ (stage child).hasEnded = true ∧ ∃ name, (stage child).visitor? = some name

/-- The turns that were asked for, and those that are going to be. A visit that has not had a slot yet gets exactly
one turn, when it begins and when it is given one; who waits for a fetch is told of its end; and a fetch has a turn
or a timer. -/
structure Turns (stage : Nat → Stage) (slots : Slots) (running : Option Nat) (ready : List Turn)
    (watchers : Nat → List Watcher) (timers : Array Timer) : Prop where
  turn : ∀ turn ∈ ready, TurnAt stage turn
  fresh : ∀ id name, stage id = .fresh name → ready.count (.run id) = if running = some id then 0 else 1
  queued : ∀ id name, stage id = .queued name →
    ready.count (.run id) = if running ≠ some id ∧ (id, true) ∈ slots.waiting then 1 else 0
  roused : ∀ id name fetch, stage id = .joining name fetch → running ≠ some id →
    .waiter id ∈ watchers fetch ∨ .tell id ∈ ready ∨ .run id ∈ ready
  busy : ∀ id spelling, (stage id).spelling? = some spelling → (stage id).hasEnded = false → running ≠ some id →
    .run id ∈ ready ∨ ∃ timer ∈ timers, timer.task = id
  timers : ∀ timer ∈ timers, ∃ spelling, (stage timer.task).spelling? = some spelling

/-- Who may be told of the end of a fetch may have a turn. -/
theorem MayBeTold.mayHaveTurn {stage : Nat → Stage} {at' : Stage} (h : MayBeTold stage at') :
    MayHaveTurn stage at' ∧ at'.isWaiting = false := by
  cases at' with
  | joining name fetch => exact ⟨h, rfl⟩
  | left name result => exact ⟨trivial, rfl⟩
  | _ => exact h.elim

theorem mayHaveTurn_of_spelling (stage : Nat → Stage) {at' : Stage} {spelling : String}
    (h : at'.spelling? = some spelling) :
    MayHaveTurn stage at' ∧ ¬ MayBeTold stage at' ∧ at'.isWaiting = false := by
  cases at' <;> first | exact ⟨trivial, id, rfl⟩ | cases h

section Turns

variable {stage after : Nat → Stage} {slots : Slots} {running : Option Nat} {ready asked : List Turn}
  {watchers more : Nat → List Watcher} {timers : Array Timer} {id : Nat} {next : Stage}

theorem MayHaveTurn.mono {at' : Stage} (h : MayHaveTurn stage at')
    (hended : ∀ fetch, (stage fetch).hasEnded = true → (after fetch).hasEnded = true) : MayHaveTurn after at' := by
  cases at' with
  | joining name fetch => exact hended fetch h
  | _ => exact h

theorem MayBeTold.mono {at' : Stage} (h : MayBeTold stage at')
    (hended : ∀ fetch, (stage fetch).hasEnded = true → (after fetch).hasEnded = true) : MayBeTold after at' := by
  cases at' with
  | joining name fetch => exact hended fetch h
  | _ => exact h

namespace Turns

/-- A task has its turn. -/
theorem begins (h : Turns stage slots none (.run id :: ready) watchers timers) :
    Turns stage slots (some id) ready watchers timers where
  turn turn hturn := h.turn turn (List.mem_cons_of_mem _ hturn)
  fresh other name hfresh := by
    have hone := h.fresh other name hfresh
    rw [List.count_cons] at hone
    by_cases heq : other = id
    · subst heq
      simp at hone ⊢
      exact hone
    · have hne : id ≠ other := Ne.symm heq
      simpa [hne] using hone
  queued other name hqueued := by
    have hcount := h.queued other name hqueued
    rw [List.count_cons] at hcount
    by_cases heq : other = id
    · subst heq
      simp at hcount ⊢
      split at hcount <;> omega
    · have hne : id ≠ other := Ne.symm heq
      simpa [hne] using hcount
  roused other name fetch hjoining hrunning := by
    rcases h.roused other name fetch hjoining (by simp) with hwatch | htell | hrun
    · exact .inl hwatch
    · exact .inr (.inl (by simpa using htell))
    · refine .inr (.inr ((List.mem_cons.mp hrun).resolve_left fun heq => hrunning ?_))
      rw [Turn.run.inj heq]
  busy other spelling hspelling hgoing hrunning := by
    rcases h.busy other spelling hspelling hgoing (by simp) with hrun | htimer
    · refine .inl ((List.mem_cons.mp hrun).resolve_left fun heq => hrunning ?_)
      rw [Turn.run.inj heq]
    · exact .inr htimer
  timers := h.timers

theorem woken_of_run {name : String} (h : Turns stage slots none ready watchers timers)
    (hqueued : stage id = .queued name) (hrun : .run id ∈ ready) : (id, true) ∈ slots.waiting := by
  by_contra hnot
  have hcount := h.queued id name hqueued
  rw [if_neg (by simp [hnot])] at hcount
  exact List.count_eq_zero.mp hcount hrun

/-- The task that has its turn goes on to another stage. -/
theorem goesOn (h : Turns stage slots (some id) ready watchers timers) (hgoes : GoesOn stage id next)
    (hrun : .run id ∈ ready → MayHaveTurn (Function.update stage id next) next)
    (htell : .tell id ∈ ready → MayBeTold (Function.update stage id next) next)
    (hwaiting : next.isWaiting = true → .run id ∉ ready) :
    Turns (Function.update stage id next) slots (some id) ready watchers timers where
  turn turn hturn := by
    have hbefore := h.turn turn hturn
    cases turn with
    | run other =>
        refine hbefore.imp_right fun hother => ?_
        by_cases heq : other = id
        · subst heq
          rw [Function.update_self]
          exact hrun hturn
        · rw [Function.update_of_ne heq]
          exact hother.mono fun _ => hgoes.hasEnded
    | tell other =>
        by_cases heq : other = id
        · subst heq
          rw [TurnAt, Function.update_self]
          exact htell hturn
        · rw [TurnAt, Function.update_of_ne heq]
          exact MayBeTold.mono hbefore fun _ => hgoes.hasEnded
    | ended other => trivial
    | settle child watcher =>
        exact hbefore.imp_right fun hchild =>
          ⟨hgoes.hasEnded hchild.1, hchild.2.imp fun name hname => (hgoes.visitor_eq child).trans hname⟩
  fresh other name hfresh := by
    by_cases heq : other = id
    · subst heq
      rw [Function.update_self] at hfresh
      rw [if_pos rfl, List.count_eq_zero]
      exact hwaiting (by rw [hfresh]; rfl)
    · rw [Function.update_of_ne heq] at hfresh
      exact h.fresh other name hfresh
  queued other name hqueued := by
    by_cases heq : other = id
    · subst heq
      rw [Function.update_self] at hqueued
      rw [if_neg (by simp), List.count_eq_zero]
      exact hwaiting (by rw [hqueued]; rfl)
    · rw [Function.update_of_ne heq] at hqueued
      exact h.queued other name hqueued
  roused other name fetch hjoining hrunning := by
    rw [Function.update_of_ne fun heq => hrunning (congrArg some heq.symm)] at hjoining
    exact h.roused other name fetch hjoining hrunning
  busy other spelling hspelling hgoing hrunning := by
    rw [Function.update_of_ne fun heq => hrunning (congrArg some heq.symm)] at hspelling hgoing
    exact h.busy other spelling hspelling hgoing hrunning
  timers timer hmem := by
    rw [hgoes.spelling_eq]
    exact h.timers timer hmem

/-- The turn of a task is over. -/
theorem rests (h : Turns stage slots (some id) ready watchers timers) (hfresh : ∀ name, stage id ≠ .fresh name)
    (hqueued : ∀ name, stage id = .queued name → (id, true) ∉ slots.waiting)
    (hroused : ∀ name fetch, stage id = .joining name fetch →
      .waiter id ∈ watchers fetch ∨ .tell id ∈ ready ∨ .run id ∈ ready)
    (hbusy : ∀ spelling, (stage id).spelling? = some spelling → (stage id).hasEnded = false →
      .run id ∈ ready ∨ ∃ timer ∈ timers, timer.task = id) :
    Turns stage slots none ready watchers timers where
  turn := h.turn
  fresh other name hother := by
    have hne : id ≠ other := by
      rintro rfl
      exact hfresh name hother
    simpa [hne] using h.fresh other name hother
  queued other name hother := by
    have hcount := h.queued other name hother
    by_cases heq : other = id
    · subst heq
      simpa [hqueued name hother] using hcount
    · have hne : id ≠ other := Ne.symm heq
      simpa [hne] using hcount
  roused other name fetch hjoining _ := by
    by_cases heq : other = id
    · subst heq
      exact hroused name fetch hjoining
    · exact h.roused other name fetch hjoining fun hsame => heq (Option.some.inj hsame).symm
  busy other spelling hspelling hgoing _ := by
    by_cases heq : other = id
    · subst heq
      exact hbusy spelling hspelling hgoing
    · exact h.busy other spelling hspelling hgoing fun hsame => heq (Option.some.inj hsame).symm
  timers := h.timers

/-- Further turns are asked for, none of them for a visit that has not had a slot yet. Who is not going to be told
of the end of a fetch any more has been told. -/
theorem append (h : Turns stage slots running ready watchers timers) (hasked : ∀ turn ∈ asked, TurnAt stage turn)
    (hcount : ∀ id, (stage id).isWaiting = true → .run id ∉ asked)
    (htold : ∀ id name fetch, stage id = .joining name fetch → .waiter id ∈ watchers fetch →
      .waiter id ∈ more fetch ∨ .tell id ∈ asked) :
    Turns stage slots running (ready ++ asked) more timers where
  turn turn hturn := (List.mem_append.mp hturn).elim (h.turn turn) (hasked turn)
  fresh id name hfresh := by
    rw [List.count_append, List.count_eq_zero.mpr (hcount id (by rw [hfresh]; rfl)), Nat.add_zero]
    exact h.fresh id name hfresh
  queued id name hqueued := by
    rw [List.count_append, List.count_eq_zero.mpr (hcount id (by rw [hqueued]; rfl)), Nat.add_zero]
    exact h.queued id name hqueued
  roused id name fetch hjoining hrunning := by
    rcases h.roused id name fetch hjoining hrunning with hwatch | hask
    · exact (htold id name fetch hjoining hwatch).imp_right fun htell => .inl (List.mem_append_right _ htell)
    · exact .inr (hask.imp (List.mem_append_left _) (List.mem_append_left _))
  busy id spelling hspelling hgoing hrunning :=
    (h.busy id spelling hspelling hgoing hrunning).imp_left (List.mem_append_left _)
  timers := h.timers

/-- Fetches for which somebody waits are watched by others besides. -/
theorem watches (h : Turns stage slots running ready watchers timers)
    (hmore : ∀ id name fetch, stage id = .joining name fetch → watchers fetch ⊆ more fetch) :
    Turns stage slots running ready more timers :=
  ⟨h.turn, h.fresh, h.queued, fun id name fetch hjoining hrunning =>
    (h.roused id name fetch hjoining hrunning).imp_left (hmore id name fetch hjoining ·), h.busy, h.timers⟩

theorem hasEnded_update {size : Nat} {name : String} (hnew : stage size = .outside) {fetch : Nat}
    (hended : (stage fetch).hasEnded = true) : (Function.update stage size (.entered name) fetch).hasEnded = true := by
  rwa [Function.update_of_ne]
  rintro rfl
  rw [hnew] at hended
  cases hended

theorem turnAt_update {size : Nat} {name : String} (hnew : stage size = .outside) {turn : Turn}
    (h : TurnAt stage turn) : TurnAt (Function.update stage size (.entered name)) turn := by
  cases turn with
  | run other =>
      refine h.imp_right fun hmay => ?_
      rw [Function.update_of_ne]
      · exact hmay.mono fun _ => hasEnded_update hnew
      · rintro rfl
        rwa [hnew] at hmay
  | tell other =>
      rw [TurnAt] at h ⊢
      rw [Function.update_of_ne]
      · exact h.mono fun _ => hasEnded_update hnew
      · rintro rfl
        rwa [hnew] at h
  | ended other => trivial
  | settle child watcher =>
      refine h.imp_right fun hchild => ⟨hasEnded_update hnew hchild.1, ?_⟩
      rw [Function.update_of_ne]
      · exact hchild.2
      · rintro rfl
        rw [hnew] at hchild
        cases hchild.1

/-- A fetch is entered, which gets its turn. -/
theorem enters {size : Nat} {name : String} (h : Turns stage slots running ready watchers timers)
    (hnew : stage size = .outside) (hsize : size ≠ 0) :
    Turns (Function.update stage size (.entered name)) slots running (ready ++ [.run size]) watchers timers := by
  have hbefore {other : Nat} {at' : Stage} (hother : Function.update stage size (.entered name) other = at')
      (hat : at' ≠ .entered name) : other ≠ size ∧ stage other = at' := by
    by_cases heq : other = size
    · subst heq
      rw [Function.update_self] at hother
      exact absurd hother.symm hat
    · exact ⟨heq, by rwa [Function.update_of_ne heq] at hother⟩
  have hnone {other : Nat} (hne : other ≠ size) : [Turn.run size].count (.run other) = 0 :=
    List.count_eq_zero.mpr (by simpa using hne)
  exact {
    turn := by
      intro turn hturn
      rcases List.mem_append.mp hturn with hturn | hturn
      · exact turnAt_update hnew (h.turn turn hturn)
      · obtain rfl := List.mem_singleton.mp hturn
        exact .inr (by rw [Function.update_self]; trivial)
    fresh := by
      intro other found hfresh
      obtain ⟨hne, hfresh⟩ := hbefore hfresh nofun
      rw [List.count_append, hnone hne, Nat.add_zero]
      exact h.fresh other found hfresh
    queued := by
      intro other found hqueued
      obtain ⟨hne, hqueued⟩ := hbefore hqueued nofun
      rw [List.count_append, hnone hne, Nat.add_zero]
      exact h.queued other found hqueued
    roused := by
      intro other found fetch hjoining hrunning
      obtain ⟨-, hjoining⟩ := hbefore hjoining nofun
      exact (h.roused other found fetch hjoining hrunning).imp_right
        (.imp (List.mem_append_left _) (List.mem_append_left _))
    busy := by
      intro other spelling hspelling hgoing hrunning
      by_cases heq : other = size
      · subst heq
        exact .inl (by simp)
      · rw [Function.update_of_ne heq] at hspelling hgoing
        exact (h.busy other spelling hspelling hgoing hrunning).imp_left (List.mem_append_left _)
    timers := by
      intro timer hmem
      obtain ⟨spelling, hspelling⟩ := h.timers timer hmem
      refine ⟨spelling, ?_⟩
      rwa [Function.update_of_ne]
      rintro heq
      rw [heq, hnew] at hspelling
      cases hspelling }

/-- The slots change, but not for those who have been woken. -/
theorem reslot (h : Turns stage slots running ready watchers timers) {given : Slots}
    (hkept : ∀ other, (other, true) ∈ given.waiting ↔ (other, true) ∈ slots.waiting) :
    Turns stage given running ready watchers timers :=
  ⟨h.turn, h.fresh, fun id name hqueued => by rw [h.queued id name hqueued]; simp only [hkept], h.roused, h.busy,
    h.timers⟩

/-- A free slot is given to the next one, who gets a turn for it. -/
theorem wakes (h : Turns stage slots running ready watchers timers) {given : Slots} {task? : Option Nat}
    (hkept : ∀ other name, stage other = .queued name → task? ≠ some other →
      ((other, true) ∈ given.waiting ↔ (other, true) ∈ slots.waiting))
    (hgiven : ∀ task, task? = some task → (task, true) ∈ given.waiting ∧ (task, true) ∉ slots.waiting ∧
      running ≠ some task ∧ ∃ name, stage task = .queued name) :
    Turns stage given running (ready ++ (task?.map Turn.run).toList) watchers timers := by
  have hcount (other : Nat) : ((task?.map Turn.run).toList).count (.run other) =
      if task? = some other then 1 else 0 := by
    cases task? with
    | none => rfl
    | some task =>
        by_cases heq : task = other
        · simp [heq]
        · simp [heq]
  refine ⟨fun turn hturn => ?_, fun id name hfresh => ?_, fun id name hqueued => ?_,
    fun id name fetch hjoining hrunning => ?_, fun id spelling hspelling hgoing hrunning => ?_, h.timers⟩
  · rcases List.mem_append.mp hturn with hturn | hturn
    · exact h.turn turn hturn
    · obtain ⟨task, htask, rfl⟩ : ∃ task, task? = some task ∧ Turn.run task = turn := by simpa using hturn
      obtain ⟨-, -, -, name, hqueued⟩ := hgiven task htask
      exact .inr (by rw [hqueued]; trivial)
  · have hother : task? ≠ some id := by
      intro htask
      obtain ⟨-, -, -, other, hqueued⟩ := hgiven id htask
      rw [hfresh] at hqueued
      cases hqueued
    rw [List.count_append, hcount, if_neg hother, Nat.add_zero]
    exact h.fresh id name hfresh
  · rw [List.count_append, hcount, h.queued id name hqueued]
    by_cases htask : task? = some id
    · obtain ⟨hwoken, hasleep, hrunning, -⟩ := hgiven id htask
      simp [htask, hasleep, hrunning, hwoken]
    · simp [htask, hkept id name hqueued htask]
  · exact (h.roused id name fetch hjoining hrunning).imp_right (.imp (List.mem_append_left _) (List.mem_append_left _))
  · exact (h.busy id spelling hspelling hgoing hrunning).imp_left (List.mem_append_left _)

/-- A turn has been taken in which no task does anything. -/
theorem tail {turn : Turn} (h : Turns stage slots none (turn :: ready) watchers timers) (hrun : ∀ id, turn ≠ .run id)
    (htell : ∀ id, turn ≠ .tell id) : Turns stage slots none ready watchers timers where
  turn other hother := h.turn other (List.mem_cons_of_mem _ hother)
  fresh id name hfresh := by
    have hcount := h.fresh id name hfresh
    rwa [List.count_cons_of_ne (hrun id)] at hcount
  queued id name hqueued := by
    have hcount := h.queued id name hqueued
    rwa [List.count_cons_of_ne (hrun id)] at hcount
  roused id name fetch hjoining hrunning := by
    refine (h.roused id name fetch hjoining hrunning).imp_right (.imp ?_ ?_)
    · exact fun hmem => (List.mem_cons.mp hmem).resolve_left (Ne.symm (htell id))
    · exact fun hmem => (List.mem_cons.mp hmem).resolve_left (Ne.symm (hrun id))
  busy id spelling hspelling hgoing hrunning := by
    refine (h.busy id spelling hspelling hgoing hrunning).imp_left ?_
    exact fun hmem => (List.mem_cons.mp hmem).resolve_left (Ne.symm (hrun id))
  timers := h.timers

/-- Who is told of the end of a fetch gets a turn. -/
theorem tells (h : Turns stage slots none (.tell id :: ready) watchers timers) :
    Turns stage slots none (ready ++ [.run id]) watchers timers := by
  have htold : MayBeTold stage (stage id) := h.turn _ List.mem_cons_self
  have hcount {other : Nat} (hother : (stage other).isWaiting = true) :
      (ready ++ [Turn.run id]).count (.run other) = (Turn.tell id :: ready).count (.run other) := by
    have hnone : Turn.run other ∉ [Turn.run id] := by
      rintro hmem
      rw [Turn.run.inj (List.mem_singleton.mp hmem), htold.mayHaveTurn.2] at hother
      cases hother
    have htell : Turn.tell id ≠ .run other := nofun
    rw [List.count_append, List.count_eq_zero.mpr hnone, List.count_cons_of_ne htell, Nat.add_zero]
  refine ⟨fun turn hturn => ?_, fun other name hfresh => ?_, fun other name hqueued => ?_,
    fun other name fetch hjoining hrunning => ?_, fun other spelling hspelling hgoing hrunning => ?_, h.timers⟩
  · rcases List.mem_append.mp hturn with hturn | hturn
    · exact h.turn turn (List.mem_cons_of_mem _ hturn)
    · obtain rfl := List.mem_singleton.mp hturn
      exact .inr htold.mayHaveTurn.1
  · rw [hcount (by rw [hfresh]; rfl)]
    exact h.fresh other name hfresh
  · rw [hcount (by rw [hqueued]; rfl)]
    exact h.queued other name hqueued
  · rcases h.roused other name fetch hjoining hrunning with hwatch | htell | hrun
    · exact .inl hwatch
    · rcases List.mem_cons.mp htell with heq | hmem
      · rw [Turn.tell.inj heq]
        exact .inr (.inr (by simp))
      · exact .inr (.inl (List.mem_append_left _ hmem))
    · exact .inr (.inr (List.mem_append_left _ ((List.mem_cons.mp hrun).resolve_left nofun)))
  · refine (h.busy other spelling hspelling hgoing hrunning).imp_left fun hmem => ?_
    exact List.mem_append_left _ ((List.mem_cons.mp hmem).resolve_left nofun)

/-- A timer is set for a fetch. -/
theorem sets {set : Array Timer} (h : Turns stage slots running ready watchers timers)
    (hkept : ∀ timer ∈ timers, timer ∈ set)
    (hset : ∀ timer ∈ set, timer ∈ timers ∨ ∃ spelling, (stage timer.task).spelling? = some spelling) :
    Turns stage slots running ready watchers set :=
  ⟨h.turn, h.fresh, h.queued, h.roused, fun id spelling hspelling hgoing hrunning =>
    (h.busy id spelling hspelling hgoing hrunning).imp_right fun ⟨timer, htimer, htask⟩ =>
      ⟨timer, hkept timer htimer, htask⟩,
    fun timer htimer => (hset timer htimer).elim (h.timers timer) fun hspelling => hspelling⟩

/-- A timer goes off, and its task gets a turn. -/
theorem fires {timer : Timer} {left : Array Timer} (h : Turns stage slots none ready watchers timers)
    (htimer : timer ∈ timers) (hleft : ∀ other ∈ left, other ∈ timers)
    (hfired : ∀ other ∈ timers, other = timer ∨ other ∈ left) :
    Turns stage slots none (ready ++ [.run timer.task]) watchers left := by
  obtain ⟨spelling, hspelling⟩ := h.timers timer htimer
  obtain ⟨hmay, -, hnotWaiting⟩ := mayHaveTurn_of_spelling stage hspelling
  have hasks : Turns stage slots none (ready ++ [.run timer.task]) watchers timers := by
    refine h.append (fun turn hturn => ?_) (fun other hother hturn => ?_) fun _ _ _ _ => .inl
    · obtain rfl := List.mem_singleton.mp hturn
      exact .inr hmay
    · rw [Turn.run.inj (List.mem_singleton.mp hturn), hnotWaiting] at hother
      cases hother
  refine ⟨hasks.turn, hasks.fresh, hasks.queued, hasks.roused, fun other spelling hother hgoing hrunning => ?_,
    fun other hother => h.timers other (hleft other hother)⟩
  rcases hasks.busy other spelling hother hgoing hrunning with hrun | ⟨found, hfound, rfl⟩
  · exact .inl hrun
  · rcases hfired found hfound with rfl | hstill
    · exact .inl (by simp)
    · exact .inr ⟨found, hstill, rfl⟩

end Turns

end Turns

/-! ### The group and the seats -/

/-- The visits that are waited for together: those that have not ended, and those whose end has not been taken notice
of yet. When none is left, the turn is that of the prefetch itself. -/
structure Gathers (stage : Nat → Stage) (unsettled : List Nat) (ready : List Turn)
    (outside : Option (TaskState World Errand Outcome)) : Prop where
  nodup : unsettled.Nodup
  mem_iff : ∀ id, id ∈ unsettled ↔
    (∃ name, (stage id).visitor? = some name) ∧ ((stage id).hasEnded = false ∨ .settle id 0 ∈ ready)
  once : ∀ id, ready.count (.settle id 0) ≤ 1
  done : .run 0 ∈ ready ↔ unsettled = []
  task : ∃ t, outside = some t ∧ t.failed = none ∧ (unsettled ≠ [] → t.group = some (unsettled.length, true))

namespace Gathers

variable {stage : Nat → Stage} {unsettled : List Nat} {ready asked : List Turn}
  {outside outside' : Option (TaskState World Errand Outcome)} {id : Nat} {next : Stage}

/-- A turn is taken that is neither that of the prefetch nor one in which the end of a visit is taken notice of. -/
theorem tail {turn : Turn} (h : Gathers stage unsettled (turn :: ready) outside) (hrun : turn ≠ .run 0)
    (hsettle : ∀ child, turn ≠ .settle child 0) : Gathers stage unsettled ready outside := by
  refine ⟨h.nodup, fun id => ?_, fun id => ?_, ?_, h.task⟩
  · rw [h.mem_iff, List.mem_cons, or_iff_right (Ne.symm (hsettle id))]
  · exact (List.count_le_count_cons ..).trans (h.once id)
  · rw [← h.done, List.mem_cons, or_iff_right (Ne.symm hrun)]

/-- Other turns are asked for. -/
theorem append (h : Gathers stage unsettled ready outside) (hrun : .run 0 ∉ asked)
    (hsettle : ∀ child, .settle child 0 ∉ asked) : Gathers stage unsettled (ready ++ asked) outside := by
  refine ⟨h.nodup, fun id => ?_, fun id => ?_, ?_, h.task⟩
  · rw [h.mem_iff, List.mem_append, or_iff_left (hsettle id)]
  · rw [List.count_append, List.count_eq_zero.mpr (hsettle id), Nat.add_zero]
    exact h.once id
  · rw [← h.done, List.mem_append, or_iff_left hrun]

/-- A task goes on to a stage at which it has not ended either, or it is a fetch. -/
theorem goesOn (h : Gathers stage unsettled ready outside) (hgoes : GoesOn stage id next)
    (hgoing : ∀ name, next.visitor? = some name → next.hasEnded = (stage id).hasEnded) :
    Gathers (Function.update stage id next) unsettled ready outside := by
  refine ⟨h.nodup, fun other => ?_, h.once, h.done, h.task⟩
  rw [h.mem_iff, hgoes.visitor_eq]
  refine and_congr_right fun hvisitor => ?_
  by_cases heq : other = id
  · subst heq
    obtain ⟨name, hname⟩ := hvisitor
    rw [Function.update_self, hgoing name (hgoes.visitor.trans hname)]
  · rw [Function.update_of_ne heq]

/-- A fetch is entered. -/
theorem enters {size : Nat} {name : String} (h : Gathers stage unsettled ready outside) (hnew : stage size = .outside) :
    Gathers (Function.update stage size (.entered name)) unsettled ready outside := by
  refine ⟨h.nodup, fun other => ?_, h.once, h.done, h.task⟩
  rw [h.mem_iff]
  by_cases heq : other = size
  · subst heq
    rw [Function.update_self, hnew]
    simp [Stage.visitor?]
  · rw [Function.update_of_ne heq]

/-- A visit ends, and its end is going to be taken notice of. -/
theorem leaves (h : Gathers stage unsettled ready outside) (hgoes : GoesOn stage id next)
    (hbefore : (stage id).hasEnded = false) (hnone : .settle id 0 ∉ ready) (hasked : .settle id 0 ∈ asked)
    (hrun : .run 0 ∉ asked) (hothers : ∀ other, other ≠ id → .settle other 0 ∉ asked)
    (hone : asked.count (.settle id 0) ≤ 1) :
    Gathers (Function.update stage id next) unsettled (ready ++ asked) outside := by
  refine ⟨h.nodup, fun other => ?_, fun other => ?_, ?_, h.task⟩
  · rw [h.mem_iff, hgoes.visitor_eq]
    refine and_congr_right fun _ => ?_
    by_cases heq : other = id
    · subst heq
      simp [hbefore, hasked]
    · rw [Function.update_of_ne heq, List.mem_append, or_iff_left (hothers other heq)]
  · rw [List.count_append]
    by_cases heq : other = id
    · subst heq
      rw [List.count_eq_zero.mpr hnone]
      omega
    · rw [List.count_eq_zero.mpr (hothers other heq)]
      exact h.once other
  · rw [← h.done, List.mem_append, or_iff_left hrun]

/-- It is taken notice of the end of a visit. When it is the last one the prefetch itself gets a turn. -/
theorem settles (h : Gathers stage unsettled (.settle id 0 :: ready) outside) (hid : id ∈ unsettled)
    (hended : (stage id).hasEnded = true)
    (hasked : asked = if unsettled.length ≤ 1 then [.run 0] else [])
    (htask : ∃ t, outside' = some t ∧ t.failed = none ∧
      (1 < unsettled.length → t.group = some (unsettled.length - 1, true))) :
    Gathers stage (unsettled.erase id) (ready ++ asked) outside' := by
  have hnever : .settle id 0 ∉ ready := by
    have hone := h.once id
    rw [List.count_cons_self] at hone
    exact List.count_eq_zero.mp (by omega)
  have hnone (other : Nat) : .settle other 0 ∉ asked := by
    rw [hasked]
    split <;> simp
  have hbusy : .run 0 ∉ ready := by
    intro hmem
    rw [h.done.mp (List.mem_cons_of_mem _ hmem)] at hid
    cases hid
  have hlength : (unsettled.erase id).length = unsettled.length - 1 := List.length_erase_of_mem hid
  refine ⟨h.nodup.erase id, fun other => ?_, fun other => ?_, ?_, ?_⟩
  · rw [h.nodup.mem_erase_iff, h.mem_iff, List.mem_cons, List.mem_append, or_iff_left (hnone other)]
    by_cases heq : other = id
    · subst heq
      simp [hended, hnever]
    · simp [heq]
  · rw [List.count_append, List.count_eq_zero.mpr (hnone other), Nat.add_zero]
    exact (List.count_le_count_cons ..).trans (h.once other)
  · rw [List.mem_append, or_iff_right hbusy, hasked, ← List.length_eq_zero_iff, hlength]
    split
    · simp only [List.mem_singleton, true_iff]
      omega
    · simp only [List.not_mem_nil, false_iff]
      omega
  · obtain ⟨t, ht, hfailed, hgroup⟩ := htask
    refine ⟨t, ht, hfailed, fun hne => ?_⟩
    have := List.length_pos_iff.mpr hne
    rw [hlength]
    exact hgroup (by omega)

end Gathers

/-- The slots and who sits in them: those of the visits that are looking up their views. The visits that are queued
wait for them. -/
structure Seats (capacity : Nat) (stage : Nat → Stage) (seated : List Nat) (slots : Slots) : Prop where
  account : slots.Accounts capacity seated.length
  nodup : seated.Nodup
  sits_iff : ∀ id, id ∈ seated ↔ (stage id).sits = true
  queued_iff : ∀ id, (∃ woken, (id, woken) ∈ slots.waiting) ↔ ∃ name, stage id = .queued name

namespace Seats

variable {capacity : Nat} {stage : Nat → Stage} {seated : List Nat} {slots : Slots} {id : Nat} {next : Stage}
  {name : String}

theorem queued_update_iff {other : Nat} (hnext : ∀ name, next ≠ .queued name)
    (hbefore : ∀ name, stage id ≠ .queued name) :
    (∃ name, Function.update stage id next other = .queued name) ↔ ∃ name, stage other = .queued name := by
  by_cases heq : other = id
  · subst heq
    simp only [Function.update_self, hnext, hbefore]
  · rw [Function.update_of_ne heq]

/-- A task goes on without giving up a seat or taking one. -/
theorem goesOn (h : Seats capacity stage seated slots) (hsits : next.sits = (stage id).sits)
    (hnext : ∀ name, next ≠ .queued name) (hbefore : ∀ name, stage id ≠ .queued name) :
    Seats capacity (Function.update stage id next) seated slots := by
  refine ⟨h.account, h.nodup, fun other => ?_, fun other => ?_⟩
  · rw [h.sits_iff]
    by_cases heq : other = id
    · subst heq
      rw [Function.update_self, hsits]
    · rw [Function.update_of_ne heq]
  · rw [h.queued_iff, queued_update_iff hnext hbefore]

theorem mem_sits {other : Nat} (h : Seats capacity stage seated slots) (hsits : next.sits = true) :
    other ∈ id :: seated ↔ (Function.update stage id next other).sits = true := by
  rw [List.mem_cons, h.sits_iff]
  by_cases heq : other = id
  · subst heq
    simp [hsits]
  · rw [Function.update_of_ne heq, or_iff_right heq]

/-- A visit finds a free slot. -/
theorem takes (h : Seats capacity stage seated slots) (hfresh : stage id = .fresh name)
    (hfree : (slots.take id).1 = true) :
    Seats capacity (Function.update stage id (.seated name)) (id :: seated) (slots.take id).2 := by
  obtain ⟨haccount, hwaiting⟩ := h.account.take_free hfree
  refine ⟨haccount, List.nodup_cons.mpr ⟨?_, h.nodup⟩, fun other => h.mem_sits rfl, fun other => ?_⟩
  · rw [h.sits_iff, hfresh]
    exact Bool.false_ne_true
  · have hnext : ∀ other, Stage.seated name ≠ .queued other := nofun
    rw [hwaiting, h.queued_iff, queued_update_iff hnext]
    rw [hfresh]
    exact nofun

/-- A visit finds no free slot. -/
theorem queues (h : Seats capacity stage seated slots) (hfresh : stage id = .fresh name)
    (hfull : (slots.take id).1 = false) :
    Seats capacity (Function.update stage id (.queued name)) seated (slots.take id).2 ∧
      (slots.take id).2.waiting = slots.waiting ++ [(id, false)] := by
  have hnew (woken : Bool) : (id, woken) ∉ slots.waiting := by
    intro hmem
    obtain ⟨other, hqueued⟩ := (h.queued_iff id).mp ⟨woken, hmem⟩
    rw [hfresh] at hqueued
    cases hqueued
  obtain ⟨haccount, hwaiting⟩ := h.account.take_full hfull hnew
  refine ⟨⟨haccount, h.nodup, fun other => ?_, fun other => ?_⟩, hwaiting⟩
  · rw [h.sits_iff]
    by_cases heq : other = id
    · subst heq
      rw [Function.update_self, hfresh]
      rfl
    · rw [Function.update_of_ne heq]
  · simp only [hwaiting, List.mem_append, List.mem_singleton, Prod.mk.injEq, exists_or]
    by_cases heq : other = id
    · subst heq
      simp
    · rw [Function.update_of_ne heq, ← h.queued_iff]
      simp [heq]

/-- A visit that has been woken takes its slot. -/
theorem leaves (h : Seats capacity stage seated slots) (hqueued : stage id = .queued name)
    (hwoken : (id, true) ∈ slots.waiting) :
    Seats capacity (Function.update stage id (.seated name)) (id :: seated) (slots.leave id).2 := by
  refine ⟨h.account.leave hwoken, List.nodup_cons.mpr ⟨?_, h.nodup⟩, fun other => h.mem_sits rfl, fun other => ?_⟩
  · rw [h.sits_iff, hqueued]
    exact Bool.false_ne_true
  · rw [Slots.exists_mem_leave, h.queued_iff]
    by_cases heq : other = id
    · subst heq
      simp
    · rw [Function.update_of_ne heq]
      simp [heq]

/-- A visit gives its slot back. -/
theorem releases (h : Seats capacity stage seated slots) (hsits : (stage id).sits = true) (hnext : next.sits = false)
    (hqueue : ∀ name, next ≠ .queued name) :
    Seats capacity (Function.update stage id next) (seated.erase id) slots.release.2 := by
  have hmem : id ∈ seated := (h.sits_iff id).mpr hsits
  refine ⟨?_, h.nodup.erase id, fun other => ?_, fun other => ?_⟩
  · refine Slots.Accounts.release ?_
    rw [List.length_erase_of_mem hmem, Nat.sub_add_cancel (List.length_pos_of_mem hmem)]
    exact h.account
  · rw [h.nodup.mem_erase_iff, h.sits_iff]
    by_cases heq : other = id
    · subst heq
      simp [hnext]
    · rw [Function.update_of_ne heq]
      simp [heq]
  · rw [Slots.exists_mem_release, h.queued_iff, queued_update_iff hqueue]
    rintro name hqueued
    rw [hqueued] at hsits
    cases hsits

end Seats

end ManifestLens
