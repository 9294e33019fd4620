import ManifestLens.Proofs.Editor.Cancellation
import ManifestLens.Proofs.Service.Company
import ManifestLens.Proofs.Service.Turns

/-!
# The views of a hover

The three views that a hover needs are looked up in tasks of their own, and the hover waits until all of them are
there or one of them has failed. With nobody else at work this wait ends. The lookups have their first turns one
after another; those for which the cache has nothing share one fetch. The fetch goes through its requests, among the
turns in which the hover learns of the views that were there at once. When it has ended, the lookups that wait for it
draw their conclusions, and the hover learns of these.
-/

namespace ManifestLens

/-! ### Lookups as tasks -/

namespace Lookup

/-- The lookup has ended with its view. -/
def IsAnswered (view : Lookup) (result : TaskResult Outcome) : Prop :=
  ∃ found, view.Fits found ∧ result = .finished (.ok (Work.replyOf found))

/-- The lookup has ended with its view, or with a failure that is no cancellation. -/
def IsOver (view : Lookup) (result : TaskResult Outcome) : Prop :=
  view.IsAnswered result ∨ ∃ fault, fault ≠ .cancelled ∧ result = .finished (.error fault)

variable {view : Lookup} {name : String} {result : TaskResult Outcome}

theorem isOver_conclusion (h : World.IsFetched result) :
    view.IsOver (.finished (Work.conclusion view name (fun found => .ok (Work.replyOf found)) result)) := by
  rw [Work.conclusion]
  cases hfound : (Work.told name result).bind (Work.derive view name) with
  | error fault =>
      refine .inr ⟨fault, ?_, rfl⟩
      rintro rfl
      exact Work.told_bind_derive_ne_cancelled h hfound
  | ok found =>
      obtain ⟨document, -, hderive⟩ := bind_eq_ok_iff.mp hfound
      exact .inl ⟨found, Work.fits_of_derive hderive, rfl⟩

end Lookup

namespace Work

theorem run_lookup (view : Lookup) (name : String) :
    run (.lookup view name) = inquire view name fun found => .ok (replyOf found) := by
  rw [← lookup_run, run]
  congr 1

end Work

/-- The tasks that look the views of a hover up, from a number on. -/
def hoverLookups (first : Nat) : List (Nat × Lookup) :=
  [(first, .metadata true), (first + 1, .releases true), (first + 2, .info)]

/-- What a hover that waits for its views goes on with. -/
def hoverPaused (first : Nat) :
    Paused World Errand Outcome (Except Fault (PackageOverview × List Release × PackageProfile)) :=
  .gathering ((hoverLookups first).map Prod.fst) fun results => .done (Work.viewsOf results)

/-- The turns that follow the end of a lookup. -/
def turnsAfter (task : Nat) : List Turn := [.ended task, .settle task 0]

def freshLookup (name : String) (view : Lookup) : TaskState World Errand Outcome :=
  { status := .fresh (.lookup view name), errand := some (.lookup view name), watchers := [.gatherer 0] }

def waitingLookup (name : String) (fetch : Nat) (view : Lookup) : TaskState World Errand Outcome :=
  { status := .paused (.joining fetch (Work.conclude view name fun found => .ok (Work.replyOf found)))
    errand := some (.lookup view name)
    watchers := [.gatherer 0] }

/-- The hover waits for its lookups: some are still going on, some have ended and it has not learnt of that yet, and
the others have ended with their views. -/
structure Gathering (first : Nat) (s : ServiceRun) (going : List (Nat × Lookup)) (untold : List Nat) : Prop where
  inside : 0 < first
  outside : ∃ t, s.tasks[0]? = some t ∧ t.group = some (going.length + untold.length, true) ∧ t.failed = none
  pending : ∀ l ∈ going, l ∈ hoverLookups first ∧ s.watchersOf l.1 = [.gatherer 0]
  nodup : (going.map Prod.fst).Nodup
  known : ∀ task ∈ untold, ∃ view : Lookup, (task, view) ∈ hoverLookups first
  ended : ∀ l ∈ hoverLookups first, l ∈ going ∨ (l.1 ∈ untold ∧ l.2.IsOver (s.resultOf l.1)) ∨
    l.2.IsAnswered (s.resultOf l.1)

theorem viewsOf_ne_cancelled {first : Nat} {results : Nat → TaskResult Outcome}
    (h : ∀ l ∈ hoverLookups first, l.2.IsAnswered (results l.1)) :
    Work.viewsOf (.all ((hoverLookups first).map fun l => results l.1)) ≠ .error .cancelled := by
  simp only [hoverLookups, List.mem_cons, List.not_mem_nil, or_false, forall_eq_or_imp, forall_eq] at h
  obtain ⟨⟨overview, hmetadata, hfirst⟩, ⟨history, hreleases, hsecond⟩, profile, hinfo, hthird⟩ := h
  simp only [hoverLookups, List.map_cons, List.map_nil, hfirst, hsecond, hthird]
  cases overview with
  | metadata overview =>
      cases history with
      | releases history =>
          cases profile with
          | info profile => exact nofun
          | _ => exact hinfo.elim
      | _ => exact hreleases.elim
  | _ => exact hmetadata.elim

theorem eq_of_mem_hoverLookups {first : Nat} {l m : Nat × Lookup} (hl : l ∈ hoverLookups first)
    (hm : m ∈ hoverLookups first) (h : m.1 = l.1) : m = l := by
  simp only [hoverLookups, List.mem_cons, List.not_mem_nil, or_false] at hl hm
  rcases hl with rfl | rfl | rfl <;> rcases hm with rfl | rfl | rfl <;> first | rfl | (simp at h)

namespace Gathering

variable {first : Nat} {s s' : ServiceRun} {going : List (Nat × Lookup)} {untold : List Nat}

theorem ne_zero (h : Gathering first s going untold) {l : Nat × Lookup} (hl : l ∈ hoverLookups first) : l.1 ≠ 0 := by
  have := h.inside
  simp only [hoverLookups, List.mem_cons, List.not_mem_nil, or_false] at hl
  rcases hl with rfl | rfl | rfl <;> simp only <;> omega

/-- Only the hover's own record, the results of its lookups and those who are to be told count. -/
theorem congr (h : Gathering first s going untold) (houtside : s'.tasks[0]? = s.tasks[0]?)
    (hresult : ∀ l ∈ hoverLookups first, s'.resultOf l.1 = s.resultOf l.1)
    (hwatchers : ∀ l ∈ hoverLookups first, s'.watchersOf l.1 = s.watchersOf l.1) :
    Gathering first s' going untold := by
  refine ⟨h.inside, houtside.symm ▸ h.outside, fun l hl => ?_, h.nodup, h.known, fun l hl => ?_⟩
  · obtain ⟨hmem, hpending⟩ := h.pending l hl
    exact ⟨hmem, (hwatchers l hmem).trans hpending⟩
  · rw [hresult l hl]
    exact h.ended l hl

theorem of_tasks (h : Gathering first s going untold) (houtside : s'.tasks[0]? = s.tasks[0]?)
    (hlookups : ∀ l ∈ hoverLookups first, s'.tasks[l.1]? = s.tasks[l.1]?) : Gathering first s' going untold :=
  h.congr houtside (fun l hl => Scheduler.resultOf_congr (hlookups l hl)) fun l hl =>
    Scheduler.watchersOf_congr (hlookups l hl)

theorem exists_task (h : Gathering first s going untold) {l : Nat × Lookup} (hl : l ∈ going) :
    ∃ t, s.tasks[l.1]? = some t := by
  cases ht : s.tasks[l.1]? with
  | some t => exact ⟨t, rfl⟩
  | none =>
      have hwatchers := (h.pending l hl).2
      rw [Scheduler.watchersOf, ht] at hwatchers
      cases hwatchers

theorem perm {other : List (Nat × Lookup)} (h : Gathering first s going untold) (hperm : going.Perm other) :
    Gathering first s other untold := by
  refine ⟨h.inside, ?_, fun l hl => h.pending l (hperm.mem_iff.mpr hl), (hperm.map Prod.fst).nodup_iff.mp h.nodup,
    h.known, fun l hl => (h.ended l hl).imp_left hperm.mem_iff.mp⟩
  rw [← hperm.length_eq]
  exact h.outside

theorem ne_size (h : Gathering first s going untold) {l : Nat × Lookup} (hl : l ∈ hoverLookups first) :
    l.1 ≠ s.tasks.size := by
  intro hsize
  have hnone : s.tasks[l.1]? = none := by simp [hsize]
  have hrunning : s.resultOf l.1 = .running := Scheduler.resultOf_of_none _ hnone
  rcases h.ended l hl with hgoing | ⟨-, ⟨found, -, hreply⟩ | ⟨fault, -, hfault⟩⟩ | ⟨found, -, hreply⟩
  · obtain ⟨t, ht⟩ := h.exists_task hgoing
    simp [hnone] at ht
  · simp [hrunning] at hreply
  · simp [hrunning] at hfault
  · simp [hrunning] at hreply

/-- A lookup ends, and the hover has not learnt of it yet. -/
theorem finish {l : Nat × Lookup} {result : TaskResult Outcome} (h : Gathering first s (l :: going) untold)
    (hover : l.2.IsOver result) : Gathering first (s.finish l.1 result) going (untold ++ [l.1]) ∧
      (s.finish l.1 result).ready = s.ready ++ turnsAfter l.1 := by
  obtain ⟨hmem, hwatchers⟩ := h.pending l (List.mem_cons_self ..)
  obtain ⟨t, ht⟩ := h.exists_task (List.mem_cons_self ..)
  rw [Scheduler.finish_eq]
  have hself : (s.modifyTask l.1 fun t => { t with status := .ended result, watchers := [] }).resultOf l.1 = result :=
    Scheduler.resultOf_finish s ht result
  refine ⟨⟨h.inside, ?_, fun m hm => ?_, (List.nodup_cons.mp h.nodup).2, fun task htask => ?_, fun m hm => ?_⟩, ?_⟩
  · obtain ⟨u, hu, hgroup, hfailed⟩ := h.outside
    refine ⟨u, (Scheduler.modifyTask_of_ne (h.ne_zero hmem).symm).trans hu, hgroup.trans ?_, hfailed⟩
    simp only [List.length_cons, List.length_append, List.length_nil, Option.some.injEq, Prod.mk.injEq, and_true]
    omega
  · obtain ⟨hm', hw⟩ := h.pending m (List.mem_cons_of_mem _ hm)
    have hne : m.1 ≠ l.1 := fun heq => (List.nodup_cons.mp h.nodup).1 (heq ▸ List.mem_map_of_mem hm)
    exact ⟨hm', (Scheduler.watchersOf_modifyTask_of_ne hne).trans hw⟩
  · rcases List.mem_append.mp htask with htask | htask
    · exact h.known task htask
    · obtain rfl := List.mem_singleton.mp htask
      exact ⟨l.2, hmem⟩
  · by_cases heq : m.1 = l.1
    · obtain rfl := eq_of_mem_hoverLookups hmem hm heq
      refine .inr (.inl ⟨by simp, ?_⟩)
      exact hself.symm ▸ hover
    · have hresult : (s.modifyTask l.1 fun t => { t with status := .ended result, watchers := [] }).resultOf m.1
          = s.resultOf m.1 := Scheduler.resultOf_modifyTask_of_ne heq
      have hended := h.ended m hm
      rw [← hresult, List.mem_cons] at hended
      rcases hended with (rfl | hgoing) | ⟨huntold, hover⟩ | hanswered
      · exact absurd rfl heq
      · exact .inl hgoing
      · exact .inr (.inl ⟨List.mem_append_left _ huntold, hover⟩)
      · exact .inr (.inr hanswered)
  · change s.ready ++ _ = _
    rw [hwatchers]
    rfl

/-- The hover learns that a lookup has ended with its view, while there are others to wait for. -/
theorem settle {task : Nat} (h : Gathering first s going (task :: untold)) (hmore : going ≠ [] ∨ untold ≠ [])
    {reply : Reply} (hreply : s.resultOf task = .finished (.ok reply)) :
    Gathering first (s.settle Work.program task 0) going untold ∧
      ∃ f, s.settle Work.program task 0 = s.modifyTask 0 f := by
  obtain ⟨t, ht, hgroup, hfailed⟩ := h.outside
  have hsettle : s.settle Work.program task 0
      = s.modifyTask 0 fun t => { t with group := some (going.length + untold.length, true) } := by
    have hleft : ¬ going.length + (untold.length + 1) ≤ 1 := by
      rcases hmore with hmore | hmore
      · have := List.length_pos_iff.mpr hmore
        omega
      · have := List.length_pos_iff.mpr hmore
        omega
    simp only [Scheduler.settle, ht, Option.bind_some, hgroup, hreply, Work.program, List.length_cons,
      Bool.and_false, Bool.false_eq_true, if_false, if_neg hleft]
    rfl
  rw [hsettle]
  refine ⟨⟨h.inside, ?_, fun m hm => ?_, h.nodup, fun other hother => h.known other (List.mem_cons_of_mem _ hother),
    fun m hm => ?_⟩, _, rfl⟩
  · exact ⟨_, Scheduler.modifyTask_self ht, rfl, hfailed⟩
  · obtain ⟨hm', hw⟩ := h.pending m hm
    exact ⟨hm', (Scheduler.watchersOf_modifyTask_of_ne (h.ne_zero hm')).trans hw⟩
  · rw [Scheduler.resultOf_modifyTask_of_ne (h.ne_zero hm)]
    rcases h.ended m hm with hgoing | ⟨huntold, hover⟩ | hanswered
    · exact .inl hgoing
    · rcases List.mem_cons.mp huntold with heq | huntold
      · -- What has ended with a reply has ended with its view.
        refine .inr (.inr (hover.resolve_right ?_))
        rintro ⟨fault, -, hfault⟩
        rw [heq, hreply] at hfault
        cases hfault
      · exact .inr (.inl ⟨huntold, hover⟩)
    · exact .inr (.inr hanswered)

end Gathering

/-- The hover is led to its views or to a failure that is no cancellation. -/
def ServiceRun.LeadsToViews (first : Nat) (s : ServiceRun) : Prop :=
  s.Leads Work.program (hoverPaused first) (· ≠ .error .cancelled)

namespace ServiceRun

variable {first : Nat} {s : ServiceRun} {untold : List Nat}

/-- A turn of those that follow the end of a lookup. -/
theorem LeadsToViews.of_turnsAfter {task : Nat} {ready : List Turn} (hready : s.ready = turnsAfter task ++ ready)
    (h : ∀ world, s.state.Notes world →
      LeadsToViews first (({ s with ready, state := world } : ServiceRun).settle Work.program task 0)) :
    LeadsToViews first s := by
  refine .of_turn hready (by simp) (.of_turn rfl (by simp) ?_)
  exact h _ ⟨[], List.append_nil _⟩

/-- A turn of a task. -/
theorem LeadsToViews.of_run {task : Nat} {ready : List Turn} {s' : ServiceRun} (hready : s.ready = .run task :: ready)
    (htask : task ≠ 0) (hturn : ({ s with ready } : ServiceRun).runTask Work.program task = s')
    (h : LeadsToViews first s') : LeadsToViews first s := by
  subst hturn
  exact .of_turn hready (by simpa using htask) h

theorem resume_of_all {t : TaskState World Errand Outcome} (ht : s.tasks[0]? = some t) (hfailed : t.failed = none) :
    s.resume 0 (hoverPaused first)
      = .done (Work.viewsOf (.all ((hoverLookups first).map fun l => s.resultOf l.1))) := by
  simp only [hoverPaused, Scheduler.resume, ht, Option.bind_some, hfailed, List.map_map]
  rfl

theorem resume_of_failed {t : TaskState World Errand Outcome} {failed : Nat} (ht : s.tasks[0]? = some t)
    (hfailed : t.failed = some failed) :
    s.resume 0 (hoverPaused first) = .done (Work.viewsOf (.failed (s.resultOf failed))) := by
  simp only [hoverPaused, Scheduler.resume, ht, Option.bind_some, hfailed]

theorem leads_of_resume {result : Except Fault (PackageOverview × List Release × PackageProfile)}
    (hready : s.ready = [.run 0])
    (hresume : ({ s with ready := [] } : ServiceRun).resume 0 (hoverPaused first) = .done result)
    (hresult : result ≠ .error .cancelled) : LeadsToViews first s :=
  Scheduler.leads_of_outside hready (by rw [hresume, Scheduler.advance]) hresult

theorem leadsToViews_of_failed {t : TaskState World Errand Outcome} {failed : Nat} {fault : Fault}
    (hready : s.ready = untold.flatMap turnsAfter ++ [.run 0]) (ht : s.tasks[0]? = some t) (hgroup : t.group = none)
    (hfailed : t.failed = some failed) (hresult : s.resultOf failed = .finished (.error fault))
    (hfault : fault ≠ .cancelled) : LeadsToViews first s := by
  induction untold generalizing s with
  | nil =>
      refine leads_of_resume hready (resume_of_failed (s := { s with ready := [] }) ht hfailed) ?_
      rw [show ({ s with ready := [] } : ServiceRun).resultOf failed = .finished (.error fault) from hresult]
      exact fun h => hfault (Except.error.inj h)
  | cons task rest ih =>
      refine .of_turnsAfter (show s.ready = turnsAfter task ++ (rest.flatMap turnsAfter ++ [.run 0]) by
        rw [hready, List.flatMap_cons, List.append_assoc]) fun world _ => ?_
      have hsettle : ({ s with ready := rest.flatMap turnsAfter ++ [.run 0], state := world } : ServiceRun).settle
          Work.program task 0 = { s with ready := rest.flatMap turnsAfter ++ [.run 0], state := world } := by
        simp only [Scheduler.settle, ht, Option.bind_some, hgroup]
      rw [hsettle]
      exact ih rfl ht hresult

theorem leadsToViews_of_settle_failed {task : Nat} {fault : Fault} (h : Gathering first s [] (task :: untold))
    (hready : s.ready = untold.flatMap turnsAfter) (hresult : s.resultOf task = .finished (.error fault))
    (hfault : fault ≠ .cancelled) : LeadsToViews first (s.settle Work.program task 0) := by
  obtain ⟨t, ht, hgroup, -⟩ := h.outside
  have hsettle : s.settle Work.program task 0
      = (s.modifyTask 0 fun t => { t with group := none, failed := some task }).ask (.run 0) := by
    simp only [Scheduler.settle, ht, Option.bind_some, hgroup, hresult, Work.program, Bool.and_self, if_true]
  obtain ⟨view, hview⟩ := h.known task (List.mem_cons_self ..)
  rw [hsettle]
  refine @leadsToViews_of_failed _ _ untold _ _ _ (congrArg (· ++ [Turn.run 0]) hready)
    (Scheduler.modifyTask_self ht) rfl rfl ?_ hfault
  exact (Scheduler.resultOf_modifyTask_of_ne (h.ne_zero hview)).trans hresult

/-- The hover has learnt of the last of its lookups, and all have ended with their views. -/
theorem leadsToViews_of_settle_last {task : Nat} {reply : Reply} (h : Gathering first s [] [task])
    (hready : s.ready = []) (hresult : s.resultOf task = .finished (.ok reply)) :
    LeadsToViews first (s.settle Work.program task 0) := by
  obtain ⟨t, ht, hgroup, hfailed⟩ := h.outside
  have hsettle : s.settle Work.program task 0
      = (s.modifyTask 0 fun t => { t with group := none }).ask (.run 0) := by
    simp only [Scheduler.settle, ht, Option.bind_some, hgroup, hresult, Work.program, List.length_nil,
      List.length_singleton, Bool.and_false, Bool.false_eq_true, if_false, Nat.zero_add, Nat.le_refl, if_true]
  have hanswered : ∀ l ∈ hoverLookups first, l.2.IsAnswered (s.resultOf l.1) := fun l hl => by
    rcases h.ended l hl with hgoing | ⟨huntold, hover⟩ | hanswered
    · cases hgoing
    · rw [List.mem_singleton.mp huntold, hresult] at hover ⊢
      exact hover.resolve_right (by rintro ⟨fault, -, ⟨⟩⟩)
    · exact hanswered
  rw [hsettle]
  refine leads_of_resume (congrArg (· ++ [Turn.run 0]) hready)
    (resume_of_all (Scheduler.modifyTask_self (f := fun t => { t with group := none }) ht) hfailed)
    (viewsOf_ne_cancelled fun l hl => ?_)
  exact (Scheduler.resultOf_modifyTask_of_ne (h.ne_zero hl)).symm ▸ hanswered l hl

/-- **The last news.** When all lookups have ended the hover ends too: with the first failure that it learns of, or
with the views. -/
theorem leadsToViews_of_ended (hready : s.ready = untold.flatMap turnsAfter) (hne : untold ≠ [])
    (h : Gathering first s [] untold) : LeadsToViews first s := by
  induction untold generalizing s with
  | nil => exact absurd rfl hne
  | cons task rest ih =>
      refine .of_turnsAfter hready fun world _ => ?_
      have hrest : Gathering first { s with ready := rest.flatMap turnsAfter, state := world } [] (task :: rest) :=
        h.of_tasks rfl fun _ _ => rfl
      obtain ⟨view, hview⟩ := h.known task (List.mem_cons_self ..)
      have hover : view.IsOver (s.resultOf task) := by
        rcases h.ended _ hview with hgoing | ⟨-, hover⟩ | hanswered
        · cases hgoing
        · exact hover
        · exact .inl hanswered
      rcases hover with ⟨found, -, hreply⟩ | ⟨fault, hfault, hresult⟩
      · cases rest with
        | nil => exact leadsToViews_of_settle_last hrest rfl hreply
        | cons other rest =>
            obtain ⟨hsettled, f, hsettle⟩ := hrest.settle (.inr nofun) hreply
            exact ih ((congrArg Scheduler.ready hsettle).trans rfl) nofun hsettled
      · exact leadsToViews_of_settle_failed hrest rfl hresult hfault

end ServiceRun

end ManifestLens
