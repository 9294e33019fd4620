import ManifestLens.Proofs.Cache.History
import ManifestLens.Proofs.Number.Rounding
import ManifestLens.Proofs.Prefetch.Invariant
import Mathlib

/-!
# A prefetch in the middle of its run

The world around the tasks of a prefetch: what is cached was remembered before or has been made of what a fetch has
brought, the fetches on the list are those that go on, and no more requests are open than visits have a slot. With the
account of the slots and the tasks this is the invariant `Prefetch.Sound`. Every kind of turn keeps it: the turns of
visits, the turns of fetches, and those in which no task does anything.
-/

namespace ManifestLens

/-! ### The world -/

namespace Prefetch

variable (p : Prefetch)

/-- Metadata of a package that was made, for one of the names, of what the requests for one of the names have
brought. -/
def Made (world : World) (name : String) (overview : PackageOverview) : Prop :=
  ∃ spelling asker result, spelling ∈ p.names ∧ asker ∈ p.names ∧
    Work.normalized spelling = Work.normalized name ∧ Work.normalized asker = Work.normalized name ∧
    p.start.Brings world spelling result ∧ Work.overviewFor p.admits asker result = .ok overview

/-- What is cached under the key of the view for a name was there before, or it has been made since. -/
def EntryAt (world : World) (key : String) (value : CachedView) (birth ttl : Number) : Prop :=
  ∀ name, key = Work.cacheKey p.view name → ∃ overview, value = .metadata overview ∧
    ((∃ entry, (key, entry) ∈ p.start.state.service.cache.entries ∧ entry.data = value ∧ entry.createdAt = birth ∧
      entry.ttl = ttl) ∨ p.Made world name overview)

/-- Answers that have come to the requests for a spelling and have left them open. -/
structure AsksOn (world : World) (spelling : String) (answers : List IndexAnswer) : Prop where
  within_attempts : answers.length < p.attempts
  open_until : ∀ answer ∈ answers, ¬ answer.Settles p.start.state.today
  noted : ∀ answer ∈ answers, Work.Noted p.start.state.received.length (p.plan spelling).request world answer

/-- What the requests for a package come to serves everybody who asks for it. -/
def ServesAll (result : Except Fault (List (String × Json))) : Prop :=
  ∀ asker, IsServed (Work.overviewFor p.admits asker result)

/-- What is known of a task at a stage. -/
def StageAt (world : World) : Stage → Prop
  | .asking spelling answers => p.AsksOn world spelling answers
  | .waiting spelling answers answer =>
      p.AsksOn world spelling answers ∧ p.ServesAll ((p.plan spelling).outcome p.start.state.today answer)
  | .fetched spelling result => p.start.Brings world spelling result ∧ p.ServesAll result
  | .left name result => p.start.Obtains p.names p.admits world name result
  | _ => True

variable {p} {world later : World}

theorem EntryAt.mono {key : String} {value : CachedView} {birth ttl : Number} (hnotes : world.Notes later)
    (h : p.EntryAt world key value birth ttl) : p.EntryAt later key value birth ttl := by
  intro name hkey
  obtain ⟨overview, rfl, hbefore | ⟨spelling, asker, result, hspelling, hasker, hname, hasked, hbrings, hmade⟩⟩ :=
    h name hkey
  · exact ⟨overview, rfl, .inl hbefore⟩
  · exact ⟨overview, rfl, .inr ⟨spelling, asker, result, hspelling, hasker, hname, hasked, hbrings.mono hnotes, hmade⟩⟩

theorem AsksOn.mono {spelling : String} {answers : List IndexAnswer} (h : p.AsksOn world spelling answers)
    (hnotes : world.Notes later) : p.AsksOn later spelling answers :=
  ⟨h.within_attempts, h.open_until, fun answer hmem => (h.noted answer hmem).mono hnotes⟩

theorem StageAt.mono {stage : Stage} (h : p.StageAt world stage) (hnotes : world.Notes later) :
    p.StageAt later stage := by
  cases stage with
  | asking spelling answers => exact AsksOn.mono h hnotes
  | waiting spelling answers answer => exact ⟨h.1.mono hnotes, h.2⟩
  | fetched spelling result => exact ⟨h.1.mono hnotes, h.2⟩
  | left name result => exact ServiceRun.Obtains.mono h hnotes
  | _ => trivial

end Prefetch

/-- A fetch is for the package of a key. -/
def IsFetchOf (stage : Nat → Stage) (key : String) (fetch : Nat) : Prop :=
  ∃ spelling, (stage fetch).spelling? = some spelling ∧ Work.normalized spelling = key

/-- The world of a prefetch: the settings are those it began with, the answers to come are what requests for its
names have left of those to come then, and never have more requests been open than there are slots. -/
structure Surroundings (p : Prefetch) (stage : Nat → Stage) (world : World) : Prop where
  plan : ∀ path, world.service.client.plan path = p.start.state.service.client.plan path
  includePre : world.service.includePre = p.start.state.service.includePre
  today : world.today = p.start.state.today
  script : ∃ urls ⊆ p.names.map fun name => (p.plan name).url,
    world.script = p.start.state.script.afterAll urls
  notes : p.start.state.Notes world
  listed : ∀ key fetch, (key, fetch) ∈ world.service.inFlight → IsFetchOf stage key fetch
  opened : world.openRequests.Nodup
  open_iff : ∀ id, id ∈ world.openRequests ↔ (stage id).isOpen = true
  peak : world.peak ≤ max p.start.state.peak p.capacity
  cache : world.service.cache.Every (p.EntryAt world)
  stages : ∀ id, p.StageAt world (stage id)

/-- A change of the world that is about neither the settings nor the index. -/
structure World.Alike (before after : World) : Prop where
  client : after.service.client = before.service.client
  includePre : after.service.includePre = before.service.includePre
  today : after.today = before.today
  script : after.script = before.script
  received : after.received = before.received
  openRequests : after.openRequests = before.openRequests
  peak : after.peak = before.peak

theorem World.alike_cached (world : World) (now : Binary64) (key : String) : world.Alike (world.cached now key).2 := by
  simp only [cached]
  split <;> exact ⟨rfl, rfl, rfl, rfl, rfl, rfl, rfl⟩

theorem World.alike_noted (world : World) (name : String) (result : Except IndexError PackageOverview) :
    world.Alike (Work.noted name world result) ∧ (Work.noted name world result).service = world.service := by
  cases result <;> exact ⟨⟨rfl, rfl, rfl, rfl, rfl, rfl, rfl⟩, rfl⟩

theorem World.send_eq (world : World) (task : Nat) (request : SentRequest) : world.send task request =
    ((world.script.next request.url).1,
      { world with
        script := (world.script.next request.url).2
        openRequests := task :: world.openRequests
        service := { world.service with client := { world.service.client with isOpen := true } }
        sent := world.sent ++ [request]
        peak := max world.peak (task :: world.openRequests).length
        isCancelled := world.isCancelled || world.cancelsOnSend }) := rfl

theorem RequestPlan.url_request (plan : RequestPlan) : plan.request.url = plan.url := rfl

/-- Not more fetches go on than there are slots, since whoever waits for one is seated. -/
theorem length_going_le {p : Prefetch} {stage : Nat → Stage} {size capacity : Nat} {seated going : List Nat}
    {slots : Slots} (hroster : Roster p stage size) (hseats : Seats capacity stage seated slots) (hnodup : going.Nodup)
    (hgoing : ∀ fetch ∈ going, (∃ spelling, (stage fetch).spelling? = some spelling) ∧
      (stage fetch).hasEnded = false) : going.length ≤ capacity := by
  have hsub : going ⊆ seated.filterMap fun id => (stage id).awaited? := by
    intro fetch hfetch
    obtain ⟨⟨spelling, hspelling⟩, hunended⟩ := hgoing fetch hfetch
    obtain ⟨id, name, hid⟩ := hroster.attended fetch spelling hspelling hunended
    exact List.mem_filterMap.mpr ⟨id, (hseats.sits_iff id).mpr (by rw [hid]; rfl), by rw [hid]; rfl⟩
  calc going.length ≤ (seated.filterMap fun id => (stage id).awaited?).length :=
        (List.subperm_of_subset hnodup hsub).length_le
    _ ≤ seated.length := List.length_filterMap_le _ _
    _ ≤ capacity := by
      have := hseats.account.total
      omega

namespace Surroundings

variable {p : Prefetch} {stage after : Nat → Stage} {world later : World} {id fetch : Nat} {name spelling : String}

/-- Tasks are at other stages. -/
theorem restage (h : Surroundings p stage world)
    (hspelling : ∀ id spelling, (stage id).spelling? = some spelling → (after id).spelling? = some spelling)
    (hopen : ∀ id, (after id).isOpen = (stage id).isOpen) (hstages : ∀ id, p.StageAt world (after id)) :
    Surroundings p after world := by
  refine ⟨h.plan, h.includePre, h.today, h.script, h.notes, fun key fetch hlisted => ?_, h.opened, fun id => ?_, h.peak,
    h.cache, hstages⟩
  · obtain ⟨spelling, hfetch, hkey⟩ := h.listed key fetch hlisted
    exact ⟨spelling, hspelling fetch spelling hfetch, hkey⟩
  · rw [h.open_iff, hopen]

/-- A visit starts a fetch. -/
theorem founds (h : Surroundings p stage world) (hfounds : Founds stage id fetch name after) :
    Surroundings p after world := by
  refine h.restage (fun other _ hspelling => (hfounds.spelling_iff other).mpr (.inr hspelling)) (fun other => ?_)
    fun other => ?_
  · rcases hfounds.trichotomy other with ⟨-, hstage, hafter⟩ | ⟨-, hstage, hafter⟩ | ⟨-, -, hafter⟩
    · rw [hstage, hafter]
      rfl
    · rw [hstage, hafter]
      rfl
    · rw [hafter]
  · rcases hfounds.trichotomy other with ⟨-, -, hafter⟩ | ⟨-, -, hafter⟩ | ⟨-, -, hafter⟩
    · rw [hafter]
      trivial
    · rw [hafter]
      trivial
    · rw [hafter]
      exact h.stages other

/-- A task goes on. -/
theorem goesOn (h : Surroundings p stage world) {next : Stage} (hgoes : GoesOn stage id next)
    (hopen : next.isOpen = (stage id).isOpen) (hnext : p.StageAt world next) :
    Surroundings p (Function.update stage id next) world := by
  refine h.restage (fun other spelling hspelling => by rwa [hgoes.spelling_eq]) (fun other => ?_) fun other => ?_
  · by_cases heq : other = id
    · subst heq
      rw [Function.update_self, hopen]
    · rw [Function.update_of_ne heq]
  · by_cases heq : other = id
    · subst heq
      rwa [Function.update_self]
    · rw [Function.update_of_ne heq]
      exact h.stages other

/-- A change that is about neither the settings nor the index. -/
theorem alike (h : Surroundings p stage world) (halike : world.Alike later)
    (hlisted : ∀ key fetch, (key, fetch) ∈ later.service.inFlight → IsFetchOf stage key fetch)
    (hcache : later.service.cache.Every (p.EntryAt world)) : Surroundings p stage later := by
  have hnotes : world.Notes later := .of_eq halike.received
  exact ⟨fun path => by rw [halike.client, h.plan], halike.includePre.trans h.includePre, halike.today.trans h.today,
    halike.script ▸ h.script, h.notes.trans hnotes, hlisted, halike.openRequests ▸ h.opened,
    halike.openRequests ▸ h.open_iff, halike.peak ▸ h.peak,
    hcache.mono fun _ _ _ _ => Prefetch.EntryAt.mono hnotes, fun id => (h.stages id).mono hnotes⟩

theorem alike_of_service (h : Surroundings p stage world) (halike : world.Alike later)
    (hservice : later.service = world.service) : Surroundings p stage later :=
  h.alike halike (hservice ▸ h.listed) (hservice ▸ h.cache)

/-- A change of slots is none of the index. -/
theorem withSlots (h : Surroundings p stage world) (index : Nat) (slots : Slots) :
    Surroundings p stage (world.withSlots index slots) :=
  h.alike_of_service ⟨rfl, rfl, rfl, rfl, rfl, rfl, rfl⟩ rfl

/-- Somebody looks for a view. -/
theorem looked (h : Surroundings p stage world) (now : Binary64) (key : String) :
    Surroundings p stage (world.cached now key).2 := by
  refine h.alike (world.alike_cached now key) ?_ ?_
  · rw [World.cached_service]
    exact h.listed
  · rw [World.cached_service]
    exact h.cache.get _ _

theorem obtains_hit (h : Surroundings p stage world) {now : Binary64}
    (hnow : now = p.start.now ∨ p.start.now.lt now = true) {found : CachedView}
    (hfound : (world.cached now (Work.cacheKey p.view name)).1 = some found) :
    ∃ overview, found = .metadata overview ∧ p.start.Obtains p.names p.admits world name (.ok overview) := by
  rw [World.cached_fst] at hfound
  obtain ⟨entry, hentry, hvalid, rfl⟩ := Cache.get_eq_some_iff.mp hfound
  obtain ⟨overview, hdata, ⟨before, hbefore, hsame, hbirth, httl⟩ |
    ⟨spelling, asker, result, hspelling, hasker, hname, hasked, hbrings, hmade⟩⟩ :=
      h.cache _ _ (Cache.mem_entries_of_entry hentry) name rfl
  · refine ⟨overview, hdata, .remembered hbefore hnow ?_ (hsame.trans hdata)⟩
    rw [CacheEntry.isValid, hbirth, httl]
    exact decide_eq_true hvalid
  · exact ⟨overview, hdata, .fetched hspelling hasker hname hasked hbrings hmade⟩

/-- What a name obtains from a fetch that has ended, which is cached if it is metadata. -/
theorem concludes (h : Surroundings p stage world) {result : Except Fault (List (String × Json))}
    (hfetch : stage fetch = .fetched spelling result) (hspelling : spelling ∈ p.names) (hname : name ∈ p.names)
    (hpackage : Work.normalized spelling = Work.normalized name) (now : Binary64) :
    ∃ served, ((Work.told name (.finished (result.map .document))).bind (Work.derive p.view name)).bind
        Work.overviewIn = served.mapError .index ∧ p.start.Obtains p.names p.admits world name served ∧
      Surroundings p stage (Work.kept p.view name (.finished (result.map .document)) now world) := by
  have hstage := h.stages fetch
  rw [hfetch] at hstage
  obtain ⟨hbrings, hserves⟩ := hstage
  obtain ⟨served, hserved⟩ := hserves name
  have hobtains : p.start.Obtains p.names p.admits world name served := by
    cases served with
    | ok overview => exact .fetched hspelling hname hpackage rfl hbrings hserved
    | error error => exact .failed hspelling hpackage hbrings hserved (hbrings.package hserved)
  refine ⟨served, by rw [Work.told_finished]; exact hserved, hobtains, ?_⟩
  unfold Work.kept
  rw [Work.told_finished]
  cases hfound : (result.mapError (·.forPackage name)).bind (Work.derive p.view name) with
  | error fault => exact h
  | ok found =>
      obtain ⟨document, -, hderive⟩ := Work.exists_of_mapError_bind hfound
      obtain ⟨overview, -, rfl⟩ := map_eq_ok_iff.mp hderive
      have hoverview : Work.overviewFor p.admits name result = .ok overview :=
        (congrArg (Except.bind · Work.overviewIn) hfound).trans rfl
      refine h.alike ⟨rfl, rfl, rfl, rfl, rfl, rfl, rfl⟩ h.listed ?_
      rw [World.store_service]
      refine h.cache.set fun other hkey => ⟨overview, rfl, .inr ⟨spelling, name, result, hspelling, hname, ?_, ?_,
        hbrings, hoverview⟩⟩
      · exact hpackage.trans (Work.cacheKey_inj hkey).2
      · exact (Work.cacheKey_inj hkey).2

/-- A fetch is listed. -/
theorem enlist (h : Surroundings p stage world) (hspelling : (stage fetch).spelling? = some name) :
    Surroundings p stage (Work.enlist (Work.normalized name) fetch world) := by
  refine h.alike ⟨rfl, rfl, rfl, rfl, rfl, rfl, rfl⟩ (fun key other hlisted => ?_) h.cache
  rcases List.mem_append.mp hlisted with hbefore | hnew
  · exact h.listed key other hbefore
  · obtain ⟨rfl, rfl⟩ : key = _ ∧ other = fetch := by simpa using hnew
    exact ⟨name, hspelling, rfl⟩

/-- A fetch is listed no longer. -/
theorem forgets (h : Surroundings p stage world) (id : Nat) : Surroundings p stage (Work.program.onEnd id world) :=
  h.alike ⟨rfl, rfl, rfl, rfl, rfl, rfl, rfl⟩
    (fun key fetch hlisted => h.listed key fetch (List.mem_filter.mp hlisted).1) h.cache

/-- A fetch sends a request. -/
theorem sends {size : Nat} {seated : List Nat} {slots : Slots} (h : Surroundings p stage world)
    (hroster : Roster p stage size) (hseats : Seats p.capacity stage seated slots) {answers : List IndexAnswer}
    (hasking : stage fetch = .asking spelling answers) :
    Surroundings p (Function.update stage fetch
      (.waiting spelling answers (world.send fetch (p.plan spelling).request).1.answer))
      (world.send fetch (p.plan spelling).request).2 := by
  rw [World.send_eq, RequestPlan.url_request]
  have hspelling : (stage fetch).spelling? = some spelling := by rw [hasking]; rfl
  obtain ⟨visit, hvisit, -⟩ := hroster.named fetch spelling hspelling
  obtain ⟨urls, hurls, hscript⟩ := h.script
  have hmem : (p.plan spelling).url ∈ p.names.map fun name => (p.plan name).url := List.mem_map_of_mem hvisit.mem
  have hclosed : fetch ∉ world.openRequests := by
    rw [h.open_iff, hasking]
    exact Bool.false_ne_true
  have hasks : p.AsksOn world spelling answers := by
    have hstage := h.stages fetch
    rwa [hasking] at hstage
  have hgoes : GoesOn stage fetch
      (.waiting spelling answers (world.script.next (p.plan spelling).url).1.answer) := by
    constructor <;> rw [hasking] <;> simp [Stage.visitor?, Stage.spelling?, Stage.hasAsked, Stage.hasEnded]
  have hlength : (fetch :: world.openRequests).length ≤ p.capacity := by
    refine length_going_le hroster hseats (List.nodup_cons.mpr ⟨hclosed, h.opened⟩) fun other hother => ?_
    rcases List.mem_cons.mp hother with rfl | hopen
    · exact ⟨⟨spelling, hspelling⟩, by rw [hasking]; rfl⟩
    · have hwaiting := (h.open_iff other).mp hopen
      cases hother : stage other <;> rw [hother] at hwaiting <;>
        simp_all [Stage.isOpen, Stage.spelling?, Stage.hasEnded]
  refine ⟨h.plan, h.includePre, h.today, ⟨urls ++ [(p.plan spelling).url], ?_, ?_⟩, h.notes,
    fun key other hlisted => ?_,
    List.nodup_cons.mpr ⟨hclosed, h.opened⟩, fun other => ?_, ?_,
    h.cache.mono fun _ _ _ _ => Prefetch.EntryAt.mono (.refl _), fun other => ?_⟩
  · exact List.append_subset.mpr ⟨hurls, by simpa using hmem⟩
  · rw [hscript, AnswerScript.afterAll, AnswerScript.afterAll, List.foldl_append, List.foldl_cons, List.foldl_nil]
  · obtain ⟨found, hfound, hkey⟩ := h.listed key other hlisted
    exact ⟨found, (hgoes.spelling_eq other).trans hfound, hkey⟩
  · by_cases heq : other = fetch
    · subst heq
      rw [Function.update_self]
      exact iff_of_true List.mem_cons_self rfl
    · rw [Function.update_of_ne heq, ← h.open_iff]
      exact List.mem_cons.trans (or_iff_right heq)
  · exact max_le h.peak (hlength.trans (le_max_right _ _))
  · by_cases heq : other = fetch
    · subst heq
      rw [Function.update_self]
      refine ⟨hasks.mono (.refl _), fun asker => ?_⟩
      rw [hscript]
      exact p.serves.isServed p.resting hvisit.mem hurls asker
    · rw [Function.update_of_ne heq]
      exact (h.stages other).mono (.refl _)

/-- The answer to the request of a fetch is noted. -/
theorem receives (h : Surroundings p stage world) {answers : List IndexAnswer} {answer : IndexAnswer} {next : Stage}
    (hwaiting : stage fetch = .waiting spelling answers answer) (hspelling : next.spelling? = some spelling)
    (hclosed : next.isOpen = false) (now : Binary64)
    (hnext : p.StageAt (world.receive ⟨now, fetch⟩ (p.plan spelling).request answer) next) :
    Surroundings p (Function.update stage fetch next)
      (world.receive ⟨now, fetch⟩ (p.plan spelling).request answer) := by
  have hnotes : world.Notes (world.receive ⟨now, fetch⟩ (p.plan spelling).request answer) := List.prefix_append _ _
  refine ⟨h.plan, h.includePre, h.today, h.script, h.notes.trans hnotes, fun key other hlisted => ?_, h.opened.erase _,
    fun other => ?_, h.peak, h.cache.mono fun _ _ _ _ => Prefetch.EntryAt.mono hnotes, fun other => ?_⟩
  · obtain ⟨found, hfound, hkey⟩ := h.listed key other hlisted
    refine ⟨found, ?_, hkey⟩
    by_cases heq : other = fetch
    · subst heq
      rw [hwaiting] at hfound
      rw [Function.update_self, hspelling]
      exact hfound
    · rwa [Function.update_of_ne heq]
  · change other ∈ world.openRequests.erase fetch ↔ _
    rw [h.opened.mem_erase_iff, h.open_iff]
    by_cases heq : other = fetch
    · subst heq
      simp [hclosed]
    · rw [Function.update_of_ne heq]
      simp [heq]
  · by_cases heq : other = fetch
    · subst heq
      rwa [Function.update_self]
    · rw [Function.update_of_ne heq]
      exact (h.stages other).mono hnotes

end Surroundings

/-! ### The invariant -/

/-- Who is at which stage, who sits, how the slots are given away, and whose end has not been taken notice of. -/
structure Account where
  stage : Nat → Stage
  seated : List Nat
  slots : Slots
  unsettled : List Nat

/-- The account when a task has gone on to another stage. -/
def Account.move (g : Account) (id : Nat) (next : Stage) : Account :=
  { g with stage := Function.update g.stage id next }

@[simp] theorem Account.stage_move (g : Account) (id : Nat) (next : Stage) :
    (g.move id next).stage = Function.update g.stage id next := rfl

/-- **The invariant** of a prefetch under an account of its tasks. While a task has its turn, it is left open how far
it is. -/
structure Prefetch.Sound (p : Prefetch) (g : Account) (running : Option Nat) (s : ServiceRun) : Prop where
  roster : Roster p g.stage s.tasks.size
  tasks : Tasks p g.stage running s.tasks
  turns : Turns g.stage g.slots running s.ready s.watchersOf s.timers.timers
  gathers : Gathers g.stage g.unsettled s.ready s.tasks[0]?
  seats : Seats p.capacity g.stage g.seated g.slots
  world : Surroundings p g.stage s.state
  slots : s.state.slots[p.index]? = some g.slots
  now : s.now = p.start.now ∨ p.start.now.lt s.now = true
  live : ∀ timer ∈ s.timers.timers, timer.serial ∉ s.cancelledTimers
  serials : ∀ serial ∈ s.cancelledTimers, serial < s.timerCount

namespace Scheduler

variable {σ δ ρ : Type} {s : Scheduler σ δ ρ} {task : Nat}

theorem rouse_eq (s : Scheduler σ δ ρ) (task? : Option Nat) :
    s.rouse task? = { s with ready := s.ready ++ (task?.map Turn.run).toList } := by
  cases task? with
  | none => simp [rouse]
  | some task => rfl

theorem size_modifyTask {f : TaskState σ δ ρ → TaskState σ δ ρ} : (s.modifyTask task f).tasks.size = s.tasks.size := by
  simp [modifyTask]

theorem watchersOf_pausing {paused : Paused σ δ ρ ρ} : (s.pausing task paused).watchersOf = s.watchersOf := by
  funext other
  rw [pausing, watchersOf_modifyTask]
  exact fun _ => rfl

theorem watchersOf_finish_of_ne {result : TaskResult ρ} {other : Nat} (h : other ≠ task) :
    (s.finish task result).watchersOf other = s.watchersOf other := by
  rw [finish_eq]
  exact watchersOf_modifyTask_of_ne h

theorem size_finish {result : TaskResult ρ} : (s.finish task result).tasks.size = s.tasks.size := by
  rw [finish_eq]
  exact size_modifyTask

theorem finish_of_ne {result : TaskResult ρ} {other : Nat} (h : other ≠ task) :
    (s.finish task result).tasks[other]? = s.tasks[other]? := by
  rw [finish_eq]
  exact modifyTask_of_ne h

end Scheduler

namespace Prefetch.Sound

variable {p : Prefetch} {g : Account} {running : Option Nat} {s : ServiceRun} {id fetch : Nat} {next : Stage}
  {name spelling : String} {rest : List Turn}

theorem ne_zero (h : p.Sound g running s) (hinside : g.stage id ≠ .outside) : id ≠ 0 := h.roster.ne_zero hinside

theorem exists_task (h : p.Sound g running s) (hinside : g.stage id ≠ .outside) :
    ∃ t, s.tasks[id]? = some t ∧ TaskAt p g.stage running id t := by
  have hid := h.roster.bounds hinside
  exact ⟨_, Array.getElem?_eq_getElem hid.2, h.tasks id _ hid.1 (Array.getElem?_eq_getElem hid.2)⟩

/-- A change of the world that leaves the slots as they are. -/
theorem withState (h : p.Sound g running s) {world : World} (hworld : Surroundings p g.stage world)
    (hslots : world.slots = s.state.slots) : p.Sound g running { s with state := world } :=
  ⟨h.roster, h.tasks, h.turns, h.gathers, h.seats, hworld, hslots ▸ h.slots, h.now, h.live, h.serials⟩

/-- Time passes. -/
theorem withNow (h : p.Sound g running s) {now : Binary64} (hnow : now = s.now ∨ s.now.lt now = true) :
    p.Sound g running { s with now } := by
  refine ⟨h.roster, h.tasks, h.turns, h.gathers, h.seats, h.world, h.slots, ?_, h.live, h.serials⟩
  rcases hnow with rfl | hlater
  · exact h.now
  · rcases h.now with hsame | hafter
    · exact .inr (hsame ▸ hlater)
    · exact .inr (Binary64.lt_trans hafter hlater)

/-- **A task has its turn.** -/
theorem begins (h : p.Sound g none s) (hready : s.ready = .run id :: rest) (hid : id ≠ 0) :
    p.Sound g (some id) { s with ready := rest } ∧ MayHaveTurn g.stage (g.stage id) := by
  have hturns := h.turns
  have hgathers := h.gathers
  rw [hready] at hturns hgathers
  refine ⟨⟨h.roster, h.tasks.begins id, hturns.begins, hgathers.tail (by simpa using hid) nofun, h.seats, h.world,
    h.slots, h.now, h.live, h.serials⟩, ?_⟩
  exact (hturns.turn _ List.mem_cons_self).resolve_left hid

/-- A turn in which nothing happens to the tasks. -/
theorem passes (h : p.Sound g none s) (hready : s.ready = .run id :: rest) (hid : id ≠ 0)
    (hended : (g.stage id).hasEnded = true) : p.Sound g none { s with ready := rest } := by
  obtain ⟨hbegun, -⟩ := h.begins hready hid
  refine ⟨h.roster, h.tasks, hbegun.turns.rests ?_ ?_ ?_ ?_, hbegun.gathers, h.seats, h.world, h.slots, h.now, h.live,
    h.serials⟩
  · intro name hfresh
    rw [hfresh] at hended
    cases hended
  · intro name hqueued
    rw [hqueued] at hended
    cases hended
  · intro name fetch hjoining
    rw [hjoining] at hended
    cases hended
  · intro spelling _ hgoing
    rw [hended] at hgoing
    cases hgoing

/-- The turn of a task is over, which waits. -/
theorem pausing (h : p.Sound g (some id) s) {paused : Paused World Errand Outcome Outcome}
    (hstatus : p.statusOf (g.stage id) = some (.paused paused))
    (hqueued : ∀ name, g.stage id = .queued name → (id, true) ∉ g.slots.waiting)
    (hroused : ∀ name fetch, g.stage id = .joining name fetch →
      .waiter id ∈ s.watchersOf fetch ∨ .tell id ∈ s.ready ∨ .run id ∈ s.ready)
    (hbusy : ∀ spelling, (g.stage id).spelling? = some spelling → (g.stage id).hasEnded = false →
      .run id ∈ s.ready ∨ ∃ timer ∈ s.timers.timers, timer.task = id) :
    p.Sound g none (s.pausing id paused) := by
  have hstage : g.stage id ≠ .outside := by
    intro houtside
    rw [houtside] at hstatus
    cases hstatus
  refine ⟨?_, h.tasks.pausing hstatus, ?_, ?_, h.seats, h.world, h.slots, h.now, h.live, h.serials⟩
  · rw [Scheduler.pausing, Scheduler.size_modifyTask]
    exact h.roster
  · rw [Scheduler.watchersOf_pausing]
    refine h.turns.rests ?_ hqueued hroused hbusy
    intro name hfresh
    rw [hfresh] at hstatus
    cases hstatus
  · rw [Scheduler.pausing, Scheduler.modifyTask_of_ne (h.ne_zero hstage).symm]
    exact h.gathers

/-! ### Turns of a visit -/

theorem withSlots_self (h : p.Sound g running s) (slots : Slots) :
    (s.withSlots p.index slots).state.slots[p.index]? = some slots :=
  List.getElem?_set_self (List.getElem?_eq_some_iff.mp h.slots).1

theorem not_run_of_fresh (h : p.Sound g (some id) s) (hfresh : g.stage id = .fresh name) : .run id ∉ s.ready := by
  rw [← List.count_eq_zero, h.turns.fresh id name hfresh, if_pos rfl]

theorem not_run_of_queued (h : p.Sound g (some id) s) (hqueued : g.stage id = .queued name) : .run id ∉ s.ready := by
  rw [← List.count_eq_zero, h.turns.queued id name hqueued, if_neg (by simp)]

/-- A visit finds a free slot. -/
theorem takes (h : p.Sound g (some id) s) (hfresh : g.stage id = .fresh name) (hfree : (g.slots.take id).1 = true) :
    p.Sound { g with
        stage := Function.update g.stage id (.seated name)
        seated := id :: g.seated
        slots := (g.slots.take id).2 } (some id) (s.withSlots p.index (g.slots.take id).2) := by
  have hgoes : GoesOn g.stage id (.seated name) := goesOn_of_eq hfresh rfl rfl nofun nofun nofun
  have hrun := h.not_run_of_fresh hfresh
  obtain ⟨-, hwaiting⟩ := h.seats.account.take_free hfree
  refine ⟨h.roster.goesOn hgoes nofun, h.tasks.goesOn hgoes ?_, ?_, h.gathers.goesOn hgoes ?_,
    h.seats.takes hfresh hfree,
    (h.world.goesOn hgoes ?_ trivial).withSlots _ _, h.withSlots_self _, h.now, h.live, h.serials⟩
  · rw [hfresh]
    exact nofun
  · refine (h.turns.goesOn hgoes (fun hmem => absurd hmem hrun) (fun hmem => ?_) nofun).reslot fun other => ?_
    · have htold := h.turns.turn _ hmem
      rw [TurnAt, hfresh] at htold
      exact htold.elim
    · rw [hwaiting]
  · rw [hfresh]
    exact fun _ _ => rfl
  · rw [hfresh]
    rfl

/-- A visit finds no free slot and waits for one. -/
theorem queues (h : p.Sound g (some id) s) (hfresh : g.stage id = .fresh name) (hfull : (g.slots.take id).1 = false) :
    p.Sound { g with
        stage := Function.update g.stage id (.queued name)
        slots := (g.slots.take id).2 } none
      (Scheduler.pausing (s.withSlots p.index (g.slots.take id).2) id
        (.plain (Work.woken name p.includePre p.index))) := by
  have hgoes : GoesOn g.stage id (.queued name) := goesOn_of_eq hfresh rfl rfl nofun nofun nofun
  have hrun := h.not_run_of_fresh hfresh
  obtain ⟨hseats, hwaiting⟩ := h.seats.queues hfresh hfull
  have hself : Function.update g.stage id (.queued name) id = .queued name := Function.update_self ..
  have hqueued : p.Sound { g with
      stage := Function.update g.stage id (.queued name)
      slots := (g.slots.take id).2 } (some id) (s.withSlots p.index (g.slots.take id).2) := by
    refine ⟨h.roster.goesOn hgoes nofun, h.tasks.goesOn hgoes ?_, ?_, h.gathers.goesOn hgoes ?_, hseats,
      (h.world.goesOn hgoes ?_ trivial).withSlots _ _, h.withSlots_self _, h.now, h.live, h.serials⟩
    · rw [hfresh]
      exact nofun
    · refine (h.turns.goesOn hgoes (fun hmem => absurd hmem hrun) (fun hmem => ?_) fun _ => hrun).reslot fun other => ?_
      · have htold := h.turns.turn _ hmem
        rw [TurnAt, hfresh] at htold
        exact htold.elim
      · rw [hwaiting]
        simp
    · rw [hfresh]
      exact fun _ _ => rfl
    · rw [hfresh]
      rfl
  refine hqueued.pausing (by simp only [hself]; rfl) (fun _ _ hwoken => ?_) (fun _ _ hjoining => ?_)
    fun _ hspelling => ?_
  · rw [hwaiting] at hwoken
    rcases List.mem_append.mp hwoken with hbefore | hnew
    · obtain ⟨other, hother⟩ := (h.seats.queued_iff id).mp ⟨true, hbefore⟩
      rw [hfresh] at hother
      cases hother
    · simp at hnew
  · simp only [hself] at hjoining
    cases hjoining
  · simp only [hself] at hspelling
    cases hspelling

/-- A visit that has been given a slot takes it. -/
theorem awakes (h : p.Sound g (some id) s) (hqueued : g.stage id = .queued name)
    (hwoken : (id, true) ∈ g.slots.waiting) :
    p.Sound { g with
        stage := Function.update g.stage id (.seated name)
        seated := id :: g.seated
        slots := (g.slots.leave id).2 } (some id)
      (Scheduler.rouse (s.withSlots p.index (g.slots.leave id).2) (g.slots.leave id).1) := by
  have hgoes : GoesOn g.stage id (.seated name) := goesOn_of_eq hqueued rfl rfl nofun nofun nofun
  have hrun := h.not_run_of_queued hqueued
  rw [Scheduler.rouse_eq]
  refine ⟨h.roster.goesOn hgoes nofun, h.tasks.goesOn hgoes ?_, ?_, ?_, h.seats.leaves hqueued hwoken,
    (h.world.goesOn hgoes ?_ trivial).withSlots _ _, h.withSlots_self _, h.now, h.live, h.serials⟩
  · rw [hqueued]
    exact nofun
  · refine (h.turns.goesOn hgoes (fun hmem => absurd hmem hrun) (fun hmem => ?_) nofun).wakes ?_ ?_
    · have htold := h.turns.turn _ hmem
      rw [TurnAt, hqueued] at htold
      exact htold.elim
    · intro other found hother hnot
      have hne : other ≠ id := by
        rintro rfl
        rw [Function.update_self] at hother
        cases hother
      rw [Slots.mem_leave, if_neg hnot, and_iff_right hne]
    · intro task htask
      obtain ⟨hne, hasleep⟩ := Slots.mem_of_leave htask
      refine ⟨by rw [Slots.mem_leave, if_pos htask], h.seats.account.not_mem hasleep,
        fun heq => hne (Option.some.inj heq).symm, ?_⟩
      rw [Function.update_of_ne hne]
      exact (h.seats.queued_iff task).mp ⟨false, hasleep⟩
  · refine (h.gathers.goesOn hgoes ?_).append (fun hmem => ?_) fun child hmem => ?_
    · rw [hqueued]
      exact fun _ _ => rfl
    · obtain ⟨task, htask, hzero⟩ : ∃ task, (g.slots.leave id).1 = some task ∧ Turn.run task = .run 0 := by
        simpa using hmem
      obtain ⟨other, hother⟩ := (h.seats.queued_iff task).mp ⟨false, (Slots.mem_of_leave htask).2⟩
      exact h.ne_zero (by simp [hother]) (Turn.run.inj hzero)
    · simp at hmem
  · rw [hqueued]
    rfl

/-- The task that has its turn goes on to another stage, without taking a slot or giving one back. -/
theorem goesOn (h : p.Sound g (some id) s) (hgoes : GoesOn g.stage id next) (hinside : g.stage id ≠ .outside)
    (hself : ∀ name fetch, g.stage id = .joining name fetch → fetch ≠ id)
    (hjoins : ∀ name fetch, next = .joining name fetch → ∃ spelling, (g.stage fetch).spelling? = some spelling ∧
      Work.normalized spelling = Work.normalized name)
    (hrun : MayHaveTurn g.stage (g.stage id) → MayHaveTurn (Function.update g.stage id next) next)
    (htell : ¬ MayBeTold g.stage (g.stage id)) (hsits : next.sits = (g.stage id).sits)
    (hbefore : (g.stage id).isWaiting = false) (hnext : next.isWaiting = false)
    (hgoing : ∀ name, next.visitor? = some name → next.hasEnded = (g.stage id).hasEnded) {world : World}
    (hworld : Surroundings p (Function.update g.stage id next) world) (hslots : world.slots = s.state.slots) :
    p.Sound (g.move id next) (some id) { s with state := world } := by
  have hqueue {stage : Stage} (hstage : stage.isWaiting = false) (name : String) : stage ≠ .queued name := by
    rintro rfl
    cases hstage
  refine ⟨h.roster.goesOn hgoes hjoins, h.tasks.goesOn hgoes hself,
    h.turns.goesOn hgoes (fun hmem => hrun ((h.turns.turn _ hmem).resolve_left (h.ne_zero hinside)))
      (fun hmem => absurd (h.turns.turn _ hmem) htell) (fun hwaiting => by rw [hnext] at hwaiting; cases hwaiting),
    h.gathers.goesOn hgoes hgoing, h.seats.goesOn hsits (hqueue hnext) (hqueue hbefore), hworld, hslots ▸ h.slots,
    h.now, h.live, h.serials⟩

/-- A visit waits for a fetch from now on. -/
theorem joins (h : p.Sound g (some id) s) (hjoining : g.stage id = .joining name fetch)
    (hgoing : (g.stage fetch).hasEnded = false) :
    p.Sound g none (joining s id fetch (Work.attend p.view name p.index)) := by
  obtain ⟨spelling, hspelling, -⟩ := h.roster.attends id name fetch hjoining
  have hinside := Stage.inside_of_spelling hspelling
  obtain ⟨hvisitor, -⟩ := Stage.of_spelling hspelling
  obtain ⟨t, ht, -⟩ := h.exists_task hinside
  have hwatched : p.Sound g (some id) (s.watch fetch (.waiter id)) := by
    refine ⟨?_, h.tasks.watch hjoining hvisitor hgoing, h.turns.watches fun other _ watched _ => ?_, ?_, h.seats,
      h.world, h.slots, h.now, h.live, h.serials⟩
    · rw [Scheduler.watch, Scheduler.size_modifyTask]
      exact h.roster
    · rw [Scheduler.watchersOf_watch ht]
      split
      · next heq =>
        rw [heq]
        exact List.subset_append_left _ _
      · exact fun _ hmem => hmem
    · rw [Scheduler.watch_of_ne (h.ne_zero hinside).symm]
      exact h.gathers
  refine hwatched.pausing (by rw [hjoining]; rfl) (fun _ hqueued => ?_) (fun _ watched hwatched => ?_)
    fun _ hfetch => ?_
  · rw [hjoining] at hqueued
    cases hqueued
  · rw [hjoining] at hwatched
    cases hwatched
    rw [Scheduler.watchersOf_watch ht, if_pos rfl]
    exact .inl (by simp)
  · rw [hjoining] at hfetch
    cases hfetch

/-- A visit starts a fetch. -/
theorem enters (h : p.Sound g (some id) s) (hseated : g.stage id = .seated name) :
    p.Sound ((g.move s.tasks.size (.entered name)).move id (.joining name s.tasks.size)) (some id)
      (entering s (.fetch name) (Work.enlist (Work.normalized name) s.tasks.size s.state)) := by
  have hinside : g.stage id ≠ .outside := by rw [hseated]; exact nofun
  have hid := h.roster.bounds hinside
  have hne : id ≠ s.tasks.size := by omega
  have hzero : s.tasks.size ≠ 0 := by omega
  have hnew : g.stage s.tasks.size = .outside := (h.roster.inside _).mpr (by omega)
  have hentered : Function.update g.stage s.tasks.size (.entered name) id = .seated name := by
    rw [Function.update_of_ne hne, hseated]
  have hgoes : GoesOn (Function.update g.stage s.tasks.size (.entered name)) id (.joining name s.tasks.size) :=
    goesOn_of_eq hentered rfl rfl nofun nofun nofun
  have hfounds := founds_update hseated hnew
  refine ⟨?_, ?_, ?_, ?_, ?_, ?_, h.slots, h.now, h.live, h.serials⟩
  · have hsize : (entering s (.fetch name) (Work.enlist (Work.normalized name) s.tasks.size s.state)).tasks.size =
        s.tasks.size + 1 := Array.size_push _
    rw [hsize]
    exact h.roster.founds hfounds
  · refine (h.tasks.enters hnew).goesOn hgoes ?_
    rw [hentered]
    exact nofun
  · refine Turns.watches ((h.turns.enters hnew hzero).goesOn hgoes (fun hmem => ?_) (fun hmem => ?_) nofun) ?_
    · rcases List.mem_append.mp hmem with hmem | hmem
      · have hbefore := (h.turns.turn _ hmem).resolve_left (h.ne_zero (by rw [hseated]; exact nofun))
        rw [hseated] at hbefore
        exact hbefore.elim
      · exact absurd (Turn.run.inj (List.mem_singleton.mp hmem)) hne
    · rcases List.mem_append.mp hmem with hmem | hmem
      · have hbefore := h.turns.turn _ hmem
        rw [TurnAt, hseated] at hbefore
        exact hbefore.elim
      · cases List.mem_singleton.mp hmem
    · intro _ _ watched _
      rw [watchersOf_entering]
      exact fun _ hmem => hmem
  · change Gathers _ _ (s.ready ++ [.run s.tasks.size]) (s.enter (.fetch name)).tasks[0]?
    rw [Scheduler.enter_of_ne hzero.symm]
    refine (h.gathers.enters hnew).goesOn hgoes ?_ |>.append ?_ ?_
    · rw [hentered]
      exact fun _ _ => rfl
    · simpa using hzero.symm
    · simp
  · have hseats : Seats p.capacity (Function.update g.stage s.tasks.size (.entered name)) g.seated g.slots :=
      h.seats.goesOn (by rw [hnew]; rfl) (by simp) (by simp [hnew])
    exact hseats.goesOn (by rw [hentered]; rfl) (by simp) (by simp [hentered])
  · refine (h.world.founds hfounds).enlist ?_
    rw [hfounds.entered]
    rfl

/-- The turn of a task is over, which has come to its end: all who watch it are going to be told. -/
theorem ends {result : TaskResult Outcome} (hroster : Roster p g.stage s.tasks.size)
    (htasks : Tasks p g.stage (some id) s.tasks) (hstatus : p.statusOf (g.stage id) = some (.ended result))
    (hended : (g.stage id).hasEnded = true)
    (hturns : Turns g.stage g.slots (some id) s.ready s.watchersOf s.timers.timers)
    (hnews : ∀ watcher ∈ s.watchersOf id, TurnAt g.stage (Scheduler.news id watcher))
    (hgathers : Gathers g.stage g.unsettled (s.ready ++ .ended id :: (s.watchersOf id).map (Scheduler.news id))
      s.tasks[0]?)
    (hseats : Seats p.capacity g.stage g.seated g.slots) (hworld : Surroundings p g.stage s.state)
    (hslots : s.state.slots[p.index]? = some g.slots) (hnow : s.now = p.start.now ∨ p.start.now.lt s.now = true)
    (hlive : ∀ timer ∈ s.timers.timers, timer.serial ∉ s.cancelledTimers)
    (hserials : ∀ serial ∈ s.cancelledTimers, serial < s.timerCount) :
    p.Sound g none (s.finish id result) := by
  have hzero : 0 ≠ id := by
    refine (hroster.ne_zero fun houtside => ?_).symm
    rw [houtside] at hended
    cases hended
  have hrests : Turns g.stage g.slots none (s.ready ++ .ended id :: (s.watchersOf id).map (Scheduler.news id))
      (s.finish id result).watchersOf s.timers.timers := by
    refine (hturns.append (fun turn hturn => ?_) (fun other _ hturn => ?_)
      fun other name fetch hjoining hwatch => ?_).rests
      (fun name hfresh => ?_) (fun name hqueued => ?_) (fun name fetch hjoining => ?_) fun spelling _ hgoing => ?_
    · rcases List.mem_cons.mp hturn with rfl | hturn
      · trivial
      · obtain ⟨watcher, hwatcher, rfl⟩ := List.mem_map.mp hturn
        exact hnews watcher hwatcher
    · obtain ⟨watcher, -, hnews⟩ := List.mem_map.mp ((List.mem_cons.mp hturn).resolve_left nofun)
      cases watcher <;> cases hnews
    · by_cases hfetch : fetch = id
      · subst hfetch
        exact .inr (List.mem_cons_of_mem _ (List.mem_map.mpr ⟨_, hwatch, rfl⟩))
      · rw [Scheduler.watchersOf_finish_of_ne hfetch]
        exact .inl hwatch
    · rw [hfresh] at hended
      cases hended
    · rw [hqueued] at hended
      cases hended
    · rw [hjoining] at hended
      cases hended
    · rw [hended] at hgoing
      cases hgoing
  have hsize : Roster p g.stage (s.finish id result).tasks.size := by rwa [Scheduler.size_finish]
  have hfinished := htasks.finish hstatus hended
  have houtside : Gathers g.stage g.unsettled (s.ready ++ .ended id :: (s.watchersOf id).map (Scheduler.news id))
      (s.finish id result).tasks[0]? := by rwa [Scheduler.finish_of_ne hzero]
  rw [Scheduler.finish_eq] at hrests hsize hfinished houtside ⊢
  exact ⟨hsize, hfinished, hrests, houtside, hseats, hworld, hslots, hnow, hlive, hserials⟩

/-- A fetch ends. -/
theorem fetchEnds (h : p.Sound g (some id) s) {result : Except Fault (List (String × Json))}
    (hfetched : g.stage id = .fetched spelling result) :
    p.Sound g none (s.finish id (.finished (result.map .document))) := by
  have hended : (g.stage id).hasEnded = true := by rw [hfetched]; rfl
  have hinside : g.stage id ≠ .outside := by rw [hfetched]; exact nofun
  obtain ⟨t, ht, hat⟩ := h.exists_task hinside
  have hwatched : ∀ watcher ∈ s.watchersOf id, ∃ visit name,
      watcher = .waiter visit ∧ g.stage visit = .joining name id := by
    rw [Scheduler.watchersOf_of_getElem? _ ht]
    exact hat.watched spelling (by rw [hfetched]; rfl)
  refine ends h.roster h.tasks (by rw [hfetched]; rfl) hended h.turns (fun watcher hwatcher => ?_)
    (h.gathers.append (fun hmem => ?_) fun child hmem => ?_) h.seats h.world h.slots h.now h.live h.serials
  · obtain ⟨visit, name, rfl, hvisit⟩ := hwatched watcher hwatcher
    rw [Scheduler.news, TurnAt, hvisit]
    exact hended
  · obtain ⟨watcher, hwatcher, hnews⟩ := List.mem_map.mp ((List.mem_cons.mp hmem).resolve_left (by simp))
    cases watcher <;> cases hnews
  · obtain ⟨watcher, hwatcher, hnews⟩ := List.mem_map.mp ((List.mem_cons.mp hmem).resolve_left (by simp))
    obtain ⟨visit, name, rfl, -⟩ := hwatched watcher hwatcher
    cases hnews

/-- **A visit ends**: it gives its slot back, and who waits for all of the visits is told of it. -/
theorem leaves (h : p.Sound g (some id) s) (hsits : (g.stage id).sits = true)
    (hvisitor : (g.stage id).visitor? = some name)
    (hheard : ∀ found fetch, g.stage id = .joining found fetch → (g.stage fetch).hasEnded = true)
    {result : Except IndexError PackageOverview} (hobtains : p.start.Obtains p.names p.admits s.state name result) :
    p.Sound { g with
        stage := Function.update g.stage id (.left name result)
        seated := g.seated.erase id
        slots := g.slots.release.2 } none
      ((Scheduler.rouse (ServiceRun.withSlots { s with state := Work.noted name s.state result } p.index
        g.slots.release.2) g.slots.release.1).finish id (.finished (.ok (Work.replyFor result)))) := by
  obtain ⟨hspelling, hgoing, hopen⟩ := Stage.of_sits hsits
  have hinside := Stage.inside_of_visitor hvisitor
  have hgoes : GoesOn g.stage id (.left name result) :=
    ⟨hvisitor.symm, hspelling.symm, fun _ => rfl, fun _ => rfl, hheard⟩
  have hself : Function.update g.stage id (.left name result) id = .left name result := Function.update_self ..
  obtain ⟨t, ht, hat⟩ := h.exists_task hinside
  have hwatchers : s.watchersOf id = [.gatherer 0] := by
    rw [Scheduler.watchersOf_of_getElem? _ ht]
    exact hat.gathered name hvisitor hgoing
  obtain ⟨halike, hservice⟩ := s.state.alike_noted name result
  have hslots : (Work.noted name s.state result).slots[p.index]? = some g.slots := by cases result <;> exact h.slots
  have hnoted : Surroundings p g.stage (Work.noted name s.state result) := h.world.alike_of_service halike hservice
  -- Who is woken is another one, who is queued.
  have hwoken (task : Nat) (htask : g.slots.release.1 = some task) :
      task ≠ id ∧ ∃ found, g.stage task = .queued found := by
    obtain ⟨found, hfound⟩ := (h.seats.queued_iff task).mp ⟨false, Slots.mem_of_release htask⟩
    refine ⟨?_, found, hfound⟩
    rintro rfl
    rw [hfound] at hsits
    cases hsits
  rw [Scheduler.rouse_eq]
  refine ends (h.roster.goesOn hgoes nofun) (h.tasks.goesOn hgoes fun found fetch => h.roster.ne_fetch)
    (by simp only [hself]; rfl) (by simp only [hself]; rfl)
    ((h.turns.goesOn hgoes (fun _ => trivial) (fun _ => trivial) nofun).wakes (fun other found hother hnot => ?_)
      fun task htask => ?_) (fun watcher hwatcher => ?_) ?_
    (h.seats.releases hsits rfl nofun)
    ((hnoted.goesOn hgoes ?_ (hobtains.mono (.of_eq halike.received))).withSlots _ _)
    (List.getElem?_set_self (List.getElem?_eq_some_iff.mp hslots).1) h.now h.live h.serials
  · rw [Slots.mem_release, if_neg hnot]
  · obtain ⟨hne, found, hfound⟩ := hwoken task htask
    refine ⟨by rw [Slots.mem_release, if_pos htask], h.seats.account.not_mem (Slots.mem_of_release htask),
      fun heq => hne (Option.some.inj heq).symm, found, ?_⟩
    rw [Function.update_of_ne hne, hfound]
  · obtain rfl : watcher = .gatherer 0 := by
      change watcher ∈ s.watchersOf id at hwatcher
      rwa [hwatchers, List.mem_singleton] at hwatcher
    exact ⟨rfl, by simp only [hself]; rfl, name, by simp only [hself]; rfl⟩
  · change Gathers _ _ (s.ready ++ (g.slots.release.1.map Turn.run).toList ++
      .ended id :: (s.watchersOf id).map (Scheduler.news id)) s.tasks[0]?
    have hwakes : Gathers g.stage g.unsettled (s.ready ++ (g.slots.release.1.map Turn.run).toList) s.tasks[0]? := by
      refine h.gathers.append (fun hmem => ?_) (by simp)
      obtain ⟨task, htask, hzero⟩ : ∃ task, g.slots.release.1 = some task ∧ Turn.run task = .run 0 := by
        simpa using hmem
      obtain ⟨-, found, hfound⟩ := hwoken task htask
      exact h.ne_zero (by rw [hfound]; exact nofun) (Turn.run.inj hzero)
    rw [hwatchers]
    refine hwakes.leaves hgoes hgoing ?_ (by simp [Scheduler.news]) (by simp [Scheduler.news]) (fun other hother => ?_)
      (by simp [Scheduler.news])
    · rw [List.mem_append]
      rintro (hmem | hmem)
      · have hbefore := (h.turns.turn _ hmem).2.1
        rw [hgoing] at hbefore
        cases hbefore
      · simp at hmem
    · simpa [Scheduler.news] using hother
  · exact hopen.symm

/-! ### Turns of a fetch -/

/-- A fetch goes on to another stage, and the world with it. -/
theorem fetchGoesOn (h : p.Sound g (some id) s) (hspelling : (g.stage id).spelling? = some spelling)
    (hgoing : (g.stage id).hasEnded = false) (hnext : next.spelling? = some spelling) {world : World}
    (hworld : Surroundings p (Function.update g.stage id next) world) (hslots : world.slots = s.state.slots) :
    p.Sound (g.move id next) (some id) { s with state := world } := by
  obtain ⟨hvisitor, hasked, hsits, hawaited⟩ := Stage.of_spelling hspelling
  obtain ⟨hvisitor', -, hsits', hawaited'⟩ := Stage.of_spelling hnext
  obtain ⟨-, htold, hwaiting⟩ := mayHaveTurn_of_spelling g.stage hspelling
  obtain ⟨hmay, -, hwaiting'⟩ := mayHaveTurn_of_spelling (Function.update g.stage id next) hnext
  have hnever (name : String) (fetch : Nat) : g.stage id ≠ .joining name fetch := by
    intro hjoining
    rw [hjoining] at hawaited
    cases hawaited
  refine h.goesOn ⟨hvisitor'.trans hvisitor.symm, hnext.trans hspelling.symm, ?_, ?_, ?_⟩
    (Stage.inside_of_spelling hspelling) ?_ ?_ (fun _ => hmay) htold
    (hsits'.trans hsits.symm) hwaiting hwaiting' ?_ hworld hslots
  · rw [hasked]
    exact nofun
  · rw [hgoing]
    exact nofun
  · exact fun name fetch hjoining => absurd hjoining (hnever name fetch)
  · exact fun name fetch hjoining => absurd hjoining (hnever name fetch)
  · rintro name fetch rfl
    cases hawaited'
  · intro name hname
    rw [hvisitor'] at hname
    cases hname

/-- A fetch asks for a turn, or for a timer. -/
theorem lulled (h : p.Sound g (some id) s) (hspelling : (g.stage id).spelling? = some spelling) (seconds : Number) :
    p.Sound g (some id) (Scheduler.lullTo s id seconds) ∧ (.run id ∈ (Scheduler.lullTo s id seconds).ready ∨
      ∃ timer ∈ (Scheduler.lullTo s id seconds).timers.timers, timer.task = id) := by
  obtain ⟨hmay, -, hwaiting⟩ := mayHaveTurn_of_spelling g.stage hspelling
  have hid : id ≠ 0 := h.ne_zero (Stage.inside_of_spelling hspelling)
  unfold Scheduler.lullTo
  split
  · refine ⟨⟨h.roster, h.tasks,
        h.turns.append (fun turn hturn => ?_) (fun other hother hturn => ?_) fun _ _ _ _ => .inl,
      h.gathers.append (by simpa using hid.symm) (by simp), h.seats, h.world, h.slots, h.now, h.live, h.serials⟩,
      .inl (by simp [Scheduler.ask])⟩
    · obtain rfl := List.mem_singleton.mp hturn
      exact .inr hmay
    · rw [Turn.run.inj (List.mem_singleton.mp hturn), hwaiting] at hother
      cases hother
  · have hset (timer : Timer) : timer ∈ (Scheduler.setTimer s id seconds).timers.timers ↔
        timer ∈ s.timers.timers ∨ timer = ⟨s.now.add seconds.toBinary64, id, s.timerCount⟩ := TimerHeap.mem_insert
    have hwatchers : (Scheduler.setTimer s id seconds).watchersOf = s.watchersOf :=
      funext (Scheduler.watchersOf_modifyTask fun _ => rfl)
    refine ⟨⟨?_, h.tasks.modifyTask (fun _ => rfl) (fun _ => rfl) (fun _ => rfl) fun _ => rfl, ?_, ?_, h.seats, h.world,
      h.slots, h.now, fun timer htimer hcancelled => ?_, fun serial hserial => ?_⟩,
      .inr ⟨_, (hset _).mpr (.inr rfl), rfl⟩⟩
    · rw [Scheduler.setTimer, Scheduler.size_modifyTask]
      exact h.roster
    · rw [hwatchers]
      refine h.turns.sets (fun timer htimer => (hset timer).mpr (.inl htimer)) fun timer htimer => ?_
      refine ((hset timer).mp htimer).imp_right ?_
      rintro rfl
      exact ⟨spelling, hspelling⟩
    · rw [Scheduler.setTimer, Scheduler.modifyTask_of_ne hid.symm]
      exact h.gathers
    · rcases (hset timer).mp htimer with hbefore | rfl
      · exact h.live timer hbefore hcancelled
      · exact Nat.lt_irrefl _ (h.serials _ hcancelled)
    · exact Nat.lt_succ_of_lt (h.serials serial hserial)

/-- The turn of a fetch is over, which sleeps. -/
theorem sleeps (h : p.Sound g (some id) s) (hspelling : (g.stage id).spelling? = some spelling) (seconds : Number)
    {work : Work Outcome} (hstatus : p.statusOf (g.stage id) = some (.paused (.plain work))) :
    p.Sound g none (Scheduler.pausing (Scheduler.lullTo s id seconds) id (.plain work)) := by
  obtain ⟨hlulled, hbusy⟩ := h.lulled hspelling seconds
  refine hlulled.pausing hstatus (fun name hqueued => ?_) (fun name fetch hjoining => ?_) fun _ _ _ => hbusy
  · rw [hqueued] at hspelling
    cases hspelling
  · rw [hjoining] at hspelling
    cases hspelling

/-! ### Turns in which no task does anything -/

/-- Who waited for a fetch is told of its end. -/
theorem tells (h : p.Sound g none s) (hready : s.ready = .tell id :: rest) :
    p.Sound g none ({ s with ready := rest }.ask (.run id)) := by
  have hturns := h.turns
  have hgathers := h.gathers
  rw [hready] at hturns hgathers
  have hid : id ≠ 0 := by
    refine h.ne_zero fun houtside => ?_
    have htold : MayBeTold g.stage (g.stage id) := hturns.turn _ List.mem_cons_self
    rwa [houtside] at htold
  exact ⟨h.roster, h.tasks, hturns.tells, (hgathers.tail nofun nofun).append (by simpa using hid.symm) (by simp),
    h.seats, h.world, h.slots, h.now, h.live, h.serials⟩

/-- A fetch that has ended is listed no longer. -/
theorem forgets (h : p.Sound g none s) (hready : s.ready = .ended id :: rest) :
    p.Sound g none { s with ready := rest, state := Work.program.onEnd id s.state } := by
  have hturns := h.turns
  have hgathers := h.gathers
  rw [hready] at hturns hgathers
  exact ⟨h.roster, h.tasks, hturns.tail nofun nofun, hgathers.tail nofun nofun, h.seats, h.world.forgets id, h.slots,
    h.now, h.live, h.serials⟩

/-- A timer goes off. -/
theorem fires {timer : Timer} (h : p.Sound g none s) (hfirst : s.timers.first? = some timer) :
    p.Sound g none (s.fired timer) := by
  have htimer := TimerHeap.mem_of_first? hfirst
  obtain ⟨spelling, hspelling⟩ := h.turns.timers timer htimer
  have hid : timer.task ≠ 0 := h.ne_zero (Stage.inside_of_spelling hspelling)
  have hwatchers : (s.fired timer).watchersOf = s.watchersOf := funext (Scheduler.watchersOf_modifyTask fun _ => rfl)
  refine ⟨?_, h.tasks.modifyTask (fun _ => rfl) (fun _ => rfl) (fun _ => rfl) fun _ => rfl, ?_, ?_, h.seats, h.world,
    h.slots, h.now, fun other hother => h.live other (TimerHeap.mem_of_mem_dropFirst hother), h.serials⟩
  · have hsize : (s.fired timer).tasks.size = s.tasks.size := Scheduler.size_modifyTask
    rw [hsize]
    exact h.roster
  · rw [hwatchers]
    refine h.turns.fires htimer (fun other => TimerHeap.mem_of_mem_dropFirst) fun other hother => ?_
    have hmem := (TimerHeap.dropFirst_perm hfirst).mem_iff.mp (Array.mem_toList_iff.mpr hother)
    exact (List.mem_cons.mp hmem).imp_right Array.mem_toList_iff.mp
  · have houtside : (s.fired timer).tasks[0]? = s.tasks[0]? := Scheduler.modifyTask_of_ne hid.symm
    rw [houtside]
    exact h.gathers.append (by simpa using hid.symm) (by simp)

/-- A visit has left once it has ended. -/
theorem exists_left (h : p.Sound g none s) (hvisitor : (g.stage id).visitor? = some name)
    (hended : (g.stage id).hasEnded = true) : ∃ result, g.stage id = .left name result ∧
      s.resultOf id = .finished (.ok (Work.replyFor result)) := by
  cases hstage : g.stage id with
  | left found result =>
      rw [hstage] at hvisitor
      obtain rfl : found = name := Option.some.inj hvisitor
      have hinside : g.stage id ≠ .outside := by rw [hstage]; exact nofun
      obtain ⟨t, ht, hat⟩ := h.exists_task hinside
      have hstatus := hat.status nofun
      rw [hstage] at hstatus
      refine ⟨result, rfl, ?_⟩
      rw [Scheduler.resultOf_of_getElem? _ ht, ← Option.some.inj hstatus]
      rfl
  | _ => rw [hstage] at hvisitor hended; first | (cases hvisitor; done) | cases hended

/-- The number of those who are waited for together is made smaller by a visit that has ended. -/
theorem regroups {group : Option (Nat × Bool)} {asked : List Turn} (h : p.Sound g none s)
    (hready : s.ready = .settle id 0 :: rest) (hid : id ∈ g.unsettled) (hended : (g.stage id).hasEnded = true)
    (hasked : asked = if g.unsettled.length ≤ 1 then [.run 0] else [])
    (hgroup : 1 < g.unsettled.length → group = some (g.unsettled.length - 1, true)) :
    p.Sound { g with unsettled := g.unsettled.erase id } none
      { Scheduler.modifyTask s 0 (fun t => { t with group }) with ready := rest ++ asked } := by
  have hturns := h.turns
  have hgathers := h.gathers
  rw [hready] at hturns hgathers
  obtain ⟨t, ht, hfailed, -⟩ := h.gathers.task
  have hwatchers : (Scheduler.modifyTask s 0 fun t => { t with group }).watchersOf = s.watchersOf :=
    funext (Scheduler.watchersOf_modifyTask fun _ => rfl)
  have hasks : Turns g.stage g.slots none (rest ++ asked)
      (Scheduler.modifyTask s 0 fun t => { t with group }).watchersOf s.timers.timers := by
    rw [hwatchers]
    have honly (turn : Turn) (hturn : turn ∈ asked) : turn = .run 0 := by
      rw [hasked] at hturn
      split at hturn
      · exact List.mem_singleton.mp hturn
      · cases hturn
    refine (hturns.tail nofun nofun).append (fun turn hturn => ?_) (fun other hother hturn => ?_) fun _ _ _ _ => .inl
    · rw [honly turn hturn]
      exact .inl rfl
    · have hinside : g.stage other ≠ .outside := by
        intro houtside
        rw [houtside] at hother
        cases hother
      exact h.ne_zero hinside (Turn.run.inj (honly _ hturn))
  refine ⟨?_, h.tasks.modifyTask (fun _ => rfl) (fun _ => rfl) (fun _ => rfl) fun _ => rfl, hasks,
    hgathers.settles hid hended hasked ⟨_, Scheduler.modifyTask_self ht, hfailed, hgroup⟩, h.seats, h.world, h.slots,
    h.now, h.live, h.serials⟩
  exact (Scheduler.size_modifyTask (s := s)).symm ▸ h.roster

/-- It is taken notice of the end of a visit. -/
theorem settles {watcher : Nat} (h : p.Sound g none s) (hready : s.ready = .settle id watcher :: rest) :
    p.Sound { g with unsettled := g.unsettled.erase id } none
      (Scheduler.settle Work.program { s with ready := rest } id watcher) := by
  have hturn : TurnAt g.stage (.settle id watcher) := h.turns.turn _ (by rw [hready]; exact List.mem_cons_self)
  obtain ⟨rfl, hended, name, hvisitor⟩ := hturn
  obtain ⟨result, -, hresult⟩ := h.exists_left hvisitor hended
  have hid : id ∈ g.unsettled :=
    (h.gathers.mem_iff id).mpr ⟨⟨name, hvisitor⟩, .inr (by rw [hready]; exact List.mem_cons_self)⟩
  obtain ⟨t, ht, -, hgroup⟩ := h.gathers.task
  specialize hgroup (List.ne_nil_of_mem hid)
  have hfails : Work.program.fails (.ok (Work.replyFor result)) = false := rfl
  have hresult : Scheduler.resultOf { s with ready := rest } id = .finished (.ok (Work.replyFor result)) := hresult
  unfold Scheduler.settle
  simp only [ht, Option.bind_some, hgroup, hresult, hfails, Bool.and_false, Bool.false_eq_true, if_false]
  split
  · next hlast => exact h.regroups hready hid hended (if_pos hlast).symm fun hmore => absurd hlast (by omega)
  · next hmore =>
    have hregroups := h.regroups hready hid hended (if_neg hmore).symm fun _ => rfl
    rwa [List.append_nil] at hregroups

end Prefetch.Sound

end ManifestLens
