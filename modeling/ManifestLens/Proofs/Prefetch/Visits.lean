import ManifestLens.Proofs.Service.Company
import ManifestLens.Proofs.Service.Containment
import ManifestLens.Proofs.Service.Turns

/-!
# The tasks of a prefetch

A prefetch starts one visit for each name. A visit takes a slot, looks up the metadata of its package and gives
the slot back; the lookup may start a fetch, which is a task of its own. Visits and fetches are brought here into
a form in which every turn of them can be read off: what it does to the world, and what is waited for then.
-/

namespace ManifestLens

/-! ### Visits -/

def World.withSlots (world : World) (index : Nat) (slots : Slots) : World :=
  { world with slots := world.slots.set index slots }

namespace Work

def overviewIn : CachedView → Except Fault PackageOverview
  | .metadata overview => .ok overview
  | _ => .error .cancelled

/-- The end of a visit, which gives its slot back. -/
def yieldSlot (index : Nat) (outcome : Outcome) : Work Outcome := (giveSlot index).andThen fun _ => .done outcome

/-- What a visit does with the result of its lookup. -/
def leave (name : String) (index : Nat) : Except Fault PackageOverview → Work Outcome
  | .ok overview => yieldSlot index (.ok (.metadata overview))
  | .error (.index error) =>
      .change (·.logged (.of "service" .debug ("Prefetch of " ++ name ++ " failed: " ++ (Failure.index error).text)))
        (yieldSlot index (.ok (.failed error)))
  | .error fault => yieldSlot index (.error fault)

/-- What a visit does with the result of the fetch that it has waited for. -/
def attend (view : Lookup) (name : String) (index : Nat) (result : TaskResult Outcome) : Work Outcome :=
  match (told name result).bind (derive view name) with
  | .error fault => leave name index (.error fault)
  | .ok found => .look fun moment world =>
      .change (fun _ => world.store moment.now (cacheKey view name) found) (leave name index (overviewIn found))

/-- A visit from its lookup on. -/
def seek (view : Lookup) (name : String) (index : Nat) : Work Outcome :=
  .look fun moment world =>
    .change (fun _ => (world.cached moment.now (cacheKey view name)).2) <|
      match (world.cached moment.now (cacheKey view name)).1 with
      | some found => leave name index (overviewIn found)
      | none => (sharedFetch name).andThen fun task => .join task (attend view name index)

/-- A visit that has its slot. -/
def sit (name : String) (includePre : Option Bool) (index : Nat) : Work Outcome :=
  .look fun _ world => seek (.metadata (includePre.getD world.service.includePre)) name index

/-- A visit that has been given a slot for which it waited. -/
def woken (name : String) (includePre : Option Bool) (index : Nat) : Work Outcome :=
  ((updateSlots index (fun moment slots => slots.leave moment.task) none).andThen rouse).andThen fun _ =>
    sit name includePre index

theorem metadata_andThen (name : String) (includePre : Option Bool) (index : Nat) :
    (metadata name includePre).run.andThen (leave name index) = sit name includePre index := by
  rw [metadata, bind_admitsPre_run, Process.look_andThen]
  unfold sit
  congr 1
  funext _ world
  unfold lookup seek
  simp only [Process.run_bind, Process.run_lift, Process.done_andThen, Process.update, Process.look_andThen,
    Process.change_andThen]
  congr 1
  funext moment world
  congr 1
  cases (world.cached moment.now _).1 with
  | some found => cases found <;> rfl
  | none =>
      simp only [Process.run_bind, Process.run_lift, Process.andThen_assoc, Process.done_andThen,
        Process.look_andThen, Process.change_andThen, fetchDocument_run, Process.join_andThen]
      congr 1
      funext task
      congr 1
      funext result
      unfold attend
      cases told name result with
      | error fault => rfl
      | ok document =>
          simp only [Except.bind, Process.run_mk, Process.pure_eq_done]
          cases derive _ name document with
          | error fault => rfl
          | ok found => cases found <;> rfl

theorem prefetchOne_eq (name : String) (includePre : Option Bool) (index : Nat) :
    prefetchOne name includePre index = (takeSlot index).andThen fun _ => sit name includePre index := by
  simp only [← metadata_andThen]
  rfl

/-- The reply to a visit: the metadata of the package, or the failure of the index. -/
def replyFor : Except IndexError PackageOverview → Reply
  | .ok overview => .metadata overview
  | .error error => .failed error

/-- The world in which a failure of a visit has been noted. -/
def noted (name : String) (world : World) : Except IndexError PackageOverview → World
  | .ok _ => world
  | .error error =>
      world.logged (.of "service" .debug ("Prefetch of " ++ name ++ " failed: " ++ (Failure.index error).text))

theorem prefetchResult_replyFor (result : Except IndexError PackageOverview) :
    prefetchResult (.finished (.ok (replyFor result))) = .ok result := by cases result <;> rfl

end Work

/-! ### Turns of a visit -/

namespace Scheduler

variable {σ δ ρ : Type}

/-- Gives a turn to a task if one is given. -/
def rouse (s : Scheduler σ δ ρ) : Option Nat → Scheduler σ δ ρ
  | some task => s.ask (.run task)
  | none => s

/-- The scheduler in which a task has come to a pause. -/
def pausing (s : Scheduler σ δ ρ) (task : Nat) (paused : Paused σ δ ρ ρ) : Scheduler σ δ ρ :=
  s.modifyTask task fun t => { t with status := .paused paused }

theorem proceed_eq_of_advance {s s' : Scheduler σ δ ρ} {task : Nat} {p p' : Process σ δ ρ ρ}
    (h : s.advance task p = s'.advance task p') : s.proceed task p = s'.proceed task p' := by
  rw [proceed, h, proceed]

end Scheduler

namespace ServiceRun

variable {s : ServiceRun} {index visit : Nat} {slots : Slots} {view : Lookup} {name : String}
  {includePre : Option Bool}

def withSlots (s : ServiceRun) (index : Nat) (slots : Slots) : ServiceRun :=
  { s with state := s.state.withSlots index slots }

theorem advance_updateSlots {α β : Type} (hslots : s.state.slots[index]? = some slots)
    (f : Moment → Slots → α × Slots) (default : α) (next : α → Work β) :
    s.advance visit ((Work.updateSlots index f default).andThen next) =
      Scheduler.advance (s.withSlots index (f ⟨s.now, visit⟩ slots).2) visit (next (f ⟨s.now, visit⟩ slots).1) := by
  unfold Work.updateSlots
  simp only [Process.update, Process.look_andThen, Process.change_andThen, Process.done_andThen,
    Scheduler.advance, hslots]
  rfl

theorem advance_rouse {β : Type} (task : Option Nat) (next : Unit → Work β) :
    s.advance visit ((Work.rouse task).andThen next) = Scheduler.advance (s.rouse task) visit (next ()) := by
  cases task <;> rfl

theorem proceed_prefetchOne_free (hslots : s.state.slots[index]? = some slots)
    (hfree : (slots.take visit).1 = true) : s.proceed visit (Work.prefetchOne name includePre index) =
      Scheduler.proceed (s.withSlots index (slots.take visit).2) visit (Work.sit name includePre index) := by
  refine Scheduler.proceed_eq_of_advance ?_
  rw [Work.prefetchOne_eq]
  unfold Work.takeSlot
  simp only [Process.bind_eq_andThen, Process.andThen_assoc]
  rw [advance_updateSlots hslots]
  simp only [hfree]
  rfl

theorem proceed_prefetchOne_full (hslots : s.state.slots[index]? = some slots)
    (hfull : (slots.take visit).1 = false) : s.proceed visit (Work.prefetchOne name includePre index) =
      Scheduler.pausing (s.withSlots index (slots.take visit).2) visit
        (.plain (Work.woken name includePre index)) := by
  rw [Work.prefetchOne_eq, Scheduler.proceed]
  unfold Work.takeSlot
  simp only [Process.bind_eq_andThen, Process.andThen_assoc]
  rw [advance_updateSlots hslots]
  simp only [hfull]
  rfl

theorem proceed_woken (hslots : s.state.slots[index]? = some slots) :
    s.proceed visit (Work.woken name includePre index) =
      Scheduler.proceed (Scheduler.rouse (s.withSlots index (slots.leave visit).2) (slots.leave visit).1) visit
        (Work.sit name includePre index) := by
  refine Scheduler.proceed_eq_of_advance ?_
  unfold Work.woken
  rw [Process.andThen_assoc, advance_updateSlots hslots, advance_rouse]

theorem advance_yieldSlot (hslots : s.state.slots[index]? = some slots) (outcome : Outcome) :
    s.advance visit (Work.yieldSlot index outcome) =
      (Scheduler.rouse (s.withSlots index slots.release.2) slots.release.1, .inl outcome) := by
  unfold Work.yieldSlot Work.giveSlot
  simp only [Process.bind_eq_andThen, Process.andThen_assoc]
  rw [advance_updateSlots hslots]
  cases slots.release.1 <;> rfl

theorem proceed_leave (hslots : s.state.slots[index]? = some slots)
    (result : Except IndexError PackageOverview) :
    s.proceed visit (Work.leave name index (result.mapError .index)) =
      (Scheduler.rouse (ServiceRun.withSlots { s with state := Work.noted name s.state result } index slots.release.2)
        slots.release.1).finish visit (.finished (.ok (Work.replyFor result))) := by
  have hyields : s.proceed visit (Work.leave name index (result.mapError .index)) =
      Scheduler.proceed { s with state := Work.noted name s.state result } visit
        (Work.yieldSlot index (.ok (Work.replyFor result))) := by
    cases result <;> rfl
  have hnoted : (Work.noted name s.state result).slots[index]? = some slots := by cases result <;> exact hslots
  rw [hyields, Scheduler.proceed, advance_yieldSlot (s := { s with state := Work.noted name s.state result }) hnoted]

theorem proceed_seek_hit {found : CachedView}
    (h : (s.state.cached s.now (Work.cacheKey view name)).1 = some found) :
    s.proceed visit (Work.seek view name index) =
      (s.looked view name).proceed visit (Work.leave name index (Work.overviewIn found)) := by
  simp only [Scheduler.proceed, Work.seek, Scheduler.advance, h]
  rfl

theorem proceed_seek_miss (h : s.Misses view name) : s.proceed visit (Work.seek view name index) =
    (s.looked view name).proceed visit
      ((Work.sharedFetch name).andThen fun task => .join task (Work.attend view name index)) := by
  simp only [Misses] at h
  simp only [Scheduler.proceed, Work.seek, Scheduler.advance, h]
  rfl

theorem proceed_attend (result : TaskResult Outcome) : s.proceed visit (Work.attend view name index result) =
    Scheduler.proceed { s with state := Work.kept view name result s.now s.state } visit
      (Work.leave name index (((Work.told name result).bind (Work.derive view name)).bind Work.overviewIn)) := by
  unfold Work.attend Work.kept
  cases (Work.told name result).bind (Work.derive view name) <;> rfl

end ServiceRun

/-! ### Fetches -/

/-- What a sleep of a task asks for: a turn, or a timer. -/
def Scheduler.lullTo {σ δ ρ : Type} (s : Scheduler σ δ ρ) (task : Nat) (seconds : Number) : Scheduler σ δ ρ :=
  if seconds ≤ 0 then s.ask (.run task) else s.setTimer task seconds

namespace Work

variable {plan : RequestPlan} {attempt left : Nat}

/-- A fetch from an attempt on. -/
def fetching (plan : RequestPlan) (attempt left : Nat) : Work Outcome :=
  (request plan attempt left).andThen fun result => .done <|
    (match result with
    | some result => result.bind plan.document
    | none => .error unfinished).map .document

/-- What a fetch does with the answer to an attempt. -/
def receiving (plan : RequestPlan) (attempt left : Nat) (answer : IndexAnswer) : Work Outcome :=
  .look fun moment world =>
    .change (fun _ => world.receive moment plan.request answer) <|
      .look fun _ world =>
        match plan.verdict world.today attempt answer with
        | .finished result => .done ((result.bind plan.document).map .document)
        | .retry wait error =>
            .change (·.logged (plan.retryRecord attempt wait error)) <|
              .change (fun world => { world with waits := world.waits ++ [wait] }) <|
                .sleep wait (fetching plan (attempt + 1) left)

theorem fetching_succ (plan : RequestPlan) (attempt left : Nat) : fetching plan attempt (left + 1) =
    .look fun moment world =>
      .change (fun _ => (world.send moment.task plan.request).2) <|
        let exchange := (world.send moment.task plan.request).1
        if 0 < exchange.delay then .sleep exchange.delay (receiving plan attempt left exchange.answer)
        else receiving plan attempt left exchange.answer := by
  unfold fetching
  rw [request_succ, send_eq]
  simp only [Process.look_andThen, Process.change_andThen]
  congr 1
  funext moment world
  congr 1
  have hjudge : ∀ answer : IndexAnswer, ((Process.look fun moment (world : World) =>
      .change (fun _ => world.receive moment plan.request answer) (.done answer) : Work IndexAnswer).andThen
        fun answer => .look fun _ world =>
          match plan.verdict world.today attempt answer with
          | .finished result => .done (some result)
          | .retry wait error =>
              .change (·.logged (plan.retryRecord attempt wait error)) <|
                .change (fun world => { world with waits := world.waits ++ [wait] }) <|
                  .sleep wait (request plan (attempt + 1) left)).andThen (fun result => .done <|
            (match result with
            | some result => result.bind plan.document
            | none => .error unfinished).map .document) = receiving plan attempt left answer := by
    intro answer
    unfold receiving
    simp only [Process.look_andThen, Process.change_andThen, Process.done_andThen]
    congr 1
    funext moment world
    congr 1
    congr 1
    funext _ world
    cases plan.verdict world.today attempt answer <;> rfl
  split
  · exact congrArg (Process.sleep _) (hjudge _)
  · exact hjudge _

theorem run_fetch (name : String) : run (.fetch name) = .look fun _ world =>
    fetching (world.service.client.plan (documentPath name)) 1
      (world.service.client.plan (documentPath name)).attempts := by
  rw [run, getDocument_run]
  simp only [Process.look_andThen, Process.andThen_assoc, Process.done_andThen]
  rfl

end Work

namespace ServiceRun

variable {s : ServiceRun} {fetch : Nat} {plan : RequestPlan} {attempt left : Nat}

/-- The run in which a task has sent a request. -/
def sent (s : ServiceRun) (task : Nat) (request : SentRequest) : ServiceRun :=
  { s with state := (s.state.send task request).2 }

/-- The run in which the answer to the request of a task is there. -/
def received (s : ServiceRun) (task : Nat) (request : SentRequest) (answer : IndexAnswer) : ServiceRun :=
  { s with state := s.state.receive ⟨s.now, task⟩ request answer }

/-- The run in which it is noted that an attempt failed and what the wait for the next one is. -/
def retried (s : ServiceRun) (plan : RequestPlan) (attempt : Nat) (wait : Number) (error : IndexError) : ServiceRun :=
  { s with state := { s.state.logged (plan.retryRecord attempt wait error) with
    waits := s.state.waits ++ [wait] } }

theorem proceed_sleep (task : Nat) (seconds : Number) (next : Work Outcome) :
    s.proceed task (.sleep seconds next) = Scheduler.pausing (Scheduler.lullTo s task seconds) task (.plain next) := by
  rw [Scheduler.proceed, Scheduler.advance, Scheduler.lullTo]
  by_cases h : seconds ≤ 0
  · simp only [if_pos h]
    rfl
  · simp only [if_neg h]
    rfl

/-- The turn of a fetch in which it makes an attempt: the answer is there at once, or it is waited for. -/
theorem proceed_fetching (plan : RequestPlan) (attempt left : Nat) :
    s.proceed fetch (Work.fetching plan attempt (left + 1)) =
      let exchange := (s.state.send fetch plan.request).1
      let next := Work.receiving plan attempt left exchange.answer
      if 0 < exchange.delay then
        Scheduler.pausing (Scheduler.lullTo (s.sent fetch plan.request) fetch exchange.delay) fetch (.plain next)
      else Scheduler.proceed (s.sent fetch plan.request) fetch next := by
  rw [Work.fetching_succ]
  refine .trans (b := Scheduler.proceed (s.sent fetch plan.request) fetch
    (let exchange := (s.state.send fetch plan.request).1
    if 0 < exchange.delay then .sleep exchange.delay (Work.receiving plan attempt left exchange.answer)
    else Work.receiving plan attempt left exchange.answer)) rfl ?_
  simp only
  split
  · exact proceed_sleep fetch _ _
  · rfl

/-- The turn of a fetch in which an answer is there: the fetch ends, or it waits for another attempt. -/
theorem proceed_receiving (plan : RequestPlan) (attempt left : Nat) (answer : IndexAnswer) :
    s.proceed fetch (Work.receiving plan attempt left answer) =
      match plan.verdict s.state.today attempt answer with
      | .finished result => (s.received fetch plan.request answer).finish fetch
          (.finished ((result.bind plan.document).map .document))
      | .retry wait error =>
          Scheduler.pausing
            (Scheduler.lullTo ((s.received fetch plan.request answer).retried plan attempt wait error) fetch wait)
            fetch (.plain (Work.fetching plan (attempt + 1) left)) := by
  have htoday : (s.received fetch plan.request answer).state.today = s.state.today := rfl
  unfold Work.receiving
  have hjudged : s.proceed fetch (.look fun moment world =>
      .change (fun _ => world.receive moment plan.request answer) <| .look fun _ world =>
        match plan.verdict world.today attempt answer with
        | .finished result => .done ((result.bind plan.document).map .document)
        | .retry wait error =>
            .change (·.logged (plan.retryRecord attempt wait error)) <|
              .change (fun world => { world with waits := world.waits ++ [wait] }) <|
                .sleep wait (Work.fetching plan (attempt + 1) left)) =
      (s.received fetch plan.request answer).proceed fetch
        (match plan.verdict s.state.today attempt answer with
        | .finished result => .done ((result.bind plan.document).map .document)
        | .retry wait error =>
            .change (·.logged (plan.retryRecord attempt wait error)) <|
              .change (fun world => { world with waits := world.waits ++ [wait] }) <|
                .sleep wait (Work.fetching plan (attempt + 1) left)) := rfl
  rw [hjudged]
  cases plan.verdict s.state.today attempt answer with
  | finished result => rfl
  | retry wait error =>
      exact proceed_sleep (s := (s.received fetch plan.request answer).retried plan attempt wait error) fetch _ _

end ServiceRun

end ManifestLens

/-!
## What the index answers

A prefetch relies on an index that serves each of its packages to a single call. What the answers to a fetch come to
is then, for everybody who asks for the package, the metadata or a failure of the index.
-/

namespace ManifestLens

/-- There is a value, or a failure of the index. -/
def IsServed {α : Type} (result : Except Fault α) : Prop :=
  ∃ served : Except IndexError α, result = served.mapError .index

theorem isServed_ok {α : Type} (value : α) : IsServed (.ok value : Except Fault α) := ⟨.ok value, rfl⟩

theorem isServed_error_iff {α : Type} {fault : Fault} : IsServed (.error fault : Except Fault α) ↔
    ∃ error, fault = .index error := by
  constructor
  · rintro ⟨value | error, h⟩
    · exact ⟨value, Except.error.inj h⟩
    · cases h
  · rintro ⟨error, rfl⟩
    exact ⟨.error error, rfl⟩

/-- The answers that are still to come after requests of some URLs. -/
def AnswerScript.afterAll (script : AnswerScript) (urls : List (List Char)) : AnswerScript :=
  urls.foldl (fun script url => (script.next url).2) script

namespace ServiceRun

/-- The service with nothing cached, when requests of some URLs have used up answers of the index. -/
def asked (s : ServiceRun) (urls : List (List Char)) : ServiceRun :=
  { s with state := { s.state.emptyCache with script := s.state.script.afterAll urls } }

/-- Whichever answers have been used up before, a single call for the metadata of one of the packages ends with the
metadata or with a failure of the index. -/
def Serves (s : ServiceRun) (names : List String) (includePre : Option Bool) : Prop :=
  ∀ name ∈ names, ∀ urls ⊆ names.map fun name => (s.planFor name).url, ∃ after result,
    (s.asked urls).Ends Work.program (Work.metadata name includePre).run after result ∧ IsServed result

end ServiceRun

namespace PackageDocument

/-- A failure of the metadata view that does not call the document malformed is that of everybody who asks. -/
theorem metadata_eq_unordered {name asker : String} {document : Members} {includePre : Bool} {fault : Fault}
    (h : metadata asker document includePre = .error fault) :
    fault.IsMalformed asker ∨ metadata name document includePre = .error fault ∧ ∀ error, fault ≠ .index error := by
  rcases bind_eq_error_iff.mp h with h | ⟨⟨fields, files⟩, hparts, h⟩
  · exact .inl (isMalformed_of_parts h)
  · rcases bind_eq_error_iff.mp h with h | ⟨yanked, hyanked, h⟩
    · exact .inl (isMalformed_of_mapError h)
    · rcases bind_eq_error_iff.mp h with h | ⟨versions, -, h⟩
      · refine .inr ⟨bind_eq_error_iff.mpr (.inr ⟨_, parts_eq_ok_iff.mpr (parts_eq_ok_iff.mp hparts), ?_⟩), ?_⟩
        · exact bind_eq_error_iff.mpr (.inr ⟨yanked, mapError_eq_ok_iff.mpr (mapError_eq_ok_iff.mp hyanked),
            bind_eq_error_iff.mpr (.inl h)⟩)
        · obtain ⟨failure, -, rfl⟩ := mapError_eq_error_iff.mp h
          exact fun _ => Fault.noConfusion
      · rcases bind_eq_error_iff.mp h with h | ⟨classifiers, -, h⟩
        · exact .inl (isMalformed_of_mapError h)
        · cases h

end PackageDocument


namespace Work

/-- What who asks for the metadata of a package is told of what its fetch came to. -/
def overviewFor (includePre : Bool) (name : String) (result : Except Fault (List (String × Json))) :
    Except Fault PackageOverview :=
  ((result.mapError (·.forPackage name)).bind (derive (.metadata includePre) name)).bind overviewIn

theorem overviewFor_ok (includePre : Bool) (name : String) (document : List (String × Json)) :
    overviewFor includePre name (.ok document) = PackageDocument.metadata name document includePre := by
  have hderive : overviewFor includePre name (.ok document) =
      ((PackageDocument.metadata name document includePre).map CachedView.metadata).bind overviewIn := rfl
  rw [hderive]
  cases PackageDocument.metadata name document includePre <;> rfl

theorem overviewFor_error (includePre : Bool) (name : String) (fault : Fault) :
    overviewFor includePre name (.error fault) = .error (fault.forPackage name) := rfl

theorem isServed_overviewFor {includePre : Bool} {name : String} {result : Except Fault (List (String × Json))}
    (h : IsServed (overviewFor includePre name result)) (asker : String) :
    IsServed (overviewFor includePre asker result) := by
  cases result with
  | error fault =>
      obtain ⟨error, herror⟩ := isServed_error_iff.mp h
      cases fault with
      | index error => exact isServed_error_iff.mpr ⟨_, rfl⟩
      | _ => cases herror
  | ok document =>
      rw [overviewFor_ok] at h ⊢
      cases hmetadata : PackageDocument.metadata asker document includePre with
      | ok overview => exact isServed_ok overview
      | error fault =>
          rcases PackageDocument.metadata_eq_unordered hmetadata with ⟨error, rfl, -⟩ | ⟨hname, hfault⟩
          · exact isServed_error_iff.mpr ⟨error, rfl⟩
          · rw [hname] at h
            obtain ⟨error, rfl⟩ := isServed_error_iff.mp h
            exact absurd rfl (hfault error)

/-- A single call for the metadata of a package that is not cached ends with what the answer that concludes its
requests comes to. -/
theorem exists_ends_overviewFor {s : ServiceRun} (hidle : s.IsIdle) (hfetch : s.state.service.inFlight = [])
    (hempty : s.state.service.cache.entries = []) (name : String) (includePre : Option Bool) :
    ∃ again after, (∀ i < again, ¬ (s.state.answerTo (s.planFor name).url i).Settles s.state.today) ∧
      s.Ends program (metadata name includePre).run after (overviewFor (includePre.getD s.state.service.includePre) name
        ((s.planFor name).outcome s.state.today (s.state.answerTo (s.planFor name).url again))) := by
  let reply := (ServiceCall.metadata name includePre).replyTo
  have hmiss : ¬ s.Remembers (cacheKey (.metadata (includePre.getD s.state.service.includePre)) name) := by
    rintro ⟨entry, hentry, -⟩
    have hmem := Cache.mem_entries_of_entry hentry
    rw [hempty] at hmem
    cases hmem
  obtain ⟨joined, again, -, hearlier, hinquired⟩ := exists_hasFetched hidle hfetch _ name reply hmiss
  obtain ⟨after, outcome, hconcluded, hconclusion⟩ := exists_ends_conclude joined
    (.metadata (includePre.getD s.state.service.includePre)) name reply
    (.finished (((s.planFor name).outcome s.state.today (s.state.answerTo (s.planFor name).url again)).map .document))
  have hreplied : s.Ends program ((metadata name includePre).run.andThen fun result =>
      .done (result.bind fun overview => .ok (Reply.metadata overview))) after outcome := by
    rw [metadata_run name includePre (fun found => show reply found = _ by cases found <;> rfl)]
    exact Scheduler.ends_look (hinquired _ _ hconcluded)
  obtain ⟨result, hends, hresult⟩ := hreplied.of_andThen_done
  suffices hsame : result = overviewFor (includePre.getD s.state.service.includePre) name
      ((s.planFor name).outcome s.state.today (s.state.answerTo (s.planFor name).url again)) from
    ⟨again, after, hearlier, hsame ▸ hends⟩
  rw [told_finished] at hconclusion
  unfold overviewFor
  rcases hconclusion with ⟨fault, hfault, rfl, -⟩ | ⟨found, hfound, rfl, -⟩
  · rw [hfault]
    cases result with
    | ok overview => cases hresult
    | error other => exact congrArg Except.error (Except.error.inj hresult)
  · rw [hfound]
    obtain ⟨document, -, hderive⟩ := exists_of_mapError_bind hfound
    obtain ⟨overview, -, rfl⟩ := map_eq_ok_iff.mp hderive
    cases result with
    | ok other =>
        obtain rfl : other = overview := Reply.metadata.inj (Except.ok.inj hresult)
        rfl
    | error fault => cases hresult

/-- If a single call for the metadata of a package that is not cached serves who asks, so does the first answer
that it gets, to everybody. -/
theorem isServed_answerTo {s after : ServiceRun} {name : String} {includePre : Option Bool}
    {result : Except Fault PackageOverview} (hidle : s.IsIdle) (hfetch : s.state.service.inFlight = [])
    (hempty : s.state.service.cache.entries = [])
    (hends : s.Ends program (metadata name includePre).run after result) (hserved : IsServed result)
    (asker : String) : IsServed (overviewFor (includePre.getD s.state.service.includePre) asker
      ((s.planFor name).outcome s.state.today (s.state.answerTo (s.planFor name).url 0))) := by
  by_cases hsettles : (s.state.answerTo (s.planFor name).url 0).Settles s.state.today
  · obtain ⟨again, concluded, hearlier, hconcluded⟩ := exists_ends_overviewFor hidle hfetch hempty name includePre
    obtain rfl : again = 0 := by
      by_contra hagain
      exact hearlier 0 (Nat.pos_of_ne_zero hagain) hsettles
    obtain ⟨-, rfl⟩ := hends.unique hconcluded
    exact isServed_overviewFor hserved asker
  · obtain ⟨error, hclassify, -⟩ := RequestPlan.exists_error_of_not_settles (s.planFor name) hsettles 0
    rw [RequestPlan.outcome, hclassify]
    exact isServed_error_iff.mpr ⟨_, rfl⟩

end Work

theorem World.emptyCache_today (world : World) : world.emptyCache.today = world.today := by
  simp only [emptyCache]
  split <;> rfl

namespace ServiceRun

variable {s : ServiceRun} {names : List String} {includePre : Option Bool}

theorem service_asked (s : ServiceRun) (urls : List (List Char)) : (s.asked urls).state.service =
    { s.state.service with cache := s.state.service.cache.clear } := s.state.emptyCache_service

theorem planFor_asked (s : ServiceRun) (urls : List (List Char)) (name : String) :
    (s.asked urls).planFor name = s.planFor name := by rw [planFor, service_asked, planFor]

theorem today_asked (s : ServiceRun) (urls : List (List Char)) : (s.asked urls).state.today = s.state.today :=
  s.state.emptyCache_today

/-- Nobody is at work, nothing is fetched and nothing is cached. -/
theorem IsResting.asked (h : s.IsResting) (urls : List (List Char)) : (s.asked urls).IsIdle ∧
    (s.asked urls).state.service.inFlight = [] ∧ (s.asked urls).state.service.cache.entries = [] := by
  refine ⟨h.idle.withState _, ?_, ?_⟩
  · rw [service_asked]
    exact h.inFlight
  · rw [service_asked]
    rfl

/-- Every answer that may come to a request for one of the packages serves everybody who asks for it. -/
theorem Serves.isServed (h : s.Serves names includePre) (hresting : s.IsResting) {name : String}
    (hname : name ∈ names) {urls : List (List Char)} (hurls : urls ⊆ names.map fun name => (s.planFor name).url)
    (asker : String) : IsServed (Work.overviewFor (includePre.getD s.state.service.includePre) asker
      ((s.planFor name).outcome s.state.today
        ((s.state.script.afterAll urls).next (s.planFor name).url).1.answer)) := by
  obtain ⟨after, result, hends, hserved⟩ := h name hname urls hurls
  obtain ⟨hidle, hinFlight, hempty⟩ := hresting.asked urls
  have hanswered := Work.isServed_answerTo hidle hinFlight hempty hends hserved asker
  rw [service_asked, planFor_asked, today_asked] at hanswered
  exact hanswered

/-- An index with the same answer to every request serves the packages for which that answer serves who asks. -/
theorem serves_of_constant {exchange : Exchange} (hresting : s.IsResting)
    (hscript : s.state.script = .constant exchange)
    (hserved : ∀ name ∈ names, IsServed (Work.overviewFor (includePre.getD s.state.service.includePre) name
      ((s.planFor name).outcome s.state.today exchange.answer))) : s.Serves names includePre := by
  intro name hname urls _
  obtain ⟨hidle, hinFlight, hempty⟩ := hresting.asked urls
  obtain ⟨again, after, -, hends⟩ := Work.exists_ends_overviewFor hidle hinFlight hempty name includePre
  have hconstant : (s.asked urls).state.script = .constant exchange := by
    change s.state.script.afterAll urls = _
    rw [hscript]
    exact List.foldl_fixed' (fun _ => rfl) urls
  refine ⟨after, _, hends, ?_⟩
  rw [service_asked, planFor_asked, today_asked, World.answerTo_constant hconstant]
  exact hserved name hname

end ServiceRun

/-! ### What a name obtains -/

namespace RequestPlan

variable {plan : RequestPlan} {today : DateTime} {answer : IndexAnswer}

/-- Answers that a request has had one after another: the last one settles it or answers the last attempt, and
the earlier ones do neither. -/
structure Concludes (plan : RequestPlan) (today : DateTime) (earlier : List IndexAnswer) (last : IndexAnswer) :
    Prop where
  open_until : ∀ answer ∈ earlier, ¬ answer.Settles today
  within_attempts : earlier.length < plan.attempts
  settled : last.Settles today ∨ plan.attempts ≤ earlier.length + 1

theorem classify_of_finished {attempt : Nat} {result : Except Fault HttpResponse}
    (h : plan.verdict today attempt answer = .finished result) : plan.classify today answer = result := by
  unfold verdict at h
  split at h
  · next hclassify => rw [hclassify, Verdict.finished.inj h]
  · next error hclassify =>
    split at h
    · cases h
    · rw [hclassify, Verdict.finished.inj h]
  · next fault _ hclassify => rw [hclassify, Verdict.finished.inj h]

theorem settles_of_finished {attempt : Nat} {result : Except Fault HttpResponse}
    (h : plan.verdict today attempt answer = .finished result) :
    answer.Settles today ∨ plan.attempts ≤ attempt := by
  by_contra! hnot
  obtain ⟨error, hclassify, hretryable, -⟩ := exists_error_of_not_settles plan hnot.1 attempt
  simp [verdict, hclassify, hretryable, hnot.2] at h

theorem not_settles_of_retry {attempt : Nat} {wait : Number} {error : IndexError}
    (h : plan.verdict today attempt answer = .retry wait error) :
    ¬ answer.Settles today ∧ attempt < plan.attempts := by
  refine ⟨fun hsettles => ?_, ?_⟩
  · rw [verdict_of_settles hsettles] at h
    cases h
  · by_contra hlast
    unfold verdict at h
    split at h
    · cases h
    · rw [if_neg (by simp [hlast])] at h
      cases h
    · cases h

end RequestPlan

namespace ServiceRun

variable {s : ServiceRun} {names : List String} {includePre : Bool} {name : String} {world later : World}

/-- The requests for a package under a spelling have come to a result, all of their answers noted in a world since
a run. -/
def Brings (s : ServiceRun) (world : World) (spelling : String)
    (result : Except Fault (List (String × Json))) : Prop :=
  ∃ earlier last, (s.planFor spelling).Concludes s.state.today earlier last ∧
    (∀ answer ∈ last :: earlier,
      Work.Noted s.state.received.length (s.planFor spelling).request world answer) ∧
    result = (s.planFor spelling).outcome s.state.today last

theorem Brings.mono {spelling : String} {result : Except Fault (List (String × Json))}
    (h : s.Brings world spelling result) (hnotes : world.Notes later) : s.Brings later spelling result := by
  obtain ⟨earlier, last, hconcludes, hnoted, hresult⟩ := h
  exact ⟨earlier, last, hconcludes, fun answer hmem => (hnoted answer hmem).mono hnotes, hresult⟩

/-- What a name obtains from a prefetch of some names: metadata that the service remembered and that had not
expired when it was looked for; or else what the requests for a spelling of the package have brought, as
metadata that was made of it for one who asked for the package, or as a failure that names the package as it
is spelled in the name. -/
inductive Obtains (s : ServiceRun) (names : List String) (includePre : Bool) (world : World) (name : String) :
    Except IndexError PackageOverview → Prop where
  | remembered {entry : CacheEntry Number CachedView} {overview : PackageOverview} {now : Binary64}
      (hentry : (Work.cacheKey (.metadata includePre) name, entry) ∈ s.state.service.cache.entries)
      (hnow : now = s.now ∨ s.now.lt now = true) (hvalid : entry.isValid (.float now) = true)
      (hdata : entry.data = .metadata overview) : Obtains s names includePre world name (.ok overview)
  | fetched {spelling asker : String} {result : Except Fault (List (String × Json))} {overview : PackageOverview}
      (hspelling : spelling ∈ names) (hasker : asker ∈ names)
      (hpackage : Work.normalized spelling = Work.normalized name)
      (hasked : Work.normalized asker = Work.normalized name) (hbrings : s.Brings world spelling result)
      (hoverview : Work.overviewFor includePre asker result = .ok overview) :
      Obtains s names includePre world name (.ok overview)
  | failed {spelling : String} {result : Except Fault (List (String × Json))} {error : IndexError}
      (hspelling : spelling ∈ names) (hpackage : Work.normalized spelling = Work.normalized name)
      (hbrings : s.Brings world spelling result)
      (herror : Work.overviewFor includePre name result = .error (.index error))
      (hname : error.package = some name) : Obtains s names includePre world name (.error error)

theorem Obtains.mono {result : Except IndexError PackageOverview}
    (h : s.Obtains names includePre world name result) (hnotes : world.Notes later) :
    s.Obtains names includePre later name result := by
  cases h with
  | remembered hentry hnow hvalid hdata => exact .remembered hentry hnow hvalid hdata
  | fetched hspelling hasker hpackage hasked hbrings hoverview =>
      exact .fetched hspelling hasker hpackage hasked (hbrings.mono hnotes) hoverview
  | failed hspelling hpackage hbrings herror hname =>
      exact .failed hspelling hpackage (hbrings.mono hnotes) herror hname

/-- The failure that a name obtains names the package as it is spelled there. -/
theorem Brings.package {spelling : String} {result : Except Fault (List (String × Json))} {error : IndexError}
    (h : s.Brings world spelling result) (herror : Work.overviewFor includePre name result = .error (.index error)) :
    error.package = some name := by
  obtain ⟨earlier, last, -, -, rfl⟩ := h
  cases houtcome : (s.planFor spelling).outcome s.state.today last with
  | error fault =>
      rw [houtcome, Work.overviewFor_error] at herror
      cases fault with
      | index untold =>
          obtain rfl : untold.forPackage name = error := Fault.index.inj (Except.error.inj herror)
          rw [IndexError.forPackage, RequestPlan.package_of_outcome houtcome]
      | _ => cases herror
  | ok document =>
      rw [houtcome, Work.overviewFor_ok] at herror
      rcases @PackageDocument.metadata_eq_unordered name _ _ _ _ herror with ⟨found, hfound, -, hname⟩ | ⟨-, hnone⟩
      · rwa [← Fault.index.inj hfound] at hname
      · exact absurd rfl (hnone error)

end ServiceRun

end ManifestLens
