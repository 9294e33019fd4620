import ManifestLens.Proofs.Index.Retry
import ManifestLens.Proofs.Schedule.Process
import ManifestLens.Service.Call

/-!
# The course of a lookup

A call that asks for a view of a package goes through at most one wait: it reads the cache, joins the fetch
of its package, and draws its conclusion from what the fetch ends with. The lemmas here bring the calls into
that form, which says at one glance what a turn of a call can do.
-/

namespace ManifestLens

namespace ServiceCall

/-- The view that a call looks up and the spelling that it asks with, if it looks up a single one; `preferred`
tells whether the service prefers to see pre-releases. -/
def sought? (preferred : Bool) : ServiceCall → Option (Lookup × String)
  | .metadata name includePre => some (.metadata (includePre.getD preferred), name)
  | .releases name includePre => some (.releases (includePre.getD preferred), name)
  | .info name => some (.info, name)
  | .latest name => some (.metadata false, name)
  | _ => none

def replyTo : ServiceCall → CachedView → Outcome
  | .metadata .., .metadata overview => .ok (.metadata overview)
  | .releases .., .releases list => .ok (.releases list)
  | .info _, .info profile => .ok (.info profile)
  | .latest _, .metadata overview => .ok (.value overview.latest)
  | _, _ => .error .cancelled

end ServiceCall

namespace Work

/-- What the result of a fetch tells who asked with a spelling. -/
def told (name : String) : TaskResult Outcome → Except Fault (List (String × Json))
  | .finished (.ok (.document members)) => .ok members
  | .finished (.error fault) => .error (fault.forPackage name)
  | _ => .error .cancelled

/-- What follows the fetch that a lookup waits for: its view is stored and replied. -/
def conclude (view : Lookup) (name : String) (reply : CachedView → Outcome)
    (result : TaskResult Outcome) : Work Outcome :=
  match (told name result).bind (derive view name) with
  | .error fault => .done (.error fault)
  | .ok found => .look fun moment world =>
      .change (fun _ => world.store moment.now (cacheKey view name) found) (.done (reply found))

/-- A lookup from its beginning. -/
def inquire (view : Lookup) (name : String) (reply : CachedView → Outcome) : Work Outcome :=
  .look fun moment world =>
    .change (fun _ => (world.cached moment.now (cacheKey view name)).2) <|
      match (world.cached moment.now (cacheKey view name)).1 with
      | some found => .done (reply found)
      | none => (sharedFetch name).andThen fun task => .join task (conclude view name reply)

/-- The world in which a fetch is under way for a key. -/
def enlist (key : String) (task : Nat) (world : World) : World :=
  world.withService fun service => { service with inFlight := service.inFlight ++ [(key, task)] }

theorem sharedFetch_eq (name : String) : sharedFetch name =
    .look fun _ world =>
      match world.service.inFlight.find? (·.1 == normalized name) with
      | some (_, task) => .done task
      | none => .spawn (.fetch name) fun task => .change (enlist (normalized name) task) (.done task) := by
  unfold sharedFetch
  simp only [ofService, Process.read, Process.bind_eq_andThen, Process.look_andThen,
    Process.done_andThen]
  congr 1

theorem fetchDocument_run (name : String) : (fetchDocument name).run =
    (sharedFetch name).andThen fun task => .join task fun result => .done (told name result) := by
  unfold fetchDocument
  simp only [Process.run_bind, Process.run_lift, Process.andThen_assoc, Process.done_andThen,
    Process.await, Process.join_andThen]
  congr 1
  funext task
  congr 1
  funext result
  cases result with
  | running => rfl
  | cancelled => rfl
  | finished outcome =>
      cases outcome with
      | error fault => rfl
      | ok reply => cases reply <;> rfl

theorem lookup_run (view : Lookup) (name : String) (reply : CachedView → Outcome) :
    ((lookup view name).run.andThen fun result => .done (result.bind reply))
      = inquire view name reply := by
  unfold lookup inquire
  simp only [Process.run_bind, Process.run_lift, Process.done_andThen, Process.update,
    Process.look_andThen, Process.change_andThen]
  congr 1
  funext moment world
  congr 1
  cases (world.cached moment.now (cacheKey view name)).1 with
  | some found => rfl
  | none =>
      simp only [Process.run_bind, Process.run_lift, Process.andThen_assoc, Process.done_andThen,
        Process.look_andThen, Process.change_andThen, fetchDocument_run, Process.join_andThen]
      congr 1
      funext task
      congr 1
      funext result
      unfold conclude
      cases told name result with
      | error fault => rfl
      | ok document =>
          simp only [Except.bind, Process.run_mk, Process.pure_eq_done]
          cases derive view name document <;> rfl

theorem run_reply {α : Type} (work : FallibleWork α) (f : α → Reply) :
    (do return f (← work) : FallibleWork Reply).run
      = work.run.andThen fun result => .done (result.bind fun value => .ok (f value)) := by
  rw [Process.run_bind]
  congr 1
  funext result
  cases result <;> rfl

theorem bind_admitsPre_run {α : Type} (includePre : Option Bool) (next : Bool → FallibleWork α) :
    (ExceptT.lift (admitsPre includePre) >>= next).run
      = .look fun _ world => (next (includePre.getD world.service.includePre)).run := by
  simp only [Process.run_bind, Process.run_lift, Process.done_andThen, admitsPre, ofService, Process.read,
    Process.look_andThen]

/-- What is made of a view that is looked up, if the view is of the kind that was asked for. -/
theorem bind_lookup_run {α : Type} (view : Lookup) (name : String) {pick : CachedView → FallibleWork α}
    {f : α → Outcome} {reply : CachedView → Outcome}
    (hpick : ∀ found, ∃ value, (pick found).run = .done value ∧ reply found = value.bind f) :
    ((lookup view name >>= pick).run.andThen fun result => .done (result.bind f)) = inquire view name reply := by
  rw [← lookup_run, Process.run_bind, Process.andThen_assoc]
  congr 1
  funext result
  cases result with
  | error fault => rfl
  | ok found =>
      obtain ⟨value, hvalue, hreply⟩ := hpick found
      simp only [Except.bind, hvalue, Process.done_andThen, hreply]

theorem metadata_run (name : String) (includePre : Option Bool) {f : PackageOverview → Outcome}
    {reply : CachedView → Outcome}
    (hreply : ∀ found, reply found = match found with
      | .metadata overview => f overview
      | _ => .error .cancelled) :
    ((metadata name includePre).run.andThen fun result => .done (result.bind f)) =
      .look fun _ world => inquire (.metadata (includePre.getD world.service.includePre)) name reply := by
  rw [metadata, bind_admitsPre_run, Process.look_andThen]
  congr 1
  funext moment world
  exact bind_lookup_run _ _ fun found => by cases found <;> exact ⟨_, rfl, hreply _⟩

theorem releases_run (name : String) (includePre : Option Bool) {f : List Release → Outcome}
    {reply : CachedView → Outcome}
    (hreply : ∀ found, reply found = match found with
      | .releases list => f list
      | _ => .error .cancelled) :
    ((releases name includePre).run.andThen fun result => .done (result.bind f)) =
      .look fun _ world => inquire (.releases (includePre.getD world.service.includePre)) name reply := by
  rw [releases, bind_admitsPre_run, Process.look_andThen]
  congr 1
  funext moment world
  exact bind_lookup_run _ _ fun found => by cases found <;> exact ⟨_, rfl, hreply _⟩

theorem info_run (name : String) {f : PackageProfile → Outcome} {reply : CachedView → Outcome}
    (hreply : ∀ found, reply found = match found with
      | .info profile => f profile
      | _ => .error .cancelled) :
    ((info name).run.andThen fun result => .done (result.bind f)) = inquire .info name reply :=
  bind_lookup_run _ _ fun found => by cases found <;> exact ⟨_, rfl, hreply _⟩

theorem advance_perform {s : ServiceRun} {call : ServiceCall} {view : Lookup} {name : String}
    (h : call.sought? s.state.service.includePre = some (view, name)) (task : Nat) :
    s.advance task (perform call).run = s.advance task (inquire view name call.replyTo) := by
  cases call with
  | metadata asked includePre =>
      obtain ⟨rfl, rfl⟩ : .metadata (includePre.getD s.state.service.includePre) = view ∧ asked = name := by
        simpa [ServiceCall.sought?] using h
      rw [perform, run_reply, metadata_run]
      · rfl
      · intro found
        cases found <;> rfl
  | releases asked includePre =>
      obtain ⟨rfl, rfl⟩ : .releases (includePre.getD s.state.service.includePre) = view ∧ asked = name := by
        simpa [ServiceCall.sought?] using h
      rw [perform, run_reply, releases_run]
      · rfl
      · intro found
        cases found <;> rfl
  | info asked =>
      obtain ⟨rfl, rfl⟩ : .info = view ∧ asked = name := by simpa [ServiceCall.sought?] using h
      rw [perform, run_reply, info_run]
      intro found
      cases found <;> rfl
  | latest asked =>
      obtain ⟨rfl, rfl⟩ : .metadata false = view ∧ asked = name := by
        simpa [ServiceCall.sought?] using h
      rw [perform, run_reply (metadata asked (some false)) fun overview => .value overview.latest,
        metadata_run]
      · rfl
      · intro found
        cases found <;> rfl
  | _ => cases h

end Work

end ManifestLens

/-!
## A fetch among other tasks

Whatever others do while a fetch waits for the index, its turns only send requests, note answers and write to
the log, and the document that it ends with is one that an answer to its own request carries.
-/

namespace ManifestLens

/-- What the turns of a fetch leave as it is, and what they only add to. -/
structure World.OnlyAsks (before after : World) : Prop where
  inFlight : after.service.inFlight = before.service.inFlight
  cache : after.service.cache = before.service.cache
  baseUrl : after.service.client.baseUrl = before.service.client.baseUrl
  received : before.received <+: after.received

theorem World.OnlyAsks.refl (world : World) : world.OnlyAsks world := ⟨rfl, rfl, rfl, List.prefix_refl _⟩

theorem World.OnlyAsks.trans {a b c : World} (hab : a.OnlyAsks b) (hbc : b.OnlyAsks c) : a.OnlyAsks c :=
  ⟨hbc.inFlight.trans hab.inFlight, hbc.cache.trans hab.cache, hbc.baseUrl.trans hab.baseUrl,
    hab.received.trans hbc.received⟩

/-- What others do while a fetch waits: answers stay noted. -/
def World.Notes (before after : World) : Prop := before.received <+: after.received

namespace World.Notes

variable {before after : World}

theorem refl (world : World) : world.Notes world := List.prefix_refl _

theorem trans {a b c : World} (hab : a.Notes b) (hbc : b.Notes c) : a.Notes c := List.IsPrefix.trans hab hbc

theorem of_eq (h : after.received = before.received) : before.Notes after :=
  ⟨[], by rw [List.append_nil, h]⟩

end World.Notes

namespace RequestPlan

variable {plan : RequestPlan} {today : DateTime} {answer : IndexAnswer}

theorem eq_classify_of_finished {attempt : Nat} {result : Except Fault HttpResponse}
    (h : plan.verdict today attempt answer = .finished result) : result = plan.classify today answer := by
  unfold verdict at h
  split at h
  · next heq => rw [heq]; cases h; rfl
  · next heq =>
    split at h
    · cases h
    · rw [heq]; cases h; rfl
  · next heq => rw [heq]; cases h; rfl

theorem package_of_statusFault {url : String} {response : HttpResponse} {error : IndexError}
    (h : statusFault? url today response = some (.index error)) : error.package = none := by
  simp only [statusFault?] at h
  split at h
  · cases h
  · split at h
    · cases h
      rfl
    · split at h
      · split at h
        · cases h
        · cases h
          rfl
      · cases h
        rfl

theorem package_of_classify {error : IndexError}
    (h : plan.classify today answer = .error (.index error)) : error.package = none := by
  cases answer with
  | response response =>
      simp only [classify] at h
      split at h
      · next hfault =>
        cases h
        exact package_of_statusFault hfault
      · cases h
  | crashed reason => cases h
  | timedOut | transportFailed | requestFailed =>
      cases h
      rfl

theorem package_of_document {response : HttpResponse} {error : IndexError}
    (h : plan.document response = .error (.index error)) : error.package = none := by
  simp only [document] at h
  split at h
  · cases h
    rfl
  · cases h
  · cases h
    rfl

/-- The failures of a request name no package: that is left to those to whom they are told. -/
theorem package_of_outcome {error : IndexError} (h : plan.outcome today answer = .error (.index error)) :
    error.package = none := by
  rw [outcome] at h
  cases hclassify : plan.classify today answer with
  | error fault =>
      rw [hclassify] at h
      cases h
      exact package_of_classify hclassify
  | ok response =>
      rw [hclassify] at h
      exact package_of_document h

end RequestPlan

namespace Work

variable {past : Nat}

/-- The answer was noted after the first ones. -/
def Noted (past : Nat) (request : SentRequest) (world : World) (answer : IndexAnswer) : Prop :=
  ∃ time, (⟨time, request, answer⟩ : Receipt) ∈ world.received.drop past

theorem Noted.le {request : SentRequest} {world : World} {answer : IndexAnswer}
    (h : Noted past request world answer) : past ≤ world.received.length := by
  obtain ⟨time, hmem⟩ := h
  have hpos := List.length_pos_of_mem hmem
  rw [List.length_drop] at hpos
  omega

theorem Noted.mono {request : SentRequest} {world later : World} {answer : IndexAnswer}
    (h : Noted past request world answer) (hnotes : world.Notes later) : Noted past request later answer := by
  obtain ⟨time, hmem⟩ := h
  obtain ⟨more, hmore⟩ := hnotes
  refine ⟨time, ?_⟩
  rw [← hmore, List.drop_append]
  exact List.mem_append_left _ hmem

theorem send_keeps (request : SentRequest) {world : World} (hpast : past ≤ world.received.length) :
    (send request).Keeps World.OnlyAsks World.Notes (Noted past request) world := by
  have hreceive : ∀ (moment : Moment) (answer : IndexAnswer) (later : World),
      past ≤ later.received.length → later.OnlyAsks (later.receive moment request answer) ∧
        Noted past request (later.receive moment request answer) answer := by
    intro moment answer later hlater
    refine ⟨⟨rfl, rfl, rfl, List.prefix_append _ _⟩, moment.now, ?_⟩
    have hdrop : (later.receive moment request answer).received.drop past
        = later.received.drop past ++ [⟨moment.now, request, answer⟩] := List.drop_append_of_le_length hlater
    rw [hdrop]
    simp
  rw [send_eq]
  intro moment
  refine ⟨⟨rfl, rfl, rfl, List.prefix_refl _⟩, ?_⟩
  simp only
  split
  · intro later hlater moment
    exact hreceive moment _ later (Nat.le_trans hpast hlater.length_le)
  · intro moment
    exact hreceive moment _ _ hpast

/-- What comes of a request is what a noted answer stands for. -/
def Judged (past : Nat) (plan : RequestPlan) (world : World)
    (result : Option (Except Fault HttpResponse)) : Prop :=
  ∀ verdict, result = some verdict → ∃ today answer, Noted past plan.request world answer ∧
    verdict = plan.classify today answer

theorem request_keeps (plan : RequestPlan) (attempt left : Nat) {world : World}
    (hpast : past ≤ world.received.length) :
    (request plan attempt left).Keeps World.OnlyAsks World.Notes (Judged past plan) world := by
  induction left generalizing attempt world with
  | zero => exact fun verdict hverdict => by cases hverdict
  | succ left ih =>
      rw [request_succ]
      refine (send_keeps plan.request hpast).andThen ?_
      intro later answer hnoted moment
      cases hverdict : plan.verdict later.today attempt answer with
      | finished result =>
          simp only [hverdict]
          rintro verdict ⟨⟩
          exact ⟨later.today, answer, hnoted, RequestPlan.eq_classify_of_finished hverdict⟩
      | retry wait error =>
          simp only [hverdict]
          refine ⟨⟨rfl, rfl, rfl, List.prefix_refl _⟩, ⟨rfl, rfl, rfl, List.prefix_refl _⟩, ?_⟩
          intro last hlast
          exact ih _ (Nat.le_trans hnoted.le hlast.length_le)

/-- What a fetch may end with: the document that a noted answer carries, or a failure that names no package. -/
def FetchEnd (past : Nat) (request : SentRequest) (world : World) : Outcome → Prop
  | .ok (.document members) => ∃ answer, Noted past request world answer ∧ answer.Carries members
  | .ok _ => False
  | .error fault => ∀ error, fault = .index error → error.package = none

/-- **A fetch among others.** It asks for its package below the index to which the service points when it
begins, and ends with what an answer to that carries, or with a failure that names no package. -/
theorem fetch_keeps (name : String) {world : World} (hpast : past ≤ world.received.length) :
    (run (.fetch name)).Keeps World.OnlyAsks World.Notes
      (FetchEnd past (world.service.client.plan (documentPath name)).request) world := by
  have hdocument : (getDocument (documentPath name)).run.Keeps World.OnlyAsks World.Notes
      (fun later outcome => FetchEnd past (world.service.client.plan (documentPath name)).request later
        (outcome.map .document)) world := by
    rw [getDocument_run]
    intro moment
    refine (request_keeps (world.service.client.plan (documentPath name)) 1 _ hpast).andThen ?_
    intro later result hjudged
    cases result with
    | none => exact fun error herror => by cases herror
    | some verdict =>
        obtain ⟨today, answer, hnoted, rfl⟩ := hjudged verdict rfl
        change FetchEnd _ _ _ (Except.map _
          ((world.service.client.plan (documentPath name)).outcome today answer))
        cases houtcome : (world.service.client.plan (documentPath name)).outcome today answer with
        | ok members => exact ⟨answer, hnoted, RequestPlan.outcome_eq_ok_iff.mp houtcome⟩
        | error fault =>
            rintro error rfl
            exact RequestPlan.package_of_outcome houtcome
  exact hdocument.andThen fun later outcome hend => hend

end Work

end ManifestLens
