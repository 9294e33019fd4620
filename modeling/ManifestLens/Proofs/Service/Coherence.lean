import ManifestLens.Proofs.Cache.Basic
import ManifestLens.Proofs.Index.Retry
import ManifestLens.Proofs.Service.Lookup

/-!
# Coherence of the cache

Calls that come one after another see a cache that only remembers: every entry is vouched for by an answer of
the index to which the service points, received when the entry was stored and in reply to a request for a
package of the same normal form. One lemma for each call says what the call does to the cache and to the
record of requests; that every entry is vouched for is then kept from call to call.
-/

namespace ManifestLens

def Lookup.subject (view : Lookup) (name : String) : CacheKey.Subject :=
  match view with
  | .metadata includePre => .package (Work.normalized name) includePre
  | .releases includePre => .versions (Work.normalized name) includePre
  | .info => .info (Work.normalized name)

theorem Work.cacheKey_eq (view : Lookup) (name : String) :
    cacheKey view name = (view.subject name).key := by cases view <;> rfl

theorem Work.cacheKey_inj {view other : Lookup} {name spelling : String}
    (h : cacheKey view name = cacheKey other spelling) :
    view = other ∧ normalized name = normalized spelling := by
  rw [cacheKey_eq, cacheKey_eq] at h
  have hsubject := CacheKey.Subject.key_injective h
  cases view <;> cases other <;> simp_all [Lookup.subject]

theorem Work.cacheKey_ne_connectivity (view : Lookup) (name baseUrl : String) :
    cacheKey view name ≠ CacheKey.connectivity baseUrl := by
  intro h
  rw [cacheKey_eq] at h
  have hsubject := CacheKey.Subject.key_injective (b := .connectivity baseUrl) h
  cases view <;> cases hsubject

/-! ### The world of the cache -/

namespace World

variable (world : World) (now : Binary64) (key : String)

theorem cached_fst : (world.cached now key).1 = (world.service.cache.get (.float now) key).1 := rfl

theorem cached_service : (world.cached now key).2.service
    = { world.service with cache := (world.service.cache.get (.float now) key).2 } := by
  simp only [cached]
  split <;> rfl

theorem cached_sent : (world.cached now key).2.sent = world.sent := by
  simp only [cached]
  split <;> rfl

theorem cached_received : (world.cached now key).2.received = world.received := by
  simp only [cached]
  split <;> rfl

theorem cached_script : (world.cached now key).2.script = world.script := by
  simp only [cached]
  split <;> rfl

theorem cached_today : (world.cached now key).2.today = world.today := by
  simp only [cached]
  split <;> rfl

theorem store_service (view : CachedView) (ttl : Option Number) : (world.store now key view ttl).service
    = { world.service with cache := world.service.cache.set (.float now) key view ttl } := rfl

theorem emptyCache_service : world.emptyCache.service
    = { world.service with cache := world.service.cache.clear } := by
  simp only [emptyCache]
  split <;> rfl

theorem emptyCache_received : world.emptyCache.received = world.received := by
  simp only [emptyCache]
  split <;> rfl

theorem emptyCache_sent : world.emptyCache.sent = world.sent := by
  simp only [emptyCache]
  split <;> rfl

variable {world}

/-- Who points the service at another index changes the client and drops everything cached. -/
theorem service_of_setBaseUrl {url : List Char} {moved : World} (h : world.setBaseUrl url = .ok moved) :
    ∃ client, world.service.client.withBaseUrl url = .ok client ∧
      moved.service = { world.service with client, cache := world.service.cache.clear } ∧
      moved.received = world.received ∧ moved.sent = world.sent := by
  unfold setBaseUrl at h
  cases hclient : world.service.client.withBaseUrl url with
  | error fault =>
      rw [hclient] at h
      cases h
  | ok client =>
      rw [hclient] at h
      refine ⟨client, rfl, ?_⟩
      rw [← Except.ok.inj h]
      exact ⟨emptyCache_service _, emptyCache_received _, emptyCache_sent _⟩

end World

/-! ### What an entry stands for -/

/-- An entry for a key is vouched for by an answer among those received: one that carries the document from
which the view was derived, under the spelling of the call that fetched it, or one that told whether the
index can be reached. -/
inductive Vouched (received : List Receipt) (base : List Char) (lifetime : Number) :
    String → CachedView → Number → Number → Prop where
  | view {view : Lookup} {spelling : String} {document : List (String × Json)} {found : CachedView}
      {receipt : Receipt} (hreceived : receipt ∈ received)
      (hurl : receipt.request.url = IndexUrl.join base [Work.documentPath spelling])
      (hcarries : receipt.answer.Carries document)
      (hderive : Work.derive view spelling document = .ok found) :
      Vouched received base lifetime (Work.cacheKey view spelling) found (.float receipt.time) lifetime
  | connectivity {receipt : Receipt} {answer : Bool} (hreceived : receipt ∈ received)
      (hurl : receipt.request.url = base) (hreachable : receipt.answer.isReachable = .ok answer) :
      Vouched received base lifetime (CacheKey.connectivity (String.ofList base)) (.reachable answer)
        (.float receipt.time) Work.connectivityLifetime

theorem Vouched.mono {received more : List Receipt} {base : List Char} {lifetime : Number} {key : String}
    {value : CachedView} {birth ttl : Number} (h : Vouched received base lifetime key value birth ttl)
    (hsub : received ⊆ more) : Vouched more base lifetime key value birth ttl := by
  cases h with
  | view hreceived hurl hcarries hderive => exact .view (hsub hreceived) hurl hcarries hderive
  | connectivity hreceived hurl hreachable => exact .connectivity (hsub hreceived) hurl hreachable

/-- Between two calls nobody is at work, no fetch is under way, and every entry is vouched for. -/
structure ServiceRun.Coherent (s : ServiceRun) : Prop where
  idle : s.IsIdle
  inFlight : s.state.service.inFlight = []
  vouched : s.state.service.cache.Every
    (Vouched s.state.received s.state.service.client.baseUrl s.state.service.cache.ttl)

namespace ServiceRun

/-- The cache has an entry for a key that has not expired. -/
def Remembers (s : ServiceRun) (key : String) : Prop :=
  ∃ entry, s.state.service.cache.entry? key = some entry ∧ entry.isValid (.float s.now) = true

/-- The plan of the requests for a package. -/
def planFor (s : ServiceRun) (name : String) : RequestPlan :=
  s.state.service.client.plan (Work.documentPath name)

theorem request_url_planFor (s : ServiceRun) (name : String) : (s.planFor name).request.url
    = IndexUrl.join s.state.service.client.baseUrl [Work.documentPath name] := by
  simp only [planFor, IndexClient.plan, RequestPlan.request]

end ServiceRun

theorem World.cached_of_not_remembers {s : ServiceRun} {key : String} (h : ¬ s.Remembers key) :
    (s.state.cached s.now key).1 = none ∧ (s.state.cached s.now key).2.service
      = { s.state.service with cache := s.state.service.cache.erase key } := by
  have hget : s.state.service.cache.get (.float s.now) key = (none, s.state.service.cache.erase key) :=
    Cache.get_of_not_valid fun entry hentry =>
      Bool.eq_false_iff.mpr fun hvalid => h ⟨entry, hentry, hvalid⟩
  rw [cached_fst, cached_service, hget]
  exact ⟨rfl, rfl⟩

namespace Work

/-- The fetch of a package on its own. -/
theorem exists_alone_fetch (name : String) (task : Nat) (now : Binary64) (world : World) :
    ∃ again now' after, (run (.fetch name)).alone task now world
        = some (now', after, ((world.service.client.plan (documentPath name)).outcome world.today
          (world.answerTo (world.service.client.plan (documentPath name)).url again)).map .document) ∧
      (∀ i < again, ¬ (world.answerTo (world.service.client.plan (documentPath name)).url i).Settles world.today) ∧
      RequestCourse (world.service.client.plan (documentPath name)) world 1 again now' after := by
  obtain ⟨again, now', after, halone, hcourse⟩ :=
    exists_alone_getDocument (documentPath name) {} task now world
  refine ⟨again, now', after, ?_, hcourse⟩
  rw [run, Process.alone_andThen, halone]
  rfl

theorem told_finished (name : String) (result : Except Fault (List (String × Json))) :
    told name (.finished (result.map .document)) = result.mapError (·.forPackage name) := by
  cases result <;> rfl

/-- What is made of a document shows that there is one, whoever a failure would have been told. -/
theorem exists_of_mapError_bind {result : Except Fault (List (String × Json))} {f : Fault → Fault}
    {g : List (String × Json) → Except Fault CachedView} {found : CachedView}
    (h : (result.mapError f).bind g = .ok found) :
    ∃ document, result = .ok document ∧ g document = .ok found := by
  cases result with
  | error fault => cases h
  | ok document => exact ⟨document, rfl, h⟩

/-- The conclusion of a lookup ends at once, with the view in the cache if there is one. -/
theorem exists_ends_conclude (s : ServiceRun) (view : Lookup) (name : String)
    (reply : CachedView → Outcome) (result : TaskResult Outcome) :
    ∃ after outcome, s.Ends program (conclude view name reply result) after outcome ∧
      ((∃ fault, (told name result).bind (derive view name) = .error fault ∧ outcome = .error fault ∧
        after = s) ∨
      ∃ found, (told name result).bind (derive view name) = .ok found ∧ outcome = reply found ∧
        after = { s with state := s.state.store s.now (cacheKey view name) found }) := by
  unfold conclude
  cases (told name result).bind (derive view name) with
  | error fault => exact ⟨s, _, Scheduler.ends_done _, .inl ⟨fault, rfl, rfl, rfl⟩⟩
  | ok found =>
      exact ⟨_, _, Scheduler.ends_look (Scheduler.ends_change (Scheduler.ends_done _)),
        .inr ⟨found, rfl, rfl, rfl⟩⟩

/-- The fetch for a lookup that missed has just ended. The requests and the last answer are on record, and the key
is forgotten. -/
structure HasFetched (s joined : ServiceRun) (view : Lookup) (name : String) (again : Nat) : Prop where
  idle : joined.IsIdle
  service : joined.state.service = { s.state.service with
    client := { s.state.service.client with isOpen := true }
    cache := s.state.service.cache.erase (cacheKey view name) }
  sent : joined.state.sent = s.state.sent ++ List.replicate (again + 1) (s.planFor name).request
  received : ∃ earlier, joined.state.received = s.state.received ++ earlier ++
    [⟨joined.now, (s.planFor name).request, s.state.answerTo (s.planFor name).url again⟩]

/-- A lookup that misses fetches the document and goes on to its conclusion. None but the last answer to its
requests settles them. -/
theorem exists_hasFetched {s : ServiceRun} (hidle : s.IsIdle) (hfetch : s.state.service.inFlight = [])
    (view : Lookup) (name : String) (reply : CachedView → Outcome)
    (hmiss : ¬ s.Remembers (cacheKey view name)) :
    ∃ joined again, HasFetched s joined view name again ∧
      (∀ i < again, ¬ (s.state.answerTo (s.planFor name).url i).Settles s.state.today) ∧
      ∀ after outcome, joined.Ends program (conclude view name reply (.finished (((s.planFor name).outcome
        s.state.today (s.state.answerTo (s.planFor name).url again)).map .document))) after outcome →
      s.Ends program (inquire view name reply) after outcome := by
  obtain ⟨hcached, hservice⟩ := World.cached_of_not_remembers hmiss
  obtain ⟨looked, hlooked⟩ : ∃ looked, looked = (s.state.cached s.now (cacheKey view name)).2 := ⟨_, rfl⟩
  rw [← hlooked] at hservice
  have hnone : looked.service.inFlight.find? (·.1 == normalized name) = none := by
    rw [hservice]
    simp [hfetch]
  obtain ⟨again, now', world, halone, hearlier, hcourse⟩ :=
    exists_alone_fetch name s.tasks.size s.now (enlist (normalized name) s.tasks.size looked)
  obtain ⟨joined, hjoined, rfl, hstate, hjoin⟩ :=
    (hidle.withState looked).exists_joined (α := Outcome) program (.fetch name) (enlist (normalized name)) halone
  have hplan : (enlist (normalized name) s.tasks.size looked).service.client.plan (documentPath name)
      = s.planFor name := by
    rw [ServiceRun.planFor, enlist, World.withService, hservice]
  have hanswer (i : Nat) : (enlist (normalized name) s.tasks.size looked).answerTo (s.planFor name).url i
      = s.state.answerTo (s.planFor name).url i := by
    rw [World.answerTo, enlist, World.withService, hlooked, World.cached_script, World.answerTo]
  have htoday : (enlist (normalized name) s.tasks.size looked).today = s.state.today := by
    rw [enlist, World.withService, hlooked, World.cached_today]
  rw [hplan] at hcourse hjoin hearlier
  rw [hanswer, htoday] at hjoin
  simp only [hanswer, htoday] at hearlier
  refine ⟨joined, again, ⟨hjoined, ?_, ?_, ?_⟩, hearlier, fun after outcome hafter => ?_⟩
  · rw [hstate]
    simp [program, World.withService, hcourse.service, enlist, hservice, hfetch]
  · rw [hstate, ← World.cached_sent s.state s.now (cacheKey view name), ← hlooked]
    exact hcourse.sent
  · obtain ⟨earlier, hreceived⟩ := hcourse.received
    rw [hanswer] at hreceived
    rw [hstate, ← World.cached_received s.state s.now (cacheKey view name), ← hlooked]
    exact ⟨earlier, hreceived⟩
  · refine Scheduler.ends_look (Scheduler.ends_change ?_)
    rw [hcached, sharedFetch_eq]
    refine Scheduler.ends_look ?_
    simp only [← hlooked, hnone]
    exact hjoin (fun _ => conclude view name reply) after outcome hafter

/-- **A miss.** A lookup for which the cache has nothing requests the document of the package and comes to what
the last answer comes to; it stores the view if there is one. -/
theorem exists_ends_inquire_miss {s : ServiceRun} (hidle : s.IsIdle) (hfetch : s.state.service.inFlight = [])
    (view : Lookup) (name : String) (reply : CachedView → Outcome)
    (hmiss : ¬ s.Remembers (cacheKey view name)) :
    ∃ after outcome, s.Ends program (inquire view name reply) after outcome ∧ after.IsIdle ∧
      after.state.service.inFlight = [] ∧
      after.state.service.client = { s.state.service.client with isOpen := true } ∧
      ∃ (again : Nat) (receipt : Receipt),
        after.state.sent = s.state.sent ++ List.replicate (again + 1) (s.planFor name).request ∧
        (∃ earlier, after.state.received = s.state.received ++ earlier ++ [receipt]) ∧
        receipt.request = (s.planFor name).request ∧ receipt.time = after.now ∧
        receipt.answer = s.state.answerTo (s.planFor name).url again ∧
        (∀ document, receipt.answer.Carries document → outcome = (derive view name document).bind reply) ∧
        ((∃ fault, outcome = .error fault ∧
          after.state.service.cache = s.state.service.cache.erase (cacheKey view name)) ∨
        ∃ document found, receipt.answer.Carries document ∧ derive view name document = .ok found ∧
          outcome = reply found ∧ after.state.service.cache
            = (s.state.service.cache.erase (cacheKey view name)).set (.float after.now)
              (cacheKey view name) found) := by
  obtain ⟨joined, again, hfetched, -, hends⟩ := exists_hasFetched hidle hfetch view name reply hmiss
  obtain ⟨after, outcome, hafter, hconclusion⟩ := exists_ends_conclude joined view name reply
    (.finished (((s.planFor name).outcome s.state.today (s.state.answerTo (s.planFor name).url again)).map .document))
  rw [told_finished] at hconclusion
  have hinFlight : joined.state.service.inFlight = [] := by
    rw [hfetched.service]
    exact hfetch
  -- A document that has come is what the view is made of, whatever becomes of the view.
  have hcarried : ∀ document, (s.state.answerTo (s.planFor name).url again).Carries document →
      outcome = (derive view name document).bind reply := by
    intro document hcarries
    rw [RequestPlan.outcome_eq_ok_iff.mpr hcarries] at hconclusion
    rcases hconclusion with ⟨fault, hfault, rfl, -⟩ | ⟨found, hfound, rfl, -⟩
    · exact (congrArg (Except.bind · reply) hfault).symm
    · exact (congrArg (Except.bind · reply) hfound).symm
  rcases hconclusion with ⟨fault, -, rfl, rfl⟩ | ⟨found, hfound, rfl, rfl⟩
  · exact ⟨_, _, hends _ _ hafter, hfetched.idle, hinFlight, by rw [hfetched.service], again, _, hfetched.sent,
      hfetched.received, rfl, rfl, rfl, hcarried, .inl ⟨fault, rfl, by rw [hfetched.service]⟩⟩
  · obtain ⟨document, hdocument, hderive⟩ := exists_of_mapError_bind hfound
    exact ⟨_, _, hends _ _ hafter, hfetched.idle.withState _, hinFlight,
      by rw [World.store_service, hfetched.service], again, _, hfetched.sent, hfetched.received, rfl, rfl, rfl,
      hcarried, .inr ⟨document, found, RequestPlan.outcome_eq_ok_iff.mp hdocument, hderive, rfl,
        by rw [World.store_service, hfetched.service]⟩⟩

/-- **A hit.** A lookup for which the cache has an entry that has not expired replies with it and requests
nothing. -/
theorem ends_inquire_hit {s : ServiceRun} {view : Lookup} {name : String} (reply : CachedView → Outcome)
    {entry : CacheEntry Number CachedView}
    (hentry : s.state.service.cache.entry? (cacheKey view name) = some entry)
    (hvalid : entry.isValid (.float s.now) = true) :
    s.Ends program (inquire view name reply)
      { s with state := (s.state.cached s.now (cacheKey view name)).2 } (reply entry.data) := by
  refine Scheduler.ends_look (Scheduler.ends_change ?_)
  rw [World.cached_fst, Cache.get_of_valid hentry hvalid]
  exact Scheduler.ends_done _

theorem ends_perform {s after : ServiceRun} {call : ServiceCall} {view : Lookup} {name : String}
    {outcome : Outcome} (hsought : call.sought? s.state.service.includePre = some (view, name))
    (hends : s.Ends program (inquire view name call.replyTo) after outcome) :
    s.Ends program (perform call).run after outcome := by
  obtain ⟨turns, hturns⟩ := hends
  refine ⟨turns, fun fuel => ?_⟩
  rw [Scheduler.run, advance_perform hsought]
  exact hturns fuel

/-! ### Whether the index can be reached -/

/-- The key under which it is remembered whether an index can be reached. -/
def reachKey (client : IndexClient) : String := CacheKey.connectivity (String.ofList client.baseUrl)

/-- The request that asks whether an index can be reached. -/
def pinged (client : IndexClient) : SentRequest := ⟨client.baseUrl, client.timeout, none⟩

theorem exists_alone_ping (task : Nat) (now : Binary64) (world : World) :
    ∃ now' log, (ping).run.alone task now world = some (now',
      { world.exchanged ⟨now', task⟩ (pinged world.service.client) with log },
      (world.answerTo world.service.client.baseUrl 0).isReachable) := by
  obtain ⟨now', hsend⟩ := alone_send task (pinged world.service.client) now world
  have hrequest : (⟨world.service.client.baseUrl, (none : Option Number).getD world.service.client.timeout,
    none⟩ : SentRequest) = pinged world.service.client := rfl
  have hurl : (pinged world.service.client).url = world.service.client.baseUrl := rfl
  unfold ping
  simp only [Process.run_bind, Process.run_lift, ofService, Process.read, Process.look_andThen,
    Process.done_andThen, Process.andThen_assoc, Process.alone_look, hrequest, Process.alone_andThen, hsend,
    Option.bind_some, hurl]
  cases world.answerTo world.service.client.baseUrl 0 <;> exact ⟨now', _, rfl⟩

theorem exists_alone_noteReachable (key : String) (answer : Bool) (task : Nat) (now : Binary64)
    (world : World) : ∃ log, (noteReachable key answer).alone task now world = some (now,
      { world.store now key (.reachable answer) (some connectivityLifetime) with log }, ()) := by
  cases answer <;> exact ⟨_, rfl⟩

/-- What is done when it is not remembered whether the index can be reached. -/
def askReachable (key : String) : Work Outcome :=
  (ping).run.andThen fun
    | .error fault => .done (.error fault)
    | .ok answer => (noteReachable key answer).andThen fun _ => .done (.ok (.flag answer))

theorem perform_connectivity_run : (perform .connectivity).run =
    .look fun _ world => .look fun moment state =>
      .change (fun _ => (state.cached moment.now (reachKey world.service.client)).2) <|
        match (state.cached moment.now (reachKey world.service.client)).1 with
        | some (.reachable answer) => .done (.ok (.flag answer))
        | _ => askReachable (reachKey world.service.client) := by
  rw [perform, run_reply]
  unfold connectivity
  simp only [Process.run_bind, Process.run_lift, ofService, Process.read, Process.update,
    Process.look_andThen, Process.change_andThen, Process.done_andThen]
  congr 1
  funext moment world
  congr 1
  funext moment state
  congr 1
  have hask : ((do
      let answer ← ping
      ExceptT.lift (noteReachable (reachKey world.service.client) answer)
      return answer : FallibleWork Bool).run.andThen fun result =>
        .done (result.bind fun answer => .ok (Reply.flag answer)))
      = askReachable (reachKey world.service.client) := by
    unfold askReachable
    simp only [Process.run_bind, Process.run_lift, Process.andThen_assoc, Process.done_andThen]
    congr 1
    funext result
    cases result with
    | error fault => rfl
    | ok answer =>
        simp only [Process.andThen_assoc]
        rfl
  rw [show CacheKey.connectivity (String.ofList world.service.client.baseUrl)
    = reachKey world.service.client from rfl]
  cases (state.cached moment.now (reachKey world.service.client)).1 with
  | none => exact hask
  | some view => cases view <;> first | exact hask | rfl

/-- Asking once whether the index can be reached, and remembering the answer if there is one. -/
theorem exists_alone_askReachable (task : Nat) (now : Binary64) (world : World) :
    ∃ now' after, (askReachable (reachKey world.service.client)).alone task now world = some (now', after,
        (world.answerTo world.service.client.baseUrl 0).isReachable.map .flag) ∧
      after.sent = world.sent ++ [pinged world.service.client] ∧
      after.received = world.received ++ [⟨now', pinged world.service.client,
        world.answerTo world.service.client.baseUrl 0⟩] ∧
      after.service = { world.service with
        client := { world.service.client with isOpen := true }
        cache := match (world.answerTo world.service.client.baseUrl 0).isReachable with
          | .ok answer => world.service.cache.set (.float now') (reachKey world.service.client)
              (.reachable answer) (some connectivityLifetime)
          | .error _ => world.service.cache } := by
  obtain ⟨now', log, hping⟩ := exists_alone_ping task now world
  rw [askReachable, Process.alone_andThen, hping, Option.bind_some]
  cases hreachable : (world.answerTo world.service.client.baseUrl 0).isReachable with
  | error fault => exact ⟨now', _, rfl, rfl, rfl, rfl⟩
  | ok answer =>
      obtain ⟨log', hnote⟩ := exists_alone_noteReachable (reachKey world.service.client) answer task now'
        { world.exchanged ⟨now', task⟩ (pinged world.service.client) with log }
      simp only [Process.alone_andThen, hnote, Option.bind_some]
      exact ⟨now', _, rfl, rfl, rfl, rfl⟩

end Work

/-! ### What a call does -/

/-- The answer came at most a lifetime ago; one that has just come counts whatever the clock shows. -/
def Receipt.IsRecent (receipt : Receipt) (now : Binary64) (lifetime : Number) : Prop :=
  receipt.time = now ∨ Number.float now - .float receipt.time ≤ lifetime

theorem Receipt.IsRecent.age_le {receipt : Receipt} {q : Rat} {lifetime : Number}
    (h : receipt.IsRecent (.finite q) lifetime) (hlifetime : 0 ≤ lifetime) :
    Number.float (.finite q) - .float receipt.time ≤ lifetime := by
  rcases h with h | h
  · have hzero : (Binary64.finite q).sub (.finite q) = .finite 0 := by
      by_cases hq : q = 0
      · simp [Binary64.sub, Binary64.neg, hq, Binary64.add, Binary64.toRat?, Binary64.ofRat,
          Rat.add_zero]
      · simp [Binary64.sub, Binary64.neg, hq, Binary64.add, Binary64.toRat?, Binary64.ofRat,
          Rat.add_neg_cancel]
    rw [h]
    change (Number.float ((Binary64.finite q).sub (.finite q))).le lifetime = true
    rw [hzero]
    cases lifetime with
    | float x => exact hlifetime
    | int n =>
        have hn : 0 ≤ n := of_decide_eq_true hlifetime
        exact decide_eq_true (Rat.intCast_nonneg.mpr hn)
  · exact h

/-- The course of a call that looks up a view. -/
structure LookupCourse (s after : ServiceRun) (view : Lookup) (name : String)
    (reply : CachedView → Outcome) (outcome : Outcome) : Prop where
  /-- Nothing is requested if the view is remembered. -/
  hit : s.Remembers (Work.cacheKey view name) → after.state.sent = s.state.sent
  /-- The document of the package is requested, once or more, if the view is not remembered. -/
  miss : ¬ s.Remembers (Work.cacheKey view name) → ∃ again,
    after.state.sent = s.state.sent ++ List.replicate (again + 1) (s.planFor name).request
  /-- The reply is the view of a document that the index has sent to a call for the same package. -/
  served : ∀ value, outcome = .ok value → ∃ found spelling document, ∃ receipt ∈ after.state.received,
    reply found = .ok value ∧ Work.normalized spelling = Work.normalized name ∧
      receipt.request.url = IndexUrl.join s.state.service.client.baseUrl [Work.documentPath spelling] ∧
      receipt.answer.Carries document ∧ Work.derive view spelling document = .ok found ∧
      receipt.IsRecent after.now s.state.service.cache.ttl
  /-- A failure stores nothing, so the view is not remembered after it. -/
  failed : ∀ fault, outcome = .error fault →
    after.state.service.cache = s.state.service.cache.erase (Work.cacheKey view name)

/-- The course of a call that asks whether the index can be reached. -/
structure ReachCourse (s after : ServiceRun) (outcome : Outcome) : Prop where
  hit : s.Remembers (Work.reachKey s.state.service.client) → after.state.sent = s.state.sent
  miss : ¬ s.Remembers (Work.reachKey s.state.service.client) →
    after.state.sent = s.state.sent ++ [Work.pinged s.state.service.client]
  /-- The reply is what an answer has shown no longer ago than such an answer is remembered, and it is
  remembered from then on, whichever it is. -/
  served : ∀ value, outcome = .ok value → ∃ answer, ∃ receipt ∈ after.state.received,
    value = .flag answer ∧ receipt.request.url = s.state.service.client.baseUrl ∧
      receipt.answer.isReachable = .ok answer ∧ receipt.IsRecent after.now 30 ∧
      ∃ entry, after.state.service.cache.entry? (Work.reachKey s.state.service.client) = some entry ∧
        entry.data = .reachable answer ∧ entry.createdAt = .float receipt.time ∧ entry.ttl = 30
  failed : ∀ fault, outcome = .error fault →
    after.state.service.cache = s.state.service.cache.erase (Work.reachKey s.state.service.client)

theorem ServiceRun.not_remembers_of_erase {s after : ServiceRun} {key : String}
    (h : after.state.service.cache = s.state.service.cache.erase key) : ¬ after.Remembers key := by
  rintro ⟨entry, hentry, -⟩
  rw [h, Cache.entry?_erase] at hentry
  cases hentry

theorem exists_of_map_eq_ok {α β : Type} {result : Except Fault α} {f : α → β} {value : β}
    (h : result.map f = .ok value) : ∃ source, f source = value := by
  cases result with
  | error fault => cases h
  | ok source => exact ⟨source, by simpa [Except.map] using h⟩

namespace ServiceRun.Coherent

variable {s : ServiceRun} {view : Lookup} {name : String}

/-- The entry of a view is the view of a document of the package. -/
theorem exists_document (h : s.Coherent) {entry : CacheEntry Number CachedView}
    (hentry : s.state.service.cache.entry? (Work.cacheKey view name) = some entry) :
    ∃ spelling document, ∃ receipt ∈ s.state.received, Work.normalized spelling = Work.normalized name ∧
      receipt.request.url = IndexUrl.join s.state.service.client.baseUrl [Work.documentPath spelling] ∧
      receipt.answer.Carries document ∧ Work.derive view spelling document = .ok entry.data ∧
      entry.createdAt = .float receipt.time ∧ entry.ttl = s.state.service.cache.ttl := by
  obtain ⟨data, createdAt, ttl, count, accessed⟩ := entry
  have hvouched : Vouched _ _ _ _ data createdAt ttl := h.vouched _ _ (Cache.mem_entries_of_entry hentry)
  generalize hkey : Work.cacheKey view name = key at hvouched
  cases hvouched with
  | view hreceived hurl hcarries hderive =>
      obtain ⟨rfl, hname⟩ := Work.cacheKey_inj hkey
      exact ⟨_, _, _, hreceived, hname.symm, hurl, hcarries, hderive, rfl, rfl⟩
  | connectivity => exact absurd hkey (Work.cacheKey_ne_connectivity view name _)

/-- The entry of the key of the index is what an answer has shown. -/
theorem exists_answer (h : s.Coherent) {entry : CacheEntry Number CachedView}
    (hentry : s.state.service.cache.entry? (Work.reachKey s.state.service.client) = some entry) :
    ∃ answer, ∃ receipt ∈ s.state.received, receipt.request.url = s.state.service.client.baseUrl ∧
      receipt.answer.isReachable = .ok answer ∧ entry.data = .reachable answer ∧
      entry.createdAt = .float receipt.time ∧ entry.ttl = 30 := by
  obtain ⟨data, createdAt, ttl, count, accessed⟩ := entry
  have hvouched : Vouched _ _ _ _ data createdAt ttl := h.vouched _ _ (Cache.mem_entries_of_entry hentry)
  generalize hkey : Work.reachKey s.state.service.client = key at hvouched
  cases hvouched with
  | view => exact absurd hkey.symm (Work.cacheKey_ne_connectivity _ _ _)
  | connectivity hreceived hurl hreachable =>
      exact ⟨_, _, hreceived, hurl, hreachable, rfl, rfl, rfl⟩

/-- A call has a reply whenever there is the view that it asks for. -/
theorem exists_replyTo {call : ServiceCall} {preferred : Bool} {document : List (String × Json)}
    {spelling : String} {found : CachedView} (hsought : call.sought? preferred = some (view, name))
    (hderive : Work.derive view spelling document = .ok found) : ∃ value, call.replyTo found = .ok value := by
  cases view with
  | metadata includePre =>
      obtain ⟨overview, rfl⟩ := exists_of_map_eq_ok hderive
      cases call <;> first | exact ⟨_, rfl⟩ | simp [ServiceCall.sought?] at hsought
  | releases includePre =>
      obtain ⟨list, rfl⟩ := exists_of_map_eq_ok hderive
      cases call <;> first | exact ⟨_, rfl⟩ | simp [ServiceCall.sought?] at hsought
  | info =>
      obtain ⟨profile, rfl⟩ := exists_of_map_eq_ok hderive
      cases call <;> first | exact ⟨_, rfl⟩ | simp [ServiceCall.sought?] at hsought

/-- Looking at the cache leaves it coherent. -/
theorem looked (h : s.Coherent) (key : String) :
    Coherent { s with state := (s.state.cached s.now key).2 } := by
  refine ⟨h.idle.withState _, ?_, ?_⟩
  · rw [World.cached_service]
    exact h.inFlight
  · rw [World.cached_service, World.cached_received, Cache.ttl_get]
    exact h.vouched.get _ _

theorem vouched_erase (h : s.Coherent) {received : List Receipt} (hsub : s.state.received ⊆ received)
    (key : String) : (s.state.service.cache.erase key).Every
      (Vouched received s.state.service.client.baseUrl s.state.service.cache.ttl) :=
  (h.vouched.mono fun _ _ _ _ hold => hold.mono hsub).erase _

theorem exists_lookupCourse_hit (h : s.Coherent) {call : ServiceCall}
    (hsought : call.sought? s.state.service.includePre = some (view, name))
    (hremembers : s.Remembers (Work.cacheKey view name)) :
    ∃ (after : ServiceRun) (outcome : Outcome),
      s.Ends Work.program (Work.perform call).run after outcome ∧ after.Coherent ∧
        LookupCourse s after view name call.replyTo outcome := by
  obtain ⟨entry, hentry, hvalid⟩ := id hremembers
  obtain ⟨spelling, document, receipt, hreceived, hname, hurl, hcarries, hderive, hbirth, httl⟩ :=
    h.exists_document hentry
  obtain ⟨value, hvalue⟩ := exists_replyTo hsought hderive
  refine ⟨_, _, Work.ends_perform hsought (Work.ends_inquire_hit call.replyTo hentry hvalid), h.looked _,
    fun _ => World.cached_sent .., fun hmiss => absurd hremembers hmiss, ?_, ?_⟩
  · intro reply hreply
    refine ⟨entry.data, spelling, document, receipt, ?_, hreply, hname, hurl, hcarries, hderive, .inr ?_⟩
    · rw [World.cached_received]
      exact hreceived
    · rw [CacheEntry.isValid, decide_eq_true_eq, hbirth, httl] at hvalid
      exact hvalid
  · intro fault hfault
    rw [hvalue] at hfault
    cases hfault

theorem exists_lookupCourse_miss (h : s.Coherent) {call : ServiceCall}
    (hsought : call.sought? s.state.service.includePre = some (view, name))
    (hmiss : ¬ s.Remembers (Work.cacheKey view name)) :
    ∃ (after : ServiceRun) (outcome : Outcome),
      s.Ends Work.program (Work.perform call).run after outcome ∧ after.Coherent ∧
        LookupCourse s after view name call.replyTo outcome := by
  obtain ⟨after, outcome, hends, hidle, hinFlight, hclient, again, receipt, hsent, ⟨earlier, hreceived⟩,
    hrequest, htime, -, -, hresult⟩ :=
    Work.exists_ends_inquire_miss h.idle h.inFlight view name call.replyTo hmiss
  have hurl : receipt.request.url
      = IndexUrl.join s.state.service.client.baseUrl [Work.documentPath name] := by
    rw [hrequest, ServiceRun.request_url_planFor]
  have hmem : receipt ∈ after.state.received := by simp [hreceived]
  have hsub : s.state.received ⊆ after.state.received := fun other hother => by simp [hreceived, hother]
  have hvouched := h.vouched_erase hsub (Work.cacheKey view name)
  refine ⟨after, outcome, Work.ends_perform hsought hends, ⟨hidle, hinFlight, ?_⟩,
    fun hhit => absurd hhit hmiss, fun _ => ⟨again, hsent⟩, ?_, ?_⟩
  · rw [hclient]
    rcases hresult with ⟨fault, -, hcache⟩ | ⟨document, found, hcarries, hderive, -, hcache⟩
    · rw [hcache]
      exact hvouched
    · rw [hcache, Cache.ttl_set]
      exact hvouched.set (htime ▸ .view hmem hurl hcarries hderive)
  · intro value hvalue
    rcases hresult with ⟨fault, rfl, -⟩ | ⟨document, found, hcarries, hderive, rfl, -⟩
    · cases hvalue
    · exact ⟨found, name, document, receipt, hmem, hvalue, rfl, hurl, hcarries, hderive, .inl htime⟩
  · intro fault hfault
    rcases hresult with ⟨-, -, hcache⟩ | ⟨document, found, hcarries, hderive, rfl, -⟩
    · exact hcache
    · obtain ⟨value, hvalue⟩ := exists_replyTo hsought hderive
      rw [hvalue] at hfault
      cases hfault

/-- **A lookup.** -/
theorem exists_lookupCourse (h : s.Coherent) {call : ServiceCall}
    (hsought : call.sought? s.state.service.includePre = some (view, name)) :
    ∃ (after : ServiceRun) (outcome : Outcome),
      s.Ends Work.program (Work.perform call).run after outcome ∧ after.Coherent ∧
        LookupCourse s after view name call.replyTo outcome := by
  by_cases hremembers : s.Remembers (Work.cacheKey view name)
  · exact h.exists_lookupCourse_hit hsought hremembers
  · exact h.exists_lookupCourse_miss hsought hremembers

theorem exists_reachCourse_hit (h : s.Coherent)
    (hremembers : s.Remembers (Work.reachKey s.state.service.client)) :
    ∃ (after : ServiceRun) (outcome : Outcome),
      s.Ends Work.program (Work.perform .connectivity).run after outcome ∧ after.Coherent ∧
        ReachCourse s after outcome := by
  rw [Work.perform_connectivity_run]
  obtain ⟨entry, hentry, hvalid⟩ := id hremembers
  obtain ⟨answer, receipt, hreceived, hurl, hreachable, hdata, hbirth, httl⟩ := h.exists_answer hentry
  refine ⟨{ s with state := (s.state.cached s.now (Work.reachKey s.state.service.client)).2 },
    .ok (.flag answer), ?_, h.looked _, fun _ => World.cached_sent ..,
    fun hmiss => absurd hremembers hmiss, ?_, fun fault hfault => by cases hfault⟩
  · refine Scheduler.ends_look (Scheduler.ends_look (Scheduler.ends_change ?_))
    rw [World.cached_fst, Cache.get_of_valid hentry hvalid, hdata]
    exact Scheduler.ends_done _
  · rintro value ⟨⟩
    refine ⟨answer, receipt, ?_, rfl, hurl, hreachable, .inr ?_, ?_⟩
    · rw [World.cached_received]
      exact hreceived
    · rw [CacheEntry.isValid, decide_eq_true_eq, hbirth, httl] at hvalid
      exact hvalid
    · rw [World.cached_service]
      exact ⟨_, Cache.entry?_get_of_valid hentry hvalid, hdata, hbirth, httl⟩

theorem exists_reachCourse_miss (h : s.Coherent)
    (hmiss : ¬ s.Remembers (Work.reachKey s.state.service.client)) :
    ∃ (after : ServiceRun) (outcome : Outcome),
      s.Ends Work.program (Work.perform .connectivity).run after outcome ∧ after.Coherent ∧
        ReachCourse s after outcome := by
  rw [Work.perform_connectivity_run]
  obtain ⟨hcached, hservice⟩ := World.cached_of_not_remembers hmiss
  obtain ⟨now', world, halone, hsent, hreceived, hafter⟩ := Work.exists_alone_askReachable 0 s.now
    (s.state.cached s.now (Work.reachKey s.state.service.client)).2
  rw [hservice] at halone hsent hreceived hafter
  rw [World.cached_sent] at hsent
  rw [World.cached_received] at hreceived
  obtain ⟨after, hidle, hnow, hstate, hends⟩ := Scheduler.exists_ends_of_alone Work.program
    (h.idle.withState (s.state.cached s.now (Work.reachKey s.state.service.client)).2) halone
  rw [← hstate] at hsent hreceived hafter
  generalize (s.state.cached s.now (Work.reachKey s.state.service.client)).2.answerTo
    s.state.service.client.baseUrl 0 = answer at hends hreceived hafter
  have hmem : (⟨now', Work.pinged s.state.service.client, answer⟩ : Receipt) ∈ after.state.received := by
    simp [hreceived]
  have hsub : s.state.received ⊆ after.state.received := fun other hother => by simp [hreceived, hother]
  have hvouched := h.vouched_erase hsub (Work.reachKey s.state.service.client)
  refine ⟨after, answer.isReachable.map .flag,
    Scheduler.ends_look (Scheduler.ends_look (Scheduler.ends_change ?_)), ?_⟩
  · rw [hcached]
    exact hends
  -- Whether the answer shows something decides what is stored and what is replied.
  cases hreachable : answer.isReachable with
  | error fault =>
      rw [hreachable] at hafter
      refine ⟨⟨hidle, ?_, ?_⟩, fun hhit => absurd hhit hmiss, fun _ => hsent,
        fun value hvalue => (by cases hvalue), fun _ _ => ?_⟩
      · rw [hafter]
        exact h.inFlight
      · rw [hafter]
        exact hvouched
      · rw [hafter]
  | ok reached =>
      rw [hreachable] at hafter
      refine ⟨⟨hidle, ?_, ?_⟩, fun hhit => absurd hhit hmiss, fun _ => hsent, ?_,
        fun fault hfault => by cases hfault⟩
      · rw [hafter]
        exact h.inFlight
      · rw [hafter, Cache.ttl_set]
        exact hvouched.set (.connectivity hmem rfl hreachable)
      · rintro value ⟨⟩
        refine ⟨reached, _, hmem, rfl, rfl, hreachable, .inl hnow.symm, ?_⟩
        rw [hafter]
        exact ⟨_, Cache.entry?_set _ _ _ _ _, rfl, rfl, rfl⟩

/-- **Asking for the index.** -/
theorem exists_reachCourse (h : s.Coherent) :
    ∃ (after : ServiceRun) (outcome : Outcome),
      s.Ends Work.program (Work.perform .connectivity).run after outcome ∧ after.Coherent ∧
        ReachCourse s after outcome := by
  by_cases hremembers : s.Remembers (Work.reachKey s.state.service.client)
  · exact h.exists_reachCourse_hit hremembers
  · exact h.exists_reachCourse_miss hremembers

end ServiceRun.Coherent

/-! ### One call after another -/

/-- A call of the lookups, the question whether the index can be reached, and what empties the cache. -/
def ServiceCall.IsPlain : ServiceCall → Prop
  | .metadata .. | .releases .. | .info _ | .latest _ | .connectivity | .emptyCache | .setBaseUrl _ => True
  | _ => False

/-- One run follows another by calls that each begin after the one before has ended. Between two calls the
clock may show any time and the index may come to give any answers. -/
inductive ServiceRun.Follows (start : ServiceRun) : ServiceRun → Prop where
  | start : Follows start start
  | meanwhile {s : ServiceRun} (h : Follows start s) (now : Binary64) (script : AnswerScript)
      (today : DateTime) : Follows start { s with now, state := { s.state with script, today } }
  | call {s after : ServiceRun} {call : ServiceCall} {outcome : Outcome} (h : Follows start s)
      (hplain : call.IsPlain) (hends : s.Ends Work.program (Work.perform call).run after outcome) :
      Follows start after

theorem Work.perform_setBaseUrl_run (url : List Char) : (perform (.setBaseUrl url)).run = .look fun _ world =>
    match world.setBaseUrl url with
    | .ok moved => .change (fun _ => moved) (.done (.ok .nothing))
    | .error fault => .change (fun _ => world) (.done (.error fault)) := by
  unfold perform attempt
  simp only [Process.run_bind, Process.run_mk, Process.update, Process.look_andThen]
  congr 1
  funext moment world
  cases world.setBaseUrl url <;> rfl

namespace ServiceRun.Coherent

variable {s : ServiceRun}

/-- Where nothing is cached nothing has to be vouched for. -/
theorem of_clear (h : s.Coherent) {after : World} {client : IndexClient}
    (hafter : after.service = { s.state.service with client, cache := s.state.service.cache.clear }) :
    ServiceRun.Coherent { s with state := after } := by
  refine ⟨h.idle.withState _, ?_, ?_⟩
  · rw [hafter]
    exact h.inFlight
  · rw [hafter]
    exact Cache.every_clear _ _

theorem exists_emptied (h : s.Coherent) :
    ∃ (after : ServiceRun) (outcome : Outcome),
      s.Ends Work.program (Work.perform .emptyCache).run after outcome ∧ after.Coherent := by
  have hrun : (Work.perform .emptyCache).run = .change World.emptyCache (.done (.ok .nothing)) := rfl
  rw [hrun]
  exact ⟨_, _, Scheduler.ends_change (Scheduler.ends_done _),
    h.of_clear (World.emptyCache_service s.state)⟩

theorem exists_moved (h : s.Coherent) (url : List Char) :
    ∃ (after : ServiceRun) (outcome : Outcome),
      s.Ends Work.program (Work.perform (.setBaseUrl url)).run after outcome ∧ after.Coherent := by
  rw [Work.perform_setBaseUrl_run]
  cases hmoved : s.state.setBaseUrl url with
  | ok moved =>
      obtain ⟨client, -, hservice, -⟩ := World.service_of_setBaseUrl hmoved
      refine ⟨{ s with state := moved }, .ok .nothing, Scheduler.ends_look ?_, h.of_clear hservice⟩
      rw [hmoved]
      exact Scheduler.ends_change (Scheduler.ends_done _)
  | error fault =>
      refine ⟨s, .error fault, Scheduler.ends_look ?_, h⟩
      rw [hmoved]
      exact Scheduler.ends_change (Scheduler.ends_done _)

/-- **A call.** Every call of a sequence ends and leaves the service coherent. -/
theorem exists_course (h : s.Coherent) {call : ServiceCall} (hplain : call.IsPlain) :
    ∃ (after : ServiceRun) (outcome : Outcome),
      s.Ends Work.program (Work.perform call).run after outcome ∧ after.Coherent ∧
        (∀ view name, call.sought? s.state.service.includePre = some (view, name) →
          LookupCourse s after view name call.replyTo outcome) ∧
        (call = .connectivity → ReachCourse s after outcome) := by
  cases hsought : call.sought? s.state.service.includePre with
  | some sought =>
      obtain ⟨view, name⟩ := sought
      obtain ⟨after, outcome, hends, hafter, hcourse⟩ := h.exists_lookupCourse hsought
      refine ⟨after, outcome, hends, hafter, ?_, ?_⟩
      · rintro other spelling ⟨⟩
        exact hcourse
      · rintro rfl
        cases hsought
  | none =>
      cases call with
      | connectivity =>
          obtain ⟨after, outcome, hends, hafter, hcourse⟩ := h.exists_reachCourse
          exact ⟨after, outcome, hends, hafter, (fun _ _ hsome => by cases hsome), fun _ => hcourse⟩
      | emptyCache =>
          obtain ⟨after, outcome, hends, hafter⟩ := h.exists_emptied
          exact ⟨after, outcome, hends, hafter, (fun _ _ hsome => by cases hsome),
            fun hcall => by cases hcall⟩
      | setBaseUrl url =>
          obtain ⟨after, outcome, hends, hafter⟩ := h.exists_moved url
          exact ⟨after, outcome, hends, hafter, (fun _ _ hsome => by cases hsome),
            fun hcall => by cases hcall⟩
      | metadata | releases | info | latest => cases hsought
      | _ => exact hplain.elim

/-- What is between two calls neither works nor caches. -/
theorem meanwhile (h : s.Coherent) (now : Binary64) (script : AnswerScript) (today : DateTime) :
    ServiceRun.Coherent { s with now, state := { s.state with script, today } } :=
  ⟨⟨h.idle.ready, h.idle.timers, h.idle.fresh, h.idle.outside⟩, h.inFlight, h.vouched⟩

theorem of_follows {start : ServiceRun} (h : start.Coherent) (hfollows : start.Follows s) : s.Coherent := by
  induction hfollows with
  | start => exact h
  | meanwhile _ now script today ih => exact ih.meanwhile now script today
  | call _ hplain hends ih =>
      obtain ⟨after, outcome, hother, hafter, -⟩ := ih.exists_course hplain
      exact (hends.unique hother).1 ▸ hafter

end ServiceRun.Coherent

/-- Nothing has happened to a service so far: nobody is at work, nothing is cached or being fetched. -/
structure ServiceRun.IsFresh (s : ServiceRun) : Prop where
  idle : s.IsIdle
  inFlight : s.state.service.inFlight = []
  cache : s.state.service.cache.entries = []

theorem ServiceRun.IsFresh.isCoherent {s : ServiceRun} (h : s.IsFresh) : s.Coherent :=
  ⟨h.idle, h.inFlight, fun _ _ hmem => absurd (h.cache ▸ hmem) List.not_mem_nil⟩

/-- **Coherence.** In every sequence of calls, whatever the names, the clock and the answers of the index, each
call ends. Keys tell views apart, whatever texts they are made of. A lookup requests something just if no
entry of its view is there that has not expired; its reply is the view of a document that the index to which
the service points has sent to a call for the same package, and not longer ago than entries live; a failure
leaves no entry. Whether the index can be reached is asked once and then remembered for thirty seconds. -/
theorem ServiceRun.Follows.coherent {start s : ServiceRun} (hstart : start.IsFresh)
    (h : start.Follows s) {call : ServiceCall} (hplain : call.IsPlain) :
    Function.Injective CacheKey.Subject.key ∧ ∃ (after : ServiceRun) (outcome : Outcome),
      s.Ends Work.program (Work.perform call).run after outcome ∧
        (∀ view name, call.sought? s.state.service.includePre = some (view, name) →
          LookupCourse s after view name call.replyTo outcome ∧
            ∀ fault, outcome = .error fault → ¬ after.Remembers (Work.cacheKey view name)) ∧
        (call = .connectivity → ReachCourse s after outcome) := by
  obtain ⟨after, outcome, hends, -, hlookup, hreach⟩ :=
    (hstart.isCoherent.of_follows h).exists_course hplain
  refine ⟨fun _ _ => CacheKey.Subject.key_injective, after, outcome, hends, ?_, hreach⟩
  intro view name hsought
  have hcourse := hlookup view name hsought
  exact ⟨hcourse, fun fault hfault => ServiceRun.not_remembers_of_erase (hcourse.failed fault hfault)⟩

theorem ServiceRun.isFresh_opening (script : AnswerScript) : (ServiceRun.opening script).IsFresh :=
  ⟨Scheduler.isIdle_initial _, rfl, rfl⟩

/-- The first call of all requests something. -/
theorem ServiceRun.Follows.coherent_first :
    let start := ServiceRun.opening (.sequence [])
    ∃ (after : ServiceRun) (outcome : Outcome),
      start.Ends Work.program (Work.perform (.info "Flask")).run after outcome ∧
        ∃ again, after.state.sent = List.replicate (again + 1) (start.planFor "Flask").request := by
  intro start
  obtain ⟨-, after, outcome, hends, hlookup, -⟩ :=
    ServiceRun.Follows.coherent (ServiceRun.isFresh_opening _) (@ServiceRun.Follows.start start)
      (show (ServiceCall.info "Flask").IsPlain from trivial)
  obtain ⟨hcourse, -⟩ := hlookup .info "Flask" rfl
  have hmiss : ¬ start.Remembers (Work.cacheKey .info "Flask") := by
    rintro ⟨entry, hentry, -⟩
    cases hentry
  exact ⟨after, outcome, hends, hcourse.miss hmiss⟩

end ManifestLens
