import ManifestLens.Proofs.Schedule.Company
import ManifestLens.Proofs.Schedule.Solo
import ManifestLens.Proofs.Service.Coherence
import ManifestLens.Proofs.Service.Containment
import ManifestLens.Proofs.Service.Lookup

/-!
# Lookups in company

While a lookup waits, anything may happen to the service: others look up packages too, the cache is emptied,
swept or resized, the settings change. Two things are relied on: the request of a user who has cancelled it stays
cancelled, and under the key of a view there are only views of its kind. The index may answer as it likes, so the
document of a package comes or any failure does.
-/

namespace ManifestLens

/-- A view is of the kind that is asked for. -/
def Lookup.Fits : Lookup → CachedView → Prop
  | .metadata _, .metadata _ | .releases _, .releases _ | .info, .info _ => True
  | _, _ => False

namespace World

/-- Under the key of a view there are only views of its kind. -/
def IsKinded (world : World) : Prop :=
  world.service.cache.Every fun key found _ _ => ∀ view name, key = Work.cacheKey view name → view.Fits found

/-- What others may do to the world: a cancelled request stays cancelled, and views stay under keys of their
kind. -/
structure Lasts (before after : World) : Prop where
  isCancelled : before.isCancelled = true → after.isCancelled = true
  isKinded : before.IsKinded → after.IsKinded

theorem Lasts.refl (world : World) : world.Lasts world := ⟨id, id⟩

theorem Lasts.trans {a b c : World} (hab : a.Lasts b) (hbc : b.Lasts c) : a.Lasts c :=
  ⟨fun h => hbc.isCancelled (hab.isCancelled h), fun h => hbc.isKinded (hab.isKinded h)⟩

theorem lasts_of_eq {before after : World} (hcancelled : after.isCancelled = before.isCancelled)
    (hcache : after.service.cache = before.service.cache) : before.Lasts after :=
  ⟨fun h => hcancelled ▸ h, fun h => by rw [IsKinded, hcache]; exact h⟩

/-- The fetch of a document ends with the document or with a failure. -/
def IsFetched : TaskResult Outcome → Prop
  | .finished (.ok (.document _)) => True
  | .finished (.error fault) => fault ≠ .cancelled
  | _ => False

/-- The three lookups for a package end with the views or with the failure of one of them. -/
def AreLookedUp : GroupResult Outcome → Prop
  | .all [.finished (.ok (.metadata _)), .finished (.ok (.releases _)), .finished (.ok (.info _))] => True
  | .failed (.finished (.error fault)) => fault ≠ .cancelled
  | _ => False

/-- The company of a lookup. -/
def company : Company World Outcome := ⟨Lasts, IsFetched, AreLookedUp⟩

variable (world : World) (now : Binary64)

theorem isCancelled_cached (key : String) : (world.cached now key).2.isCancelled = world.isCancelled := by
  simp only [cached]
  split <;> rfl

theorem lasts_cached (key : String) : world.Lasts (world.cached now key).2 := by
  refine ⟨fun h => (world.isCancelled_cached now key).symm ▸ h, fun h => ?_⟩
  rw [IsKinded, cached_service]
  exact Cache.Every.get h _ _

theorem lasts_store {view : Lookup} {found : CachedView} (name : String) (hfits : view.Fits found) :
    world.Lasts (world.store now (Work.cacheKey view name) found) := by
  refine ⟨id, fun h => ?_⟩
  rw [IsKinded, store_service]
  refine Cache.Every.set h fun other spelling hkey => ?_
  obtain ⟨rfl, -⟩ := Work.cacheKey_inj hkey
  exact hfits

variable {world now}

/-- What is found under the key of a view is of its kind. -/
theorem IsKinded.fits {view : Lookup} {name : String} {found : CachedView} (h : world.IsKinded)
    (hfound : (world.cached now (Work.cacheKey view name)).1 = some found) : view.Fits found := by
  rw [cached_fst] at hfound
  cases hentry : world.service.cache.entry? (Work.cacheKey view name) with
  | none =>
      rw [Cache.get_of_not_valid fun entry hsome => by rw [hentry] at hsome; cases hsome] at hfound
      cases hfound
  | some entry =>
      cases hvalid : entry.isValid (.float now) with
      | false =>
          rw [Cache.get_of_not_valid fun other hsome => by
            rw [hentry] at hsome; cases hsome; exact hvalid] at hfound
          cases hfound
      | true =>
          rw [Cache.get_of_valid hentry hvalid] at hfound
          cases hfound
          exact h _ _ (Cache.mem_entries_of_entry hentry) view name rfl

end World

namespace Work

variable {world after : World} {view : Lookup} {name : String}

/-! ### What a document is made into -/

theorem fits_of_derive {document : List (String × Json)} {found : CachedView}
    (h : derive view name document = .ok found) : view.Fits found := by
  cases view with
  | metadata includePre | releases includePre | info =>
      obtain ⟨value, -, rfl⟩ := map_eq_ok_iff.mp h
      trivial

theorem derive_ne_cancelled {document : List (String × Json)} :
    derive view name document ≠ .error .cancelled := by
  intro h
  rcases derive_eq_error h with ⟨error, herror, -⟩ | hescapes
  · cases herror
  · cases hescapes

/-- What the end of a fetch tells is the document, or a failure that is no cancellation. -/
theorem told_ne_cancelled {result : TaskResult Outcome} (h : World.IsFetched result) :
    told name result ≠ .error .cancelled := by
  cases result with
  | running | cancelled => exact h.elim
  | finished outcome =>
      cases outcome with
      | ok reply =>
          cases reply with
          | document members => exact nofun
          | _ => exact h.elim
      | error fault =>
          cases fault with
          | cancelled => exact absurd rfl h
          | _ => exact nofun

/-! ### Lookups -/

theorem lasts_of_sharedFetch {task : Nat}
    (h : (sharedFetch name).ComesTo World.company world after task) : world.Lasts after := by
  rw [sharedFetch_eq] at h
  obtain ⟨moment, h⟩ := h
  dsimp only at h
  split at h
  · exact h.1 ▸ .refl world
  · obtain ⟨id, h⟩ := h
    exact h.1 ▸ World.lasts_of_eq rfl rfl

/-- **A lookup in company.** It comes to a view of the kind that is asked for, or to a failure that is no
cancellation. -/
theorem comesTo_lookup {result : Except Fault CachedView} (hkinded : world.IsKinded)
    (h : (lookup view name).run.ComesTo World.company world after result) :
    world.Lasts after ∧ ((∃ found, result = .ok found ∧ view.Fits found) ∨
      ∃ fault, result = .error fault ∧ fault ≠ .cancelled) := by
  unfold lookup at h
  obtain ⟨mid, found?, hread, h⟩ := Process.comesTo_bind_lift_iff.mp h
  obtain ⟨moment, hmid, hfound?⟩ := Process.comesTo_update_iff.mp hread
  rw [hmid, hfound?] at h
  have hcached := world.lasts_cached moment.now (cacheKey view name)
  cases hfound : (world.cached moment.now (cacheKey view name)).1 with
  | some found =>
      rw [hfound] at h
      obtain ⟨rfl, rfl⟩ := h
      exact ⟨hcached, .inl ⟨found, rfl, hkinded.fits hfound⟩⟩
  | none =>
      rw [hfound] at h
      -- The document is fetched first, with a wait, and what follows happens at once.
      have hfetched (mid : World) (told? : Except Fault (List (String × Json)))
          (hfetch : (fetchDocument name).run.ComesTo World.company
            (world.cached moment.now (cacheKey view name)).2 mid told?) :
          world.Lasts mid ∧ told? ≠ .error .cancelled := by
        rw [fetchDocument_run] at hfetch
        obtain ⟨asked, task, hshared, fetched, later, hends, hmoves, rfl, rfl⟩ :=
          Process.comesTo_andThen_iff.mp hfetch
        exact ⟨hcached.trans ((lasts_of_sharedFetch hshared).trans hmoves), told_ne_cancelled hends⟩
      rcases Process.comesTo_bind_iff.mp h with ⟨mid, document, hfetch, h⟩ | ⟨fault, hfetch, rfl⟩
      · obtain ⟨hlasts, -⟩ := hfetched mid _ hfetch
        rcases Process.comesTo_bind_iff.mp h with ⟨_, found, ⟨rfl, hderive⟩, hstore⟩ | ⟨fault, ⟨rfl, hderive⟩, rfl⟩
        · have hfits : view.Fits found := fits_of_derive hderive.symm
          obtain ⟨_, -, ⟨moment, rfl, -⟩, rfl, rfl⟩ := Process.comesTo_bind_lift_iff.mp hstore
          exact ⟨hlasts.trans (World.lasts_store _ moment.now name hfits), .inl ⟨found, rfl, hfits⟩⟩
        · refine ⟨hlasts, .inr ⟨fault, rfl, ?_⟩⟩
          rintro rfl
          exact derive_ne_cancelled hderive.symm
      · obtain ⟨hlasts, hfault⟩ := hfetched after _ hfetch
        exact ⟨hlasts, .inr ⟨fault, rfl, fun hcancelled => hfault (hcancelled ▸ rfl)⟩⟩

/-- The metadata view of a package in company: there is the view, or a failure that is no cancellation. -/
theorem comesTo_metadata {includePre : Option Bool} {result : Except Fault PackageOverview}
    (hkinded : world.IsKinded)
    (h : (metadata name includePre).run.ComesTo World.company world after result) :
    world.Lasts after ∧ result ≠ .error .cancelled := by
  unfold metadata at h
  obtain ⟨_, includePre, ⟨moment, rfl, rfl⟩, h⟩ := Process.comesTo_bind_lift_iff.mp h
  rcases Process.comesTo_bind_iff.mp h with ⟨mid, found, hlookup, h⟩ | ⟨fault, hlookup, rfl⟩
  · obtain ⟨hlasts, ⟨_, ⟨⟩, hfits⟩ | ⟨_, ⟨⟩, -⟩⟩ := comesTo_lookup hkinded hlookup
    cases found with
    | metadata overview =>
        obtain ⟨rfl, rfl⟩ := h
        exact ⟨hlasts, nofun⟩
    | _ => exact hfits.elim
  · obtain ⟨hlasts, ⟨_, ⟨⟩, -⟩ | ⟨_, ⟨⟩, hfault⟩⟩ := comesTo_lookup hkinded hlookup
    exact ⟨hlasts, fun hcancelled => hfault (Except.error.inj hcancelled)⟩

end Work

end ManifestLens

/-!
## Lookups of a service at rest

Between two requests of a single user nobody is at work and no fetch is under way. A lookup that begins then ends
with the view or with a failure, whatever the index answers, and leaves the service at rest.
-/

namespace ManifestLens

/-! ### How fetches end -/

namespace RequestPlan

variable {plan : RequestPlan} {today : DateTime} {answer : IndexAnswer}

theorem classify_ne_cancelled : plan.classify today answer ≠ .error .cancelled := by
  cases answer with
  | response response =>
      have hstatus : statusFault? (String.ofList plan.url) today response ≠ some .cancelled := by
        unfold statusFault?
        dsimp only
        split
        · rintro ⟨⟩
        · split
          · rintro ⟨⟩
          · split
            · split <;> rintro ⟨⟩
            · rintro ⟨⟩
      rw [classify]
      split
      · next fault hfault => exact fun h => hstatus (hfault.trans (congrArg some (Except.error.inj h)))
      · rintro ⟨⟩
  | _ => rintro ⟨⟩

theorem outcome_ne_cancelled : plan.outcome today answer ≠ .error .cancelled := by
  rw [outcome]
  cases hclassify : plan.classify today answer with
  | error fault => exact fun h => classify_ne_cancelled (hclassify.trans (congrArg _ (Except.error.inj h)))
  | ok response =>
      rw [Except.bind, document]
      dsimp only
      split <;> rintro ⟨⟩

theorem isFetched_outcome (plan : RequestPlan) (today : DateTime) (answer : IndexAnswer) :
    World.IsFetched (.finished ((plan.outcome today answer).map .document)) := by
  cases houtcome : plan.outcome today answer with
  | ok members => trivial
  | error fault => exact fun h => outcome_ne_cancelled (houtcome.trans (congrArg _ h))

end RequestPlan

theorem Work.fetch_keeps_fetched (name : String) (world : World) :
    (run (.fetch name)).Keeps World.OnlyAsks World.Notes
      (fun _ outcome => World.IsFetched (.finished outcome)) world := by
  have hdocument : (getDocument (documentPath name)).run.Keeps World.OnlyAsks World.Notes
      (fun _ outcome => World.IsFetched (.finished (outcome.map .document))) world := by
    rw [getDocument_run]
    intro moment
    refine (request_keeps (world.service.client.plan (documentPath name)) 1 _ (Nat.zero_le _)).andThen ?_
    intro later result hjudged
    cases result with
    | none => exact nofun
    | some verdict =>
        obtain ⟨today, answer, -, rfl⟩ := hjudged verdict rfl
        exact RequestPlan.isFetched_outcome _ today answer
  exact hdocument.andThen fun later outcome hend => hend

/-- What is made of the end of a fetch is the view, or a failure that is no cancellation. -/
theorem Work.told_bind_derive_ne_cancelled {view : Lookup} {name : String} {result : TaskResult Outcome}
    (h : World.IsFetched result) : (told name result).bind (derive view name) ≠ .error .cancelled := by
  cases htold : told name result with
  | error fault => exact fun hcancelled => told_ne_cancelled h (htold.trans (congrArg _ (Except.error.inj hcancelled)))
  | ok document => exact derive_ne_cancelled

/-! ### The service at rest -/

/-- Nobody is at work, no fetch is under way, and views are cached under keys of their kind. -/
structure ServiceRun.IsResting (s : ServiceRun) : Prop where
  idle : s.IsIdle
  inFlight : s.state.service.inFlight = []
  kinded : s.state.IsKinded

theorem ServiceRun.IsFresh.isResting {s : ServiceRun} (h : s.IsFresh) : s.IsResting :=
  ⟨h.idle, h.inFlight, fun _ _ hmem => absurd (h.cache ▸ hmem) List.not_mem_nil⟩

namespace ServiceRun.IsResting

variable {s : ServiceRun} {view : Lookup}

/-- Only the service counts. -/
theorem withState (h : s.IsResting) {world : World} (hservice : world.service = s.state.service) :
    ServiceRun.IsResting { s with state := world } := by
  refine ⟨h.idle.withState _, ?_, ?_⟩
  · rw [hservice]
    exact h.inFlight
  · rw [World.IsKinded, hservice]
    exact h.kinded

theorem looked (h : s.IsResting) (view : Lookup) (name : String) :
    ServiceRun.IsResting { s with state := (s.state.cached s.now (Work.cacheKey view name)).2 } := by
  refine ⟨h.idle.withState _, ?_, (World.lasts_cached _ _ _).isKinded h.kinded⟩
  rw [World.cached_service]
  exact h.inFlight

theorem fetched (h : s.IsResting) {joined : ServiceRun} {name : String} {again : Nat}
    (hfetched : Work.HasFetched s joined view name again) : ServiceRun.IsResting joined := by
  refine ⟨hfetched.idle, ?_, ?_⟩
  · rw [hfetched.service]
    exact h.inFlight
  · rw [World.IsKinded, hfetched.service]
    exact h.kinded.erase _

/-- **A lookup of a service at rest** ends with what is made of the view, or with a failure. -/
theorem exists_ends_inquire (h : s.IsResting) (name : String) {reply : CachedView → Outcome}
    (hreply : ∀ found, view.Fits found → reply found ≠ .error .cancelled) :
    ∃ (after : ServiceRun) (outcome : Outcome), s.Ends Work.program (Work.inquire view name reply) after outcome ∧
      after.IsResting ∧ outcome ≠ .error .cancelled := by
  by_cases hremembers : s.Remembers (Work.cacheKey view name)
  · obtain ⟨entry, hentry, hvalid⟩ := hremembers
    exact ⟨_, _, Work.ends_inquire_hit reply hentry hvalid, h.looked view name,
      hreply _ (h.kinded _ _ (Cache.mem_entries_of_entry hentry) view name rfl)⟩
  · obtain ⟨joined, again, hfetched, -, hends⟩ :=
      Work.exists_hasFetched h.idle h.inFlight view name reply hremembers
    obtain ⟨after, outcome, hafter, hconclusion⟩ := Work.exists_ends_conclude joined view name reply
      (.finished (((s.planFor name).outcome s.state.today (s.state.answerTo (s.planFor name).url again)).map .document))
    refine ⟨after, outcome, hends _ _ hafter, ?_⟩
    rcases hconclusion with ⟨fault, hfault, rfl, rfl⟩ | ⟨found, hfound, rfl, rfl⟩
    · refine ⟨h.fetched hfetched, fun hcancelled => ?_⟩
      refine Work.told_bind_derive_ne_cancelled (RequestPlan.isFetched_outcome ..) (hfault.trans ?_)
      rw [Except.error.inj hcancelled]
    · rw [Work.told_finished] at hfound
      obtain ⟨document, -, hderive⟩ := Work.exists_of_mapError_bind hfound
      have hfits := Work.fits_of_derive hderive
      have hjoined := h.fetched hfetched
      exact ⟨⟨hjoined.idle.withState _, hjoined.inFlight, (World.lasts_store _ _ name hfits).isKinded hjoined.kinded⟩,
        hreply found hfits⟩

/-- The metadata of a package, for a service at rest. -/
theorem exists_ends_metadata (h : s.IsResting) (name : String) (includePre : Option Bool) :
    ∃ (after : ServiceRun) (result : Except Fault PackageOverview),
      s.Ends Work.program (Work.metadata name includePre).run after result ∧ after.IsResting ∧
        result ≠ .error .cancelled := by
  let reply := (ServiceCall.metadata name includePre).replyTo
  have hreply : ∀ found, (Lookup.metadata (includePre.getD s.state.service.includePre)).Fits found →
      reply found ≠ .error .cancelled := by
    intro found hfits
    cases found with
    | metadata overview => rintro ⟨⟩
    | _ => exact hfits.elim
  obtain ⟨after, outcome, hends, hafter, hne⟩ := h.exists_ends_inquire name hreply
  have hreplied : s.Ends Work.program ((Work.metadata name includePre).run.andThen fun result =>
      .done (result.bind fun overview => .ok (.metadata overview))) after outcome := by
    rw [Work.metadata_run name includePre (fun found => show reply found = _ by cases found <;> rfl)]
    exact Scheduler.ends_look hends
  obtain ⟨result, hresult, rfl⟩ := hreplied.of_andThen_done
  refine ⟨after, result, hresult, hafter, ?_⟩
  rintro rfl
  exact hne rfl

end ServiceRun.IsResting

end ManifestLens
