import ManifestLens.Proofs.Cache.History
import ManifestLens.Proofs.Cache.Inclusion
import ManifestLens.Proofs.Service.Conduct
import ManifestLens.Proofs.Service.Turns

/-!
# The settings of a service

The settings of a service change when it is pointed at another index or takes over a configuration, and in no
other way: not by lookups and fetches, sweeps and prefetches, and not when the service is closed. This is a rule
that all its other tasks abide by.
-/

namespace ManifestLens

/-- What is left of a service by those who do not change its settings. -/
structure Service.Retains (before after : Service) : Prop where
  baseUrl : after.client.baseUrl = before.client.baseUrl
  timeout : after.client.timeout = before.client.timeout
  attempts : after.client.attempts = before.client.attempts
  retryDelay : after.client.retryDelay = before.client.retryDelay
  ttl : after.cache.ttl = before.cache.ttl
  capacity : after.cache.capacity = before.cache.capacity
  sound : before.cache.IsSound → after.cache.IsSound
  includePre : after.includePre = before.includePre
  config : after.config = before.config

namespace Service.Retains

variable {before after : Service}

theorem refl (service : Service) : service.Retains service := ⟨rfl, rfl, rfl, rfl, rfl, rfl, id, rfl, rfl⟩

theorem trans {a b c : Service} (hab : a.Retains b) (hbc : b.Retains c) : a.Retains c :=
  ⟨hbc.baseUrl.trans hab.baseUrl, hbc.timeout.trans hab.timeout, hbc.attempts.trans hab.attempts,
    hbc.retryDelay.trans hab.retryDelay, hbc.ttl.trans hab.ttl, hbc.capacity.trans hab.capacity,
    fun hsound => hbc.sound (hab.sound hsound), hbc.includePre.trans hab.includePre, hbc.config.trans hab.config⟩

theorem of_eq (hclient : after.client = before.client) (hcache : after.cache = before.cache)
    (hpre : after.includePre = before.includePre) (hconfig : after.config = before.config) : before.Retains after :=
  ⟨by rw [hclient], by rw [hclient], by rw [hclient], by rw [hclient], by rw [hcache], by rw [hcache],
    fun hsound => hcache.symm ▸ hsound, hpre, hconfig⟩

/-- A call of the cache retains what the cache has been set to. -/
theorem step (service : Service) (now : Number) (call : CacheCall Number CachedView) (hcall : ¬ call.Adjusts) :
    service.Retains { service with cache := service.cache.step now call } := by
  have hadjust : ∀ ttl capacity, call ≠ .adjust ttl capacity := by
    rintro ttl capacity rfl
    exact hcall trivial
  refine ⟨rfl, rfl, rfl, rfl, ?_, Cache.capacity_step hadjust, fun hsound => hsound.step now call, rfl, rfl⟩
  change (service.cache.step now call).ttl = _
  rw [Cache.ttl_step]
  cases call with
  | adjust ttl capacity => exact absurd rfl (hadjust ttl capacity)
  | _ => rfl

end Service.Retains

/-- The call changes the settings, or one of the calls does that it makes at once. -/
inductive ServiceCall.ChangesSettings : ServiceCall → Prop
  | setBaseUrl (url : List Char) : ChangesSettings (.setBaseUrl url)
  | adopt (config : Config) : ChangesSettings (.adopt config)
  | together {calls : List ServiceCall} {call : ServiceCall} (hmem : call ∈ calls) (h : call.ChangesSettings) :
      ChangesSettings (.together calls)

/-- The task does not change the settings. -/
def Errand.RetainsSettings : Errand → Prop
  | .call asked => ¬ asked.ChangesSettings
  | _ => True

/-- The settings are retained, and only those tasks are started that retain them. -/
def World.settingsRule : TaskRule World Errand where
  holds _ := True
  change before after := before.service.Retains after.service
  start := Errand.RetainsSettings
  refl world := .refl world.service
  trans := .trans
  keeps _ _ := trivial

/-! ### What the tasks do -/

namespace Work

theorem obeys_beginSweeping_settingsRule : Obeys World.settingsRule beginSweeping.run := by
  intro world _
  rw [beginSweeping_run]
  intro moment
  dsimp only
  split
  · trivial
  · split
    · trivial
    · exact ⟨trivial, fun task => ⟨.of_eq rfl rfl rfl rfl, trivial⟩⟩

theorem obeys_close_settingsRule : Obeys World.settingsRule close := by
  intro world _
  rw [close_eq]
  intro moment
  dsimp only
  split
  · trivial
  · obtain ⟨-, -, -, -, httl, hcapacity, hsound, -, -⟩ :=
      Service.Retains.step world.service (.int 0) .clear id
    refine ⟨.of_eq rfl rfl rfl rfl, Process.abides_stopAll.mpr ⟨?_, trivial⟩⟩
    exact ⟨rfl, rfl, rfl, rfl, httl, hcapacity, hsound, rfl, rfl⟩

end Work

theorem World.admitsWork_settingsRule : settingsRule.AdmitsWork where
  send world _ _ := ⟨rfl, rfl, rfl, rfl, rfl, rfl, id, rfl, rfl⟩
  note {before after} hservice _ := by
    change before.service.Retains after.service
    rw [hservice]
    exact .refl before.service
  use {before after} now call hcall hservice _ := by
    change before.service.Retains after.service
    rw [hservice]
    exact .step before.service now call hcall
  list {before after} _ hservice _ := by
    change before.service.Retains after.service
    rw [hservice]
    exact .of_eq rfl rfl rfl rfl
  fetch _ := trivial
  prefetchOne _ _ _ := trivial
  together hstart _ hmem hchanges := hstart (.together hmem hchanges)
  setBaseUrl hstart _ := absurd (.setBaseUrl _) hstart
  adopt _ hstart := absurd (.adopt _) hstart
  beginSweeping := Work.obeys_beginSweeping_settingsRule
  close := Work.obeys_close_settingsRule

theorem World.admitsSurroundings_settingsRule : settingsRule.AdmitsSurroundings :=
  Work.admitsSurroundings admitsWork_settingsRule

end ManifestLens

/-!
## Reconfiguration

A service that takes over one configuration after another ends up with the settings of a service that is built from
the last one, whatever else it does in between. That a configuration is in force, as the service remembers it, is
the invariant: from it follows that a change that is passed over would not have changed any setting.
-/

namespace ManifestLens

/-! ### Configurations in force -/

/-- A service can be built from the configuration. -/
structure Config.IsUsable (config : Config) : Prop where
  capacity : 1 ≤ config.cacheCapacity
  url : ∃ url, IndexUrl.normalize config.indexUrl = .ok url

/-- The options that are read off a configuration when the client or the cache is set up are equal where no change
counts as significant. -/
theorem Config.eq_of_isSignificantChange {old new : Config} (h : isSignificantChange old new = false) :
    new.indexUrl = old.indexUrl ∧ new.requestTimeout = old.requestTimeout ∧ new.cacheMinutes = old.cacheMinutes ∧
      new.cacheCapacity = old.cacheCapacity ∧ new.retryAttempts = old.retryAttempts ∧
      new.retryDelay = old.retryDelay := by
  simp only [isSignificantChange, significantOptions, List.any_cons, List.any_nil, Bool.or_false,
    Bool.or_eq_false_iff, bne_eq_false_iff_eq, ConfigOption.valueIn, OptionValue.text.injEq,
    OptionValue.integer.injEq, String.ofList_inj] at h
  obtain ⟨hurl, htimeout, hminutes, hcapacity, hattempts, hdelay⟩ := h
  exact ⟨hurl.symm, htimeout.symm, hminutes.symm, hcapacity.symm, hattempts.symm, hdelay.symm⟩

namespace Service

/-- The settings of two services are the same. -/
structure SameSettings (service other : Service) : Prop where
  baseUrl : service.client.baseUrl = other.client.baseUrl
  timeout : service.client.timeout = other.client.timeout
  attempts : service.client.attempts = other.client.attempts
  retryDelay : service.client.retryDelay = other.client.retryDelay
  ttl : service.cache.ttl = other.cache.ttl
  capacity : service.cache.capacity = other.cache.capacity
  includePre : service.includePre = other.includePre

/-- The service remembers a configuration and has its settings. -/
structure Follows (service : Service) (config : Config) : Prop where
  remembered : service.config = some config
  baseUrl : IndexUrl.normalize config.indexUrl = .ok service.client.baseUrl
  timeout : service.client.timeout = seconds config.requestTimeout
  attempts : service.client.attempts = max 1 config.retryAttempts
  retryDelay : service.client.retryDelay = seconds config.retryDelay
  ttl : service.cache.ttl = .int (config.cacheMinutes * 60)
  capacity : service.cache.capacity = config.cacheCapacity.toNat
  sound : service.cache.IsSound
  includePre : service.includePre = config.listPreReleases

variable {service other : Service} {config old new : Config} {url : List Char}

/-- A service that is built from a usable configuration has its settings. -/
theorem exists_ofConfig (h : config.IsUsable) :
    ∃ service, ofConfig config = .ok service ∧ service.Follows config := by
  obtain ⟨hcapacity, url, hurl⟩ := h
  refine ⟨_, by
    simp only [ofConfig, IndexClient.make, hurl, if_neg (Int.not_lt.mpr hcapacity)]
    rfl, rfl, hurl, rfl, rfl, rfl, rfl, rfl, Cache.isSound_empty _ (by omega : 1 ≤ config.cacheCapacity.toNat), rfl⟩

namespace Follows

theorem sameSettings (h : service.Follows config) (h' : other.Follows config) : service.SameSettings other where
  baseUrl := Except.ok.inj (h.baseUrl.symm.trans h'.baseUrl)
  timeout := h.timeout.trans h'.timeout.symm
  attempts := h.attempts.trans h'.attempts.symm
  retryDelay := h.retryDelay.trans h'.retryDelay.symm
  ttl := h.ttl.trans h'.ttl.symm
  capacity := h.capacity.trans h'.capacity.symm
  includePre := h.includePre.trans h'.includePre.symm

theorem retains (h : service.Follows config) (hretains : service.Retains other) : other.Follows config where
  remembered := hretains.config.trans h.remembered
  baseUrl := hretains.baseUrl ▸ h.baseUrl
  timeout := hretains.timeout.trans h.timeout
  attempts := hretains.attempts.trans h.attempts
  retryDelay := hretains.retryDelay.trans h.retryDelay
  ttl := hretains.ttl.trans h.ttl
  capacity := hretains.capacity.trans h.capacity
  sound := hretains.sound h.sound
  includePre := hretains.includePre.trans h.includePre

theorem isUsable (h : service.Follows config) : config.IsUsable := by
  have hcapacity := h.sound.capacity_pos
  rw [h.capacity] at hcapacity
  exact ⟨by omega, _, h.baseUrl⟩

/-- A configuration without a significant change is in force as soon as it is remembered. -/
theorem remember (h : service.Follows old) (hsame : Config.isSignificantChange old new = false) :
    Follows { service with config := some new, includePre := new.listPreReleases } new := by
  obtain ⟨hurl, htimeout, hminutes, hcapacity, hattempts, hdelay⟩ := Config.eq_of_isSignificantChange hsame
  exact ⟨rfl, hurl ▸ h.baseUrl, htimeout ▸ h.timeout, hattempts ▸ h.attempts, hdelay ▸ h.retryDelay,
    hminutes ▸ h.ttl, hcapacity ▸ h.capacity, h.sound, rfl⟩

end Follows

/-! ### One configuration after another -/

/-- The service after client and cache have been set up anew for a configuration with a normalised URL. -/
def rebuilt (service : Service) (config : Config) (url : List Char) : Service :=
  let resized := (service.cache.adjust (some (.int (config.cacheMinutes * 60))) (some config.cacheCapacity)).1
  { service with
    config := some config
    includePre := config.listPreReleases
    client := { service.client.configure (some (seconds config.requestTimeout)) (some config.retryAttempts)
      (some (seconds config.retryDelay)) with baseUrl := url }
    cache := if url = service.client.baseUrl then resized else resized.clear }

theorem entries_rebuilt (service : Service) (url : List Char) (hcapacity : 1 ≤ config.cacheCapacity) :
    (service.rebuilt config url).cache.entries = if url = service.client.baseUrl then
      service.cache.entries.drop (service.cache.size - config.cacheCapacity.toNat) else [] := by
  rw [rebuilt]
  split
  · exact Cache.entries_adjust_some _ hcapacity
  · rfl

theorem ttl_rebuilt (service : Service) (config : Config) (url : List Char) :
    (service.rebuilt config url).cache.ttl = .int (config.cacheMinutes * 60) := by
  have hresized : (service.cache.adjust (some (Number.int (config.cacheMinutes * 60)))
      (some config.cacheCapacity)).1.ttl = .int (config.cacheMinutes * 60) := by
    simp only [Cache.adjust]
    split <;> rfl
  rw [Service.rebuilt]
  split <;> exact hresized

theorem capacity_rebuilt (service : Service) (url : List Char) (hcapacity : 1 ≤ config.cacheCapacity) :
    (service.rebuilt config url).cache.capacity = config.cacheCapacity.toNat := by
  have hresized : (service.cache.adjust (some (Number.int (config.cacheMinutes * 60)))
      (some config.cacheCapacity)).1.capacity = config.cacheCapacity.toNat := by
    simp only [Cache.adjust, if_neg (Int.not_lt.mpr hcapacity)]
    rfl
  rw [Service.rebuilt]
  split <;> exact hresized

theorem Follows.rebuilt (h : service.Follows old) (hcapacity : 1 ≤ config.cacheCapacity)
    (hurl : IndexUrl.normalize config.indexUrl = .ok url) : (service.rebuilt config url).Follows config := by
  have hsound : (service.rebuilt config url).cache.IsSound := by
    have hresized := h.sound.step (.int 0)
      (.adjust (some (Number.int (config.cacheMinutes * 60))) (some config.cacheCapacity))
    rw [Service.rebuilt]
    split
    · exact hresized
    · exact hresized.step (.int 0) .clear
  exact ⟨rfl, hurl, rfl, rfl, rfl, ttl_rebuilt .., capacity_rebuilt _ _ hcapacity, hsound, rfl⟩

/-- Whatever it was set to before, a service that is set up anew has the settings of one that is built. -/
theorem sameSettings_rebuilt (service : Service) (hcapacity : 1 ≤ config.cacheCapacity)
    (hurl : IndexUrl.normalize config.indexUrl = .ok url) (hfresh : other.Follows config) :
    (service.rebuilt config url).SameSettings other where
  baseUrl := Except.ok.inj (hurl.symm.trans hfresh.baseUrl)
  timeout := hfresh.timeout.symm
  attempts := hfresh.attempts.symm
  retryDelay := hfresh.retryDelay.symm
  ttl := (ttl_rebuilt ..).trans hfresh.ttl.symm
  capacity := (capacity_rebuilt _ _ hcapacity).trans hfresh.capacity.symm
  includePre := hfresh.includePre.symm

end Service

namespace World

variable {world : World} {old new : Config} {url : List Char}

theorem adopt_of_not_significant (hold : world.service.config = some old)
    (hsame : Config.isSignificantChange old new = false) : (world.adopt new).1 = .ok () ∧
      (world.adopt new).2.service
        = { world.service with config := some new, includePre := new.listPreReleases } := by
  have hskips : (world.service.config.any fun old => !Config.isSignificantChange old new) = true := by
    rw [hold, Option.any_some, hsame]
    rfl
  rw [adopt]
  simp only [if_pos hskips]
  exact ⟨trivial, rfl⟩

theorem exists_setBaseUrl (world : World) {given : List Char} (hurl : IndexUrl.normalize given = .ok url) :
    ∃ moved, world.setBaseUrl given = .ok moved ∧ moved.service = { world.service with
      client := { world.service.client with baseUrl := url }
      cache := world.service.cache.clear } := by
  refine ⟨_, by
    simp only [setBaseUrl, IndexClient.withBaseUrl, hurl]
    rfl, ?_⟩
  exact emptyCache_service _

/-- The world when client and cache have the settings of a configuration, but for the index. -/
def retuned (world : World) (config : Config) : World :=
  (resizeCache (world.withService fun service => { service with
    config := some config
    includePre := config.listPreReleases
    client := service.client.configure (some (Service.seconds config.requestTimeout)) (some config.retryAttempts)
      (some (Service.seconds config.retryDelay)) }) config).2

/-- The configuration is not passed over: none is remembered that differs from it in no significant option. -/
def Heeds (world : World) (config : Config) : Prop :=
  ∀ old ∈ world.service.config, Config.isSignificantChange old config = true

theorem Heeds.not_skips (h : world.Heeds new) :
    ¬ (world.service.config.any fun old => !Config.isSignificantChange old new) = true := by
  intro hskips
  obtain ⟨old, hold, hsame⟩ := (Option.any_eq_true ..).mp hskips
  rw [h old hold] at hsame
  exact Bool.false_ne_true hsame

theorem resizeCache_fst (world : World) (config : Config) :
    (world.resizeCache config).1 = !decide (config.cacheCapacity < 1) := by
  simp only [resizeCache, Cache.adjust]
  split
  · next hcapacity => simp [hcapacity]
  · next hcapacity => simp [hcapacity]

/-- A configuration that is not passed over sets up client and cache before its URL is looked at. -/
theorem adopt_of_heeds (h : world.Heeds new) : world.adopt new =
    if new.cacheCapacity < 1 then (.error .noCapacity, world.retuned new)
    else match IndexUrl.normalize new.indexUrl with
      | .error fault => (.error (.badUrl fault), world.retuned new)
      | .ok url =>
          if url = world.service.client.baseUrl then (.ok (), world.retuned new)
          else match (world.retuned new).setBaseUrl new.indexUrl with
            | .ok moved => (.ok (), moved)
            | .error fault => (.error fault, world.retuned new) := by
  rw [adopt]
  simp only [if_neg h.not_skips, resizeCache_fst, Bool.not_not, decide_eq_true_eq]
  rfl

theorem adopt_of_usable (h : world.Heeds new) (hcapacity : 1 ≤ new.cacheCapacity)
    (hurl : IndexUrl.normalize new.indexUrl = .ok url) :
    (world.adopt new).1 = .ok () ∧ (world.adopt new).2.service = world.service.rebuilt new url := by
  obtain ⟨moved, hmoved, hservice⟩ := (world.retuned new).exists_setBaseUrl hurl
  rw [adopt_of_heeds h, if_neg (Int.not_lt.mpr hcapacity), hurl]
  simp only [hmoved]
  by_cases hsame : url = world.service.client.baseUrl
  · rw [if_pos hsame, Service.rebuilt, if_pos hsame, hsame]
    exact ⟨rfl, rfl⟩
  · rw [if_neg hsame, Service.rebuilt, if_neg hsame]
    exact ⟨rfl, hservice⟩

end World

/-- **One more configuration.** It comes into force, and unless it moves the service to another index the cache only
loses the least recently used entries that are too many. -/
theorem Service.Follows.adopt {world : World} {old new : Config} {url : List Char} (h : world.service.Follows old)
    (hcapacity : 1 ≤ new.cacheCapacity) (hurl : IndexUrl.normalize new.indexUrl = .ok url) :
    (world.adopt new).1 = .ok () ∧ (world.adopt new).2.service.Follows new ∧
      (world.adopt new).2.service.cache.entries = if url = world.service.client.baseUrl then
        world.service.cache.entries.drop (world.service.cache.size - new.cacheCapacity.toNat) else [] := by
  cases hchange : Config.isSignificantChange old new with
  | false =>
      obtain ⟨hok, hservice⟩ := World.adopt_of_not_significant h.remembered hchange
      have hfollows := h.remember hchange
      -- The URL is the same one, and the cache was never too large.
      have hsame : url = world.service.client.baseUrl := Except.ok.inj (hurl.symm.trans hfollows.baseUrl)
      have hroom : world.service.cache.size - new.cacheCapacity.toNat = 0 := by
        rw [← hfollows.capacity]
        exact Nat.sub_eq_zero_of_le h.sound.size_le
      rw [hservice, if_pos hsame, hroom]
      exact ⟨hok, hfollows, rfl⟩
  | true =>
      have hheeds : world.Heeds new := fun remembered hold => by
        obtain rfl := Option.some.inj (h.remembered.symm.trans hold)
        exact hchange
      obtain ⟨hok, hservice⟩ := World.adopt_of_usable hheeds hcapacity hurl
      rw [hservice]
      exact ⟨hok, h.rebuilt hcapacity hurl, Service.entries_rebuilt _ url hcapacity⟩

/-! ### What happens to a service in use -/

/-- What can happen to a service in use. -/
inductive Happening where
  /-- A configuration is taken over. -/
  | adopt (config : Config)
  /-- Somebody makes a call, of whatever kind. -/
  | call (call : ServiceCall)
  /-- Something else happens: a turn is taken, a timer goes off, a call is cancelled, the index changes. -/
  | event (event : ServiceEvent)

namespace Happening

/-- Usable configurations are taken over, and the settings are not changed in any other way. -/
def IsAllowed : Happening → Prop
  | .adopt config => config.IsUsable
  | .call asked => ¬ asked.ChangesSettings
  | .event (.manage asked) => ¬ asked.ChangesSettings
  | .event _ => True

/-- What is asked for may be asked for under a rule. -/
def IsAdmitted (rule : TaskRule World Errand) : Happening → Prop
  | .adopt config => rule.start (.call (.adopt config))
  | .call asked => rule.start (.call asked)
  | .event (.call asked) => asked.isLookup = true → rule.start (.call asked)
  | .event (.manage asked) => asked.isManagement = true → rule.start (.call asked)
  | .event _ => True

/-- A lookup does not change the settings. -/
theorem IsAllowed.isAdmitted {event : ServiceEvent} (h : (Happening.event event).IsAllowed) :
    (Happening.event event).IsAdmitted World.settingsRule := by
  cases event with
  | call call =>
      intro hlookup hchanges
      cases hchanges <;> cases hlookup
  | manage call => exact fun _ => h
  | _ => trivial

/-- The configuration that is in force afterwards. -/
def configAfter (config : Config) : Happening → Config
  | .adopt new => new
  | _ => config

end Happening

/-- The configuration that was taken over last. -/
def Config.after (initial : Config) (happenings : List Happening) : Config :=
  happenings.foldl Happening.configAfter initial

namespace ServiceRun

/-- What a happening makes of a run. -/
def happen (s : ServiceRun) : Happening → ServiceRun
  | .adopt config => s.step (.manage (.adopt config))
  | .call call => (s.enter (.call call)).ask (.run s.tasks.size)
  | .event event => s.step event

/-- What happenings make of a run, one after another. -/
def through (s : ServiceRun) (happenings : List Happening) : ServiceRun := happenings.foldl happen s

variable {s : ServiceRun} {config old new : Config} {rule : TaskRule World Errand}

/-- **Any event** makes allowed changes only, if what it asks for may be asked for. -/
theorem moves_event (hrule : rule.AdmitsSurroundings) {event : ServiceEvent} (habides : s.Abides rule)
    (h : (Happening.event event).IsAdmitted rule) : Scheduler.Moves rule s (s.step event) := by
  cases event with
  | call call =>
      rw [step]
      refine iteInduction (fun hlookup => ?_) fun _ => .refl s
      exact (Scheduler.moves_enter s (h hlookup)).trans (Scheduler.moves_ask _ _)
  | turn place =>
      rw [step]
      split
      · next turn _ =>
        have hdropped : Scheduler.Moves rule s { s with ready := s.ready.eraseIdx place } := .of_eq rfl rfl
        exact hdropped.trans (Scheduler.moves_take hrule.program (hdropped.abides habides) turn)
      · exact .refl s
  | alarm task =>
      rw [step]
      split
      · refine .trans (Scheduler.moves_modifyTask s task ?_) (Scheduler.moves_ask _ _)
        exact fun _ habides => habides
      · exact .refl s
  | jump =>
      rw [step]
      cases hjump : s.jump? with
      | none => exact .refl s
      | some later => exact Scheduler.moves_jump? hjump
  | cancel task =>
      rw [step]
      split
      · exact Scheduler.moves_requestCancel s task
      · exact .refl s
  | manage call =>
      rw [step]
      refine iteInduction (fun hmanages => ?_) fun _ => .refl s
      have hcall : (Work.perform call).run.Abides rule s.state :=
        hrule.program.body (.call call) (h hmanages) s.state habides.holds
      exact (Scheduler.advance_abides s 0 habides.holds hcall).1
  | clock now => exact .of_eq rfl rfl
  | index script today => exact .of_tasks rfl (hrule.surroundings s.state script today)

/-- **Whatever is admitted to happen**, only allowed changes are made. -/
theorem moves_through (hrule : rule.AdmitsSurroundings) {happenings : List Happening} (habides : s.Abides rule)
    (h : ∀ happening ∈ happenings, happening.IsAdmitted rule) : Scheduler.Moves rule s (s.through happenings) := by
  induction happenings generalizing s with
  | nil => exact .refl s
  | cons happening happenings ih =>
      obtain ⟨hfirst, hrest⟩ := List.forall_mem_cons.mp h
      have hmoves : Scheduler.Moves rule s (s.happen happening) := by
        cases happening with
        | adopt config =>
            have hmanage : (Happening.event (.manage (.adopt config))).IsAdmitted rule := fun _ => hfirst
            exact moves_event hrule habides hmanage
        | call call => exact (Scheduler.moves_enter s hfirst).trans (Scheduler.moves_ask _ _)
        | event event => exact moves_event hrule habides hfirst
      exact hmoves.trans (ih (hmoves.abides habides) hrest)

/-- All tasks abide by the rule to retain the settings, which are those of a configuration. -/
structure IsSetTo (s : ServiceRun) (config : Config) : Prop where
  abides : s.Abides World.settingsRule
  follows : s.state.service.Follows config

theorem IsSetTo.moves {s' : ServiceRun} (h : s.IsSetTo config) (hmoves : Scheduler.Moves World.settingsRule s s') :
    s'.IsSetTo config := ⟨hmoves.abides h.abides, h.follows.retains hmoves.change⟩

theorem happen_adopt (s : ServiceRun) (config : Config) :
    s.happen (.adopt config) = { s with state := (s.state.adopt config).2 } := by
  change (s.advance 0 (Work.perform (.adopt config)).run).1 = _
  rw [Work.perform_adopt_run]
  rfl

/-- What taking over a configuration does to a service that has the settings of another one. -/
structure TakesOver (s : ServiceRun) (old new : Config) : Prop where
  succeeds : (s.advance 0 (Work.perform (.adopt new)).run).2 = .inl (.ok .nothing)
  /-- Client and cache are not touched unless a significant option changes. -/
  skips : Config.isSignificantChange old new = false → (s.happen (.adopt new)).state.service
    = { s.state.service with config := some new, includePre := new.listPreReleases }
  /-- With another index everything that is cached goes. -/
  moves : IndexUrl.normalize new.indexUrl ≠ IndexUrl.normalize old.indexUrl →
    (s.happen (.adopt new)).state.service.cache.entries = []
  /-- With the same index the least recently used entries go that are too many. -/
  stays : IndexUrl.normalize new.indexUrl = IndexUrl.normalize old.indexUrl →
    (s.happen (.adopt new)).state.service.cache.entries
      = s.state.service.cache.entries.drop (s.state.service.cache.size - new.cacheCapacity.toNat)
  /-- So nothing of what is cached is left just if the index is another one. -/
  drops_iff : s.state.service.cache.entries ≠ [] → ((s.happen (.adopt new)).state.service.cache.entries = [] ↔
    IndexUrl.normalize new.indexUrl ≠ IndexUrl.normalize old.indexUrl)

theorem IsSetTo.adopt (h : s.IsSetTo old) (hnew : new.IsUsable) : (s.happen (.adopt new)).IsSetTo new := by
  obtain ⟨hcapacity, url, hurl⟩ := hnew
  rw [happen_adopt]
  exact ⟨⟨trivial, h.abides.tasks⟩, (h.follows.adopt hcapacity hurl).2.1⟩

theorem IsSetTo.takesOver (h : s.IsSetTo old) (hnew : new.IsUsable) : s.TakesOver old new := by
  obtain ⟨hcapacity, url, hurl⟩ := hnew
  obtain ⟨hok, -, hentries⟩ := h.follows.adopt hcapacity hurl
  have hindex : IndexUrl.normalize new.indexUrl = IndexUrl.normalize old.indexUrl ↔
      url = s.state.service.client.baseUrl := by
    rw [hurl, h.follows.baseUrl, Except.ok.injEq]
  have hmoves : IndexUrl.normalize new.indexUrl ≠ IndexUrl.normalize old.indexUrl →
      (s.happen (.adopt new)).state.service.cache.entries = [] := by
    intro hne
    rw [happen_adopt]
    exact hentries.trans (if_neg (mt hindex.mpr hne))
  have hstays : IndexUrl.normalize new.indexUrl = IndexUrl.normalize old.indexUrl →
      (s.happen (.adopt new)).state.service.cache.entries
        = s.state.service.cache.entries.drop (s.state.service.cache.size - new.cacheCapacity.toNat) := by
    intro hsame
    rw [happen_adopt]
    exact hentries.trans (if_pos (hindex.mp hsame))
  refine ⟨?_, ?_, hmoves, hstays, fun hne => ⟨fun hempty hsame => ?_, hmoves⟩⟩
  · rw [Work.perform_adopt_run, Scheduler.advance, Scheduler.advance, Scheduler.advance, hok]
    rfl
  · intro hchange
    rw [happen_adopt]
    exact (World.adopt_of_not_significant h.follows.remembered hchange).2
  -- A capacity of at least one leaves the entry that was used last.
  · have hsize : 0 < s.state.service.cache.size := List.length_pos_iff.mpr hne
    have hall := List.drop_eq_nil_iff.mp ((hstays hsame).symm.trans hempty)
    rw [← Cache.size] at hall
    omega

/-- **Whatever is allowed to happen**, the configuration taken over last is in force. -/
theorem IsSetTo.through {happenings : List Happening} (h : s.IsSetTo config)
    (hallowed : ∀ happening ∈ happenings, happening.IsAllowed) :
    (s.through happenings).IsSetTo (config.after happenings) := by
  induction happenings generalizing s config with
  | nil => exact h
  | cons happening happenings ih =>
      obtain ⟨hfirst, hrest⟩ := List.forall_mem_cons.mp hallowed
      refine ih ?_ hrest
      cases happening with
      | adopt new => exact h.adopt hfirst
      | call call => exact h.moves ((Scheduler.moves_enter s hfirst).trans (Scheduler.moves_ask _ _))
      | event event =>
          exact h.moves (moves_event World.admitsSurroundings_settingsRule h.abides hfirst.isAdmitted)

end ServiceRun

/-! ### Reconfiguring and rebuilding -/

/-- A run in which a service that was built from a configuration has been used and reconfigured. -/
structure ServiceRun.IsReconfigured (s : ServiceRun) (current : Config) : Prop where
  /-- The service has the settings of one that is built from the configuration in force. -/
  settings : ∃ fresh, Service.ofConfig current = .ok fresh ∧ s.state.service.SameSettings fresh
  /-- It takes over any other usable configuration. -/
  next : ∀ new : Config, new.IsUsable → s.TakesOver current new

end ManifestLens
