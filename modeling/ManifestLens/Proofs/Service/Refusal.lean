import ManifestLens.Proofs.Service.Reconfiguration

/-!
# Refused settings

A cache refuses a capacity below one, and a service a configuration with such a capacity or with a URL that cannot be
taken apart. Neither looks before it begins: the cache has its new lifetime by then, and the service remembers the
configuration, has its preference for pre-releases, the settings of its client and the lifetime of its cache. So a
refused configuration counts as taken over, and when it comes again it is passed over without a word, as is any other
that differs from it in no significant option. A usable one does differ, since it states another capacity or another
URL, and is taken over as if nothing had happened.
-/

namespace ManifestLens

variable {T V : Type}

namespace Cache

variable {cache : Cache T V} {ttl : Option T} {capacity : Option Int}

theorem adjust_snd_eq_false_iff : (cache.adjust ttl capacity).2 = false ↔ ∃ limit ∈ capacity, limit < 1 := by
  cases capacity with
  | none => simp [adjust]
  | some limit =>
      by_cases hlimit : limit < 1
      · simp [adjust, hlimit]
      · simp [adjust, hlimit]

/-- A refused capacity leaves the entries and the capacity alone, but not the lifetime. -/
theorem adjust_of_refused (h : (cache.adjust ttl capacity).2 = false) :
    (cache.adjust ttl capacity).1 = { cache with ttl := ttl.getD cache.ttl } := by
  obtain ⟨limit, hcapacity, hlimit⟩ := adjust_snd_eq_false_iff.mp h
  rw [Option.mem_def.mp hcapacity, adjust]
  simp only [if_pos hlimit]

/-- What changing lifetime and capacity comes to if it fails. -/
structure RefusesHalfway (cache : Cache T V) (ttl : Option T) (capacity : Option Int) : Prop where
  refused_iff : (cache.adjust ttl capacity).2 = false ↔ ∃ limit ∈ capacity, limit < 1
  /-- Capacity and entries stay as they were. The lifetime is the new one, if one was given. -/
  left : (cache.adjust ttl capacity).2 = false →
    (cache.adjust ttl capacity).1 = { cache with ttl := ttl.getD cache.ttl }
  /-- So nothing changes just if no other lifetime was given. -/
  unchanged_iff : (cache.adjust ttl capacity).2 = false →
    ((cache.adjust ttl capacity).1 = cache ↔ ∀ lifetime ∈ ttl, lifetime = cache.ttl)

theorem refusesHalfway (cache : Cache T V) (ttl : Option T) (capacity : Option Int) :
    cache.RefusesHalfway ttl capacity := by
  refine ⟨adjust_snd_eq_false_iff, adjust_of_refused, fun h => ?_⟩
  rw [adjust_of_refused h]
  constructor
  · intro hsame lifetime hlifetime
    have httl : ttl.getD cache.ttl = cache.ttl := congrArg Cache.ttl hsame
    rwa [Option.mem_def.mp hlifetime] at httl
  · intro hsame
    have httl : ttl.getD cache.ttl = cache.ttl := by
      cases ttl with
      | none => rfl
      | some lifetime => exact hsame lifetime rfl
    rw [httl]

end Cache

/-- The happening changes no settings and takes over no configuration. -/
def Happening.RetainsSettings (happening : Happening) : Prop :=
  happening.IsAllowed ∧ ∀ config, happening ≠ .adopt config

theorem ServiceRun.retains_through {s : ServiceRun} {happenings : List Happening}
    (habides : s.Abides World.settingsRule) (h : ∀ happening ∈ happenings, happening.RetainsSettings) :
    s.state.service.Retains (s.through happenings).state.service := by
  refine (moves_through World.admitsSurroundings_settingsRule habides fun happening hmem => ?_).change
  obtain ⟨hallowed, hadopt⟩ := h happening hmem
  cases happening with
  | adopt config => exact absurd rfl (hadopt config)
  | call asked => exact hallowed
  | event event => exact hallowed.isAdmitted

/-- The fault with which a configuration is refused that is not passed over. -/
inductive Config.IsRefusedWith (config : Config) : Fault → Prop
  | noCapacity (hcapacity : config.cacheCapacity < 1) : IsRefusedWith config .noCapacity
  | badUrl {fault : UrlFault} (hcapacity : 1 ≤ config.cacheCapacity)
      (hurl : IndexUrl.normalize config.indexUrl = .error fault) : IsRefusedWith config (.badUrl fault)

namespace World

variable {world : World} {config : Config} {fault : Fault}

theorem adopt_eq_error_iff :
    (world.adopt config).1 = .error fault ↔ world.Heeds config ∧ config.IsRefusedWith fault := by
  by_cases hheeds : world.Heeds config
  · simp only [hheeds, true_and]
    rw [adopt_of_heeds hheeds]
    by_cases hcapacity : config.cacheCapacity < 1
    · rw [if_pos hcapacity]
      constructor
      · rintro ⟨⟩
        exact .noCapacity hcapacity
      · rintro (_ | ⟨hlarge, -⟩)
        · rfl
        · omega
    · rw [if_neg hcapacity]
      cases hurl : IndexUrl.normalize config.indexUrl with
      | error other =>
          constructor
          · rintro ⟨⟩
            exact .badUrl (by omega) hurl
          · rintro (hsmall | ⟨-, hother⟩)
            · exact absurd hsmall hcapacity
            · rw [Except.error.inj (hurl.symm.trans hother)]
      | ok url =>
          -- A URL that can be taken apart is never the reason.
          have hnot : ¬ config.IsRefusedWith fault := by
            rintro (hsmall | ⟨-, hother⟩)
            · exact hcapacity hsmall
            · cases hurl.symm.trans hother
          obtain ⟨hok, -⟩ := adopt_of_usable hheeds (by omega) hurl
          rw [adopt_of_heeds hheeds, if_neg hcapacity, hurl] at hok
          simp only [hnot, iff_false]
          intro herror
          cases hok.symm.trans herror
  · simp only [hheeds, false_and, iff_false]
    -- What is passed over is not looked at.
    simp only [Heeds, not_forall, Bool.not_eq_true] at hheeds
    obtain ⟨old, hold, hsame⟩ := hheeds
    intro herror
    cases (adopt_of_not_significant hold hsame).1.symm.trans herror

theorem adopt_of_refused (h : (world.adopt config).1 = .error fault) :
    (world.adopt config).2 = world.retuned config := by
  obtain ⟨hheeds, hrefused⟩ := adopt_eq_error_iff.mp h
  rw [adopt_of_heeds hheeds]
  cases hrefused with
  | noCapacity hcapacity => rw [if_pos hcapacity]
  | badUrl hcapacity hurl => rw [if_neg (Int.not_lt.mpr hcapacity), hurl]

end World

namespace Config

variable {config new : Config} {fault : Fault}

theorem IsRefusedWith.not_isUsable (h : config.IsRefusedWith fault) : ¬ config.IsUsable := by
  rintro ⟨hcapacity, url, hurl⟩
  cases h with
  | noCapacity hsmall => omega
  | badUrl _ hother => cases hurl.symm.trans hother

theorem exists_isRefusedWith (h : ¬ config.IsUsable) : ∃ fault, config.IsRefusedWith fault := by
  by_cases hcapacity : config.cacheCapacity < 1
  · exact ⟨_, .noCapacity hcapacity⟩
  · cases hurl : IndexUrl.normalize config.indexUrl with
    | error fault => exact ⟨_, .badUrl (by omega) hurl⟩
    | ok url => exact absurd ⟨by omega, url, hurl⟩ h

/-- A usable configuration states another capacity or another URL than one that is refused. -/
theorem IsRefusedWith.isSignificantChange (h : config.IsRefusedWith fault) (hnew : new.IsUsable) :
    Config.isSignificantChange config new = true := by
  cases hchange : Config.isSignificantChange config new with
  | true => rfl
  | false =>
      obtain ⟨hurl, -, -, hcapacity, -, -⟩ := eq_of_isSignificantChange hchange
      exact absurd ⟨hcapacity ▸ hnew.capacity, hurl ▸ hnew.url⟩ h.not_isUsable

end Config

namespace World

/-- What a service is left with that has refused a configuration. -/
structure IsLeftHalfway (before after : World) (config : Config) (fault : Fault) : Prop where
  reason : config.IsRefusedWith fault
  /-- The configuration is remembered, and was not before. -/
  remembered : before.service.config ≠ some config ∧ after.service.config = some config
  includePre : after.service.includePre = config.listPreReleases
  /-- The client has the new settings, and asks the same index. -/
  client : after.service.client = { before.service.client with
    timeout := Service.seconds config.requestTimeout
    attempts := max 1 config.retryAttempts
    retryDelay := Service.seconds config.retryDelay }
  ttl : after.service.cache.ttl = .int (config.cacheMinutes * 60)
  /-- A capacity that is refused changes nothing else about the cache. -/
  refused : config.cacheCapacity < 1 → after.service.cache.capacity = before.service.cache.capacity ∧
    after.service.cache.entries = before.service.cache.entries
  /-- A capacity that is not refused holds, although the URL does not. -/
  resized : 1 ≤ config.cacheCapacity → after.service.cache.capacity = config.cacheCapacity.toNat ∧
    after.service.cache.entries
      = before.service.cache.entries.drop (before.service.cache.size - config.cacheCapacity.toNat)
  /-- What differs in no significant option, as the same configuration does, is passed over when it comes: of the
  settings it changes the preference for pre-releases at most. -/
  passed : ∀ same, Config.isSignificantChange config same = false → (after.adopt same).1 = .ok () ∧
    (after.adopt same).2.service = { after.service with config := some same, includePre := same.listPreReleases }
  /-- So is the configuration itself, however the service is used in the meantime. -/
  again : ∀ s : ServiceRun, s.state = after → s.Abides settingsRule →
    ∀ happenings, (∀ happening ∈ happenings, Happening.RetainsSettings happening) →
      ((s.through happenings).state.adopt config).1 = .ok () ∧
        after.service.Retains ((s.through happenings).happen (.adopt config)).state.service
  /-- A usable configuration is taken over. -/
  usable : ∀ new : Config, new.IsUsable → Config.isSignificantChange config new = true ∧
    (after.adopt new).1 = .ok () ∧
    ∃ fresh, Service.ofConfig new = .ok fresh ∧ (after.adopt new).2.service.SameSettings fresh

variable {world : World} {config : Config} {fault : Fault}

theorem retuned_cache (world : World) (config : Config) : (world.retuned config).service.cache
    = (world.service.cache.adjust (some (.int (config.cacheMinutes * 60))) (some config.cacheCapacity)).1 := rfl

/-- **A refused configuration** is taken over halfway. -/
theorem isLeftHalfway (h : (world.adopt config).1 = .error fault) :
    world.IsLeftHalfway (world.adopt config).2 config fault := by
  obtain ⟨hheeds, hrefused⟩ := adopt_eq_error_iff.mp h
  rw [adopt_of_refused h]
  have hremembered : (world.retuned config).service.config = some config := rfl
  refine ⟨hrefused, ⟨fun hold => ?_, rfl⟩, rfl, rfl, ?_, fun hcapacity => ?_, fun hcapacity => ?_,
    fun same hsame => adopt_of_not_significant hremembered hsame, ?_, fun new hnew => ?_⟩
  · have hself := hheeds config hold
    simp [Config.isSignificantChange] at hself
  · rw [retuned_cache, Cache.adjust]
    by_cases hcapacity : config.cacheCapacity < 1
    · simp only [if_pos hcapacity]
      rfl
    · simp only [if_neg hcapacity]
      rfl
  · have hcache : (world.retuned config).service.cache
        = { world.service.cache with ttl := .int (config.cacheMinutes * 60) } := by
      refine Cache.adjust_of_refused (Cache.adjust_snd_eq_false_iff.mpr ⟨_, rfl, hcapacity⟩)
    rw [hcache]
    exact ⟨rfl, rfl⟩
  · rw [retuned_cache]
    refine ⟨?_, Cache.entries_adjust_some _ hcapacity⟩
    simp only [Cache.adjust, if_neg (Int.not_lt.mpr hcapacity)]
    rfl
  · intro s hs habides happenings hretain
    have hretains := ServiceRun.retains_through habides hretain
    rw [hs] at hretains
    have hsame : Config.isSignificantChange config config = false := by simp [Config.isSignificantChange]
    obtain ⟨hok, hservice⟩ := adopt_of_not_significant (hretains.config.trans hremembered) hsame
    refine ⟨hok, hretains.trans ?_⟩
    -- The configuration that is remembered is remembered again.
    rw [ServiceRun.happen_adopt, hservice]
    exact .of_eq rfl rfl hretains.includePre.symm (hretains.config.trans hremembered).symm
  · have hchange := hrefused.isSignificantChange hnew
    have hheeds' : (world.retuned config).Heeds new := fun old hold => by
      obtain rfl := Option.some.inj (hremembered.symm.trans hold)
      exact hchange
    obtain ⟨url, hurl⟩ := hnew.url
    obtain ⟨hok, hservice⟩ := adopt_of_usable hheeds' hnew.capacity hurl
    obtain ⟨fresh, hfresh, hfollows⟩ := Service.exists_ofConfig hnew
    exact ⟨hchange, hok, fresh, hfresh, hservice ▸ Service.sameSettings_rebuilt _ hnew.capacity hurl hfollows⟩

/-- What taking over a configuration comes to if it fails. -/
structure RefusesHalfway (world : World) (config : Config) : Prop where
  /-- It fails just if the configuration is not passed over and no service can be built from it. -/
  refused_iff : (∃ fault, (world.adopt config).1 = .error fault) ↔ world.Heeds config ∧ ¬ config.IsUsable
  left : ∀ fault, (world.adopt config).1 = .error fault →
    world.IsLeftHalfway (world.adopt config).2 config fault

theorem refusesHalfway (world : World) (config : Config) : world.RefusesHalfway config := by
  refine ⟨⟨?_, ?_⟩, fun fault => isLeftHalfway⟩
  · rintro ⟨fault, h⟩
    obtain ⟨hheeds, hrefused⟩ := adopt_eq_error_iff.mp h
    exact ⟨hheeds, hrefused.not_isUsable⟩
  · rintro ⟨hheeds, hnot⟩
    obtain ⟨fault, hrefused⟩ := Config.exists_isRefusedWith hnot
    exact ⟨fault, adopt_eq_error_iff.mpr ⟨hheeds, hrefused⟩⟩

end World

end ManifestLens
