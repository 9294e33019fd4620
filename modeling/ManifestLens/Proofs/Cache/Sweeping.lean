import ManifestLens.Cache.Basic
import ManifestLens.Proofs.Cache.Inclusion
import ManifestLens.Proofs.Number.Rounding

/-!
# Sweeps that nobody notices

A sweep removes what has expired. Two runs of a cache that make the same calls, one of them with sweeps in
between, hold different entries in the meantime; but swept at one reading of the clock they are the same. This
is what every call keeps: it may be made of the cache or of what a sweep leaves of it, a sweep after it gives
the same. It takes a clock that does not go back, or an entry could come back to life, and room for every key,
or an expired entry could drive out one that is still good.
-/

namespace ManifestLens

variable {T V : Type}

/-- What a call tells its caller. -/
inductive CacheAnswer (V : Type) where
  | value (found : Option V)
  | presence (found : Bool)
deriving DecidableEq

namespace CacheCall

def isPurge : CacheCall T V → Bool
  | .purge => true
  | _ => false

/-- The key under which the call stores something. -/
def storedKey? : CacheCall T V → Option String
  | .set key _ _ => some key
  | _ => none

end CacheCall

def unswept (calls : List (T × CacheCall T V)) : List (T × CacheCall T V) :=
  calls.filter fun call => !call.2.isPurge

/-- The keys under which calls store something, one for each time. -/
def storedKeys (calls : List (T × CacheCall T V)) : List String := calls.filterMap fun call => call.2.storedKey?

namespace Cache

section Clock

variable [Sub T] [LE T] [DecidableLE T]

def answer? (cache : Cache T V) (now : T) : CacheCall T V → Option (CacheAnswer V)
  | .get key => some (.value (cache.get now key).1)
  | .has key => some (.presence (cache.has now key).1)
  | _ => none

/-- What calls that read tell, one after another. -/
def answers (cache : Cache T V) : List (T × CacheCall T V) → List (CacheAnswer V)
  | [] => []
  | (now, call) :: calls => (cache.answer? now call).toList ++ (cache.step now call).answers calls

/-- The entries that have not expired. -/
def unexpired (cache : Cache T V) (now : T) : List (String × CacheEntry T V) :=
  cache.entries.filter fun e => e.2.isValid now

variable {cache : Cache T V} {now later : T} {key : String} {call : CacheCall T V}

/-! ### What a sweep leaves -/

theorem keys_purge_sublist (cache : Cache T V) (now : T) : (cache.purge now).keys.Sublist cache.keys :=
  List.filter_sublist.map Prod.fst

theorem size_purge_add_expiredCount (cache : Cache T V) (now : T) :
    (cache.purge now).size + cache.expiredCount now = cache.size := by
  rw [size, size, purge, expiredCount, ← List.countP_eq_length_filter,
    List.length_eq_countP_add_countP fun e : String × CacheEntry T V => e.2.isValid now]
  simp only [Bool.not_eq_true, Bool.decide_eq_false]

theorem entry?_purge (hnodup : cache.keys.Nodup) (now : T) (key : String) :
    Cache.entry? (cache.purge now) key = (cache.entry? key).filter (·.isValid now) := by
  ext entry
  rw [Option.filter_eq_some_iff, entry?_eq_some_iff ((keys_purge_sublist cache now).nodup hnodup),
    entry?_eq_some_iff hnodup]
  exact List.mem_filter

@[simp]
theorem purge_purge_self (cache : Cache T V) (now : T) : (cache.purge now).purge now = cache.purge now := by
  simp only [purge, List.filter_filter, Bool.and_self]

theorem purge_erase (cache : Cache T V) (now : T) (key : String) :
    (cache.erase key).purge now = (cache.purge now).erase key := by
  simp only [purge, erase, List.filter_filter, Bool.and_comm]

theorem purge_erase_of_not_valid (hnodup : cache.keys.Nodup)
    (h : ∀ entry, cache.entry? key = some entry → entry.isValid now = false) :
    (cache.erase key).purge now = cache.purge now := by
  rw [purge_erase, erase_of_entry?_eq_none]
  rw [entry?_purge hnodup, Option.filter_eq_none_iff]
  intro entry hentry
  simp [h entry hentry]

/-! ### Calls of a cache and of what a sweep leaves of it -/

/-- The cache with an entry at the end that takes the place of any other of its key. -/
def place (cache : Cache T V) (key : String) (entry : CacheEntry T V) : Cache T V :=
  { cache with entries := (cache.erase key).entries ++ [(key, entry)] }

theorem purge_place_purge (cache : Cache T V) (now : T) (key : String) (entry : CacheEntry T V) :
    ((cache.purge now).place key entry).purge now = (cache.place key entry).purge now := by
  have herased : ((cache.purge now).erase key).purge now = (cache.erase key).purge now := by
    rw [← purge_erase, purge_purge_self]
  have hentries := congrArg entries herased
  simp only [purge] at hentries ⊢
  simp only [place, List.filter_append, hentries]

theorem get_eq (cache : Cache T V) (now : T) (key : String) : cache.get now key
    = match (cache.entry? key).filter (·.isValid now) with
      | none => (none, cache.erase key)
      | some entry => (some entry.data,
          cache.place key { entry with accessCount := entry.accessCount + 1, lastAccessed := now }) := by
  cases hentry : (cache.entry? key).filter (·.isValid now) with
  | none =>
      refine get_of_not_valid fun entry hfound => ?_
      simpa using Option.filter_eq_none_iff.mp hentry entry hfound
  | some entry =>
      obtain ⟨hfound, hvalid⟩ := Option.filter_eq_some_iff.mp hentry
      rw [get, hfound]
      simp only [if_pos hvalid]
      rfl

theorem get_purge (hnodup : cache.keys.Nodup) (now : T) (key : String) :
    ((cache.purge now).get now key).1 = (cache.get now key).1 ∧
      ((cache.purge now).get now key).2.purge now = (cache.get now key).2.purge now := by
  have hfilter : (Cache.entry? (cache.purge now) key).filter (·.isValid now)
      = (cache.entry? key).filter (·.isValid now) := by
    rw [entry?_purge hnodup, Option.filter_filter]
    simp only [Bool.and_self]
  rw [get_eq, get_eq cache, hfilter]
  split
  · exact ⟨rfl, by rw [← purge_erase, purge_purge_self]⟩
  · exact ⟨rfl, purge_place_purge cache now key _⟩

theorem purge_has (hnodup : cache.keys.Nodup) (now : T) (key : String) :
    (cache.has now key).2.purge now = cache.purge now := by
  rw [has]
  split
  · rfl
  · next entry hentry =>
    split
    · rfl
    · next hvalid =>
      refine purge_erase_of_not_valid hnodup fun found hfound => ?_
      rw [hentry] at hfound
      cases hfound
      simpa using hvalid

/-- The keys of the entries are among those that are stored in the end, and all of these find room. -/
structure Fits (cache : Cache T V) (stored : List String) : Prop where
  nodup : cache.keys.Nodup
  subset : cache.keys ⊆ stored
  room : stored.dedup.length ≤ cache.capacity

variable {stored : List String}

theorem Fits.purge (h : cache.Fits stored) (now : T) : (cache.purge now).Fits stored :=
  ⟨(keys_purge_sublist cache now).nodup h.nodup, fun _ hkey => h.subset ((keys_purge_sublist cache now).subset hkey),
    h.room⟩

omit [Sub T] [LE T] [DecidableLE T] in
/-- Where there is room, nothing is driven out. -/
theorem Fits.set (h : cache.Fits stored) (hkey : key ∈ stored) (now : T) (value : V) (own : Option T) :
    cache.set now key value own = cache.place key ⟨value, now, own.getD cache.ttl, 1, now⟩ := by
  by_cases hmem : key ∈ cache.keys
  · rw [Cache.set, if_pos (mem_keys_iff.mp hmem)]
    rfl
  · have hroom : cache.entries.length < cache.capacity := by
      have hnodup : (key :: cache.keys).Nodup := List.nodup_cons.mpr ⟨hmem, h.nodup⟩
      have hsubset : key :: cache.keys ⊆ stored.dedup := fun other hother =>
        List.mem_dedup.mpr ((List.mem_cons.mp hother).elim (fun heq => heq ▸ hkey) fun hother => h.subset hother)
      have hlength := (hnodup.subperm hsubset).length_le
      rw [List.length_cons, keys, List.length_map] at hlength
      exact hlength.trans h.room
    have hnone := Option.not_isSome_iff_eq_none.mp fun hsome => hmem (mem_keys_iff.mpr hsome)
    rw [Cache.set, if_neg fun hsome => hmem (mem_keys_iff.mpr hsome), makeRoom, if_neg (Nat.not_le_of_lt hroom),
      place, erase_of_entry?_eq_none hnone]

theorem Fits.step (h : cache.Fits stored) (now : T) (hstored : ∀ key ∈ call.storedKey?, key ∈ stored)
    (hcall : ¬ call.Adjusts) : (cache.step now call).Fits stored := by
  refine ⟨nodup_step h.nodup now call, fun key hkey => ?_, ?_⟩
  · obtain ⟨kept, hkept, hentries, -⟩ := cache.exists_step_entries now call
    rw [keys, hentries, List.map_append, List.mem_append] at hkey
    rcases hkey with hkey | hkey
    · exact h.subset ((hkept.map Prod.fst).subset hkey)
    · cases call with
      | get other =>
          obtain ⟨p, hp, rfl⟩ := List.mem_map.mp hkey
          obtain ⟨entry, hentry, rfl⟩ := Option.map_eq_some_iff.mp (Option.mem_toList.mp hp)
          have hfound := (Option.filter_eq_some_iff.mp hentry).1
          exact h.subset (mem_keys_iff.mpr (by rw [hfound]; rfl))
      | set other value own =>
          obtain rfl : key = other := by simpa [placed] using hkey
          exact hstored key rfl
      | _ => cases hkey
  · rw [capacity_step]
    · exact h.room
    · rintro ttl capacity rfl
      exact hcall trivial

/-- **One call** of a cache and of what a sweep leaves of it: the same is told, and swept both are the same. -/
theorem Fits.step_purge (h : cache.Fits stored) (now : T) (hstored : ∀ key ∈ call.storedKey?, key ∈ stored)
    (hcall : ¬ call.Adjusts) : (cache.purge now).answer? now call = cache.answer? now call ∧
      ((cache.purge now).step now call).purge now = (cache.step now call).purge now := by
  cases call with
  | get key =>
      obtain ⟨htold, hleft⟩ := get_purge h.nodup now key
      exact ⟨by rw [answer?, answer?, htold], hleft⟩
  | has key =>
      obtain ⟨htold, -⟩ := get_purge h.nodup now key
      refine ⟨by rw [answer?, answer?, has_eq_isSome_get, has_eq_isSome_get, htold], ?_⟩
      rw [Cache.step, Cache.step, purge_has h.nodup, purge_has (h.purge now).nodup, purge_purge_self]
  | set key value own =>
      have hkey := hstored key rfl
      refine ⟨rfl, ?_⟩
      rw [Cache.step, Cache.step, h.set hkey, (h.purge now).set hkey]
      exact purge_place_purge cache now key _
  | erase key => exact ⟨rfl, by rw [Cache.step, Cache.step, ← purge_erase, purge_purge_self]⟩
  | clear | dispose => exact ⟨rfl, rfl⟩
  | purge => exact ⟨rfl, congrArg (Cache.purge · now) (purge_purge_self cache now)⟩
  | adjust ttl capacity => exact absurd trivial hcall

/-! ### A run -/

/-- At the readings of the clock nothing that is too old is good again later. -/
def Ages (clock : T → Prop) : Prop :=
  ∀ birth now later ttl, clock birth → clock now → clock later → now ≤ later → later - birth ≤ ttl →
    now - birth ≤ ttl

variable {clock : T → Prop}

theorem purge_purge (hages : Ages clock) (hbirths : cache.Every fun _ _ birth _ => clock birth)
    (hnow : clock now) (hlater : clock later) (hle : now ≤ later) :
    (cache.purge now).purge later = cache.purge later := by
  simp only [purge, List.filter_filter]
  congr 1
  refine List.filter_congr fun e he => ?_
  have hvalid : e.2.isValid later = true → e.2.isValid now = true := fun hvalid =>
    decide_eq_true (hages _ _ _ _ (hbirths e.1 e.2 he) hnow hlater hle (of_decide_eq_true hvalid))
  cases hlast : e.2.isValid later with
  | false => rfl
  | true => rw [hvalid hlast, Bool.and_self]

/-- What is assumed of a cache in the middle of a run. -/
structure Ready (cache : Cache T V) (clock : T → Prop) (stored : List String) : Prop where
  fits : cache.Fits stored
  births : cache.Every fun _ _ birth _ => clock birth

theorem Ready.step (h : cache.Ready clock stored) (hnow : clock now)
    (hstored : ∀ key ∈ call.storedKey?, key ∈ stored) (hcall : ¬ call.Adjusts) :
    (cache.step now call).Ready clock stored :=
  ⟨h.fits.step now hstored hcall, h.births.step (fun _ _ _ => hnow) call⟩

/-- Two caches that a sweep makes the same tell the same when they are called, and a later sweep makes them the
same again. -/
theorem Ready.step_alike {swept other : Cache T V} (hages : Ages clock) (hswept : swept.Ready clock stored)
    (hother : other.Ready clock stored) (hnow : clock now)
    (hstored : ∀ key ∈ call.storedKey?, key ∈ stored) (hcall : ¬ call.Adjusts)
    (h : swept.purge now = other.purge now) : swept.answer? now call = other.answer? now call ∧
      ∀ later, clock later → now ≤ later → (swept.step now call).purge later = (other.step now call).purge later := by
  obtain ⟨htold, hleft⟩ := hswept.fits.step_purge now hstored hcall
  obtain ⟨htold', hleft'⟩ := hother.fits.step_purge now hstored hcall
  refine ⟨by rw [← htold, h, htold'], fun later hlater hle => ?_⟩
  have hready := hswept.step hnow hstored hcall
  have hready' := hother.step hnow hstored hcall
  calc (swept.step now call).purge later
      = ((swept.step now call).purge now).purge later := (purge_purge hages hready.births hnow hlater hle).symm
    _ = ((other.step now call).purge now).purge later := by rw [← hleft, h, hleft']
    _ = (other.step now call).purge later := purge_purge hages hready'.births hnow hlater hle

/-- **A run with sweeps and one without** tell the same, and swept they are the same. -/
theorem Ready.after_alike {swept other : Cache T V} (hages : Ages clock) (hswept : swept.Ready clock stored)
    (hother : other.Ready clock stored) {calls : List (T × CacheCall T V)}
    (hclock : ∀ call ∈ calls, clock call.1) (horder : (calls.map Prod.fst).Pairwise (· ≤ ·))
    (hstored : storedKeys calls ⊆ stored) (hcalls : ∀ call ∈ calls, ¬ call.2.Adjusts)
    (h : ∀ call ∈ calls, swept.purge call.1 = other.purge call.1) :
    swept.answers calls = other.answers (unswept calls) ∧
      ∀ later, clock later → (∀ call ∈ calls, call.1 ≤ later) → swept.purge later = other.purge later →
        (swept.after calls).purge later = (other.after (unswept calls)).purge later := by
  induction calls generalizing swept other with
  | nil => exact ⟨rfl, fun _ _ _ hlast => hlast⟩
  | cons call calls ih =>
      obtain ⟨now, call⟩ := call
      obtain ⟨hfirst, hrest⟩ := List.pairwise_cons.mp horder
      have hle : ∀ other ∈ calls, now ≤ other.1 := fun other hmem => hfirst _ (List.mem_map_of_mem hmem)
      have hnow : clock now := hclock _ List.mem_cons_self
      have hlater : ∀ other ∈ calls, clock other.1 := fun other hmem => hclock other (List.mem_cons_of_mem _ hmem)
      have hkey : ∀ key ∈ call.storedKey?, key ∈ stored := fun key hkey =>
        hstored (List.mem_filterMap.mpr ⟨_, List.mem_cons_self, hkey⟩)
      have hkeys : storedKeys calls ⊆ stored := fun key hmem => by
        obtain ⟨other, hmem, hkey⟩ := List.mem_filterMap.mp hmem
        exact hstored (List.mem_filterMap.mpr ⟨other, List.mem_cons_of_mem _ hmem, hkey⟩)
      have hcall : ¬ call.Adjusts := hcalls _ List.mem_cons_self
      have hothers : ∀ other ∈ calls, ¬ other.2.Adjusts := fun other hmem =>
        hcalls other (List.mem_cons_of_mem _ hmem)
      have hsame : swept.purge now = other.purge now := h _ List.mem_cons_self
      have hready := hswept.step hnow hkey hcall
      by_cases hpurge : call.isPurge = true
      · -- The other run does not make this call.
        have hcalled : call = .purge := by
          cases call <;> first | rfl | cases hpurge
        subst hcalled
        have hswept' : ∀ later, clock later → now ≤ later → (swept.purge now).purge later = swept.purge later :=
          fun later hlater hle => purge_purge hages hswept.births hnow hlater hle
        obtain ⟨htold, hleft⟩ := ih hready hother hlater hrest hkeys hothers fun call hmem => by
          rw [Cache.step, hswept' _ (hlater call hmem) (hle call hmem)]
          exact h call (List.mem_cons_of_mem _ hmem)
        refine ⟨htold, fun later hclock hall hlast => hleft later hclock
          (fun call hmem => hall call (List.mem_cons_of_mem _ hmem)) ?_⟩
        rw [Cache.step, hswept' later hclock (hall _ List.mem_cons_self)]
        exact hlast
      · obtain ⟨htold, hleft⟩ := hswept.step_alike hages hother hnow hkey hcall hsame
        obtain ⟨htold', hleft'⟩ := ih hready (hother.step hnow hkey hcall) hlater hrest hkeys hothers
          fun call hmem => hleft _ (hlater call hmem) (hle call hmem)
        have hunswept : unswept ((now, call) :: calls) = (now, call) :: unswept calls :=
          List.filter_cons_of_pos (by simpa using hpurge)
        rw [hunswept]
        refine ⟨?_, fun later hclock hall _ => hleft' later hclock
          (fun call hmem => hall call (List.mem_cons_of_mem _ hmem))
          (hleft later hclock (hall _ List.mem_cons_self))⟩
        rw [answers, answers, htold, htold']

end Clock

/-! ### Numbers as readings -/

theorem ages_of_isClock {readings : List Number} (h : Number.IsClock readings) : Ages (· ∈ readings) :=
  fun birth now later _ hbirth hnow hlater hle hvalid =>
    Number.age_le_of_le (h.of_subset (by simp [hbirth, hnow, hlater] : [birth, now, later] ⊆ readings)) hle hvalid

/-- What the sweeps among some calls leave as it would be without them. -/
structure SweepsUnseen (ttl : Number) (capacity : Nat) (calls : List (Number × CacheCall Number V)) : Prop where
  /-- Every read tells what it would tell if nobody had swept. -/
  answers : (empty ttl capacity).answers calls = (empty ttl capacity).answers (unswept calls)
  /-- The entries that have not expired are those that there would be, with their records of use and in their
  order. -/
  unexpired : ∀ now, Number.IsClock (now :: calls.map Prod.fst) → (∀ call ∈ calls, call.1 ≤ now) →
    ((empty ttl capacity).after calls).unexpired now = ((empty ttl capacity).after (unswept calls)).unexpired now
  /-- A sweep removes as many entries as are counted as expired right before it. -/
  removed : ∀ before now since, calls = before ++ (now, .purge) :: since →
    ((empty ttl capacity).after before).size - (((empty ttl capacity).after before).purge now).size
      = (((empty ttl capacity).after before).statistics now).expiredCount

/-- **When a cache is swept makes no difference to those who read it**, if its clock does not go back and there
is room for all keys that are ever stored. -/
theorem sweepsUnseen_of_room (ttl : Number) {capacity : Nat} {calls : List (Number × CacheCall Number V)}
    (hclock : Number.IsClock (calls.map Prod.fst)) (horder : (calls.map Prod.fst).Pairwise (· ≤ ·))
    (hroom : (storedKeys calls).dedup.length ≤ capacity) (hcalls : ∀ call ∈ calls, ¬ call.2.Adjusts) :
    SweepsUnseen ttl capacity calls := by
  have hready : ∀ clock : Number → Prop, Ready (empty ttl capacity : Cache Number V) clock (storedKeys calls) :=
    fun clock => ⟨⟨List.nodup_nil, List.nil_subset _, hroom⟩, fun _ _ hmem => absurd hmem List.not_mem_nil⟩
  refine ⟨?_, fun now hclock' hlast => ?_, fun before now since _ => ?_⟩
  · exact ((hready _).after_alike (ages_of_isClock hclock) (hready _) (fun call hmem => List.mem_map_of_mem hmem)
      horder (List.Subset.refl _) hcalls fun _ _ => rfl).1
  · have hswept := ((hready _).after_alike (ages_of_isClock hclock') (hready _)
      (fun call hmem => List.mem_cons_of_mem _ (List.mem_map_of_mem hmem)) horder (List.Subset.refl _) hcalls
      fun _ _ => rfl).2 now List.mem_cons_self hlast rfl
    exact congrArg entries hswept
  · have hsize := size_purge_add_expiredCount ((empty ttl capacity : Cache Number V).after before) now
    exact Nat.sub_eq_of_eq_add (by rw [Nat.add_comm]; exact hsize.symm)

/-- An entry is swept away, and one that has expired is overwritten without having been swept. -/
theorem sweepsUnseen_of_room_two_keys :
    let calls : List (Number × CacheCall Number Nat) :=
      [(0, .set "a" 1 (some 2)), (1, .set "b" 2 (some 4)), (3, .purge), (4, .get "a"), (5, .set "a" 3 none),
        (6, .get "b"), (7, .set "b" 4 none), (8, .purge), (8, .has "a")]
    Number.IsClock (calls.map Prod.fst) ∧ (calls.map Prod.fst).Pairwise (· ≤ ·) ∧
      (storedKeys calls).dedup.length ≤ 2 ∧ (∀ call ∈ calls, ¬ call.2.Adjusts) ∧ SweepsUnseen 10 2 calls ∧
      (empty 10 2).answers calls = [.value none, .value none, .presence true] := by
  intro calls
  have hclock : Number.IsClock (calls.map Prod.fst) := by
    refine .inl ?_
    simp only [calls, List.map_cons, List.map_nil, List.forall_mem_cons]
    exact ⟨trivial, trivial, trivial, trivial, trivial, trivial, trivial, trivial, trivial,
      fun _ hmem => absurd hmem List.not_mem_nil⟩
  have horder : (calls.map Prod.fst).Pairwise (· ≤ ·) := by decide
  have hroom : (storedKeys calls).dedup.length ≤ 2 := by decide
  have hcalls : ∀ call ∈ calls, ¬ call.2.Adjusts := by simp [calls, CacheCall.Adjusts]
  exact ⟨hclock, horder, hroom, hcalls, sweepsUnseen_of_room 10 hclock horder hroom hcalls, by decide⟩

end Cache

end ManifestLens
