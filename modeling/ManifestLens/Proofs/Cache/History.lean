import ManifestLens.Proofs.Cache.Run
import Mathlib.Data.List.Induction

/-!
# What a cache answers, told by its history

What a cache has for a key is decided by the last call that stored something there: its value, the moment and
the lifetime that were set then, and nothing that the settings became later. Going through the calls since, the
entry is either what it was, but for the record of its use, or gone; and the ways in which it can go are few.
-/

namespace ManifestLens

variable {T V : Type}

namespace CacheCall

/-- The call stores a value under a key. -/
def Stores (key : String) : CacheCall T V → Prop
  | .set other _ _ => other = key
  | _ => False

/-- The call is there to remove the value of a key, or all values. -/
def Removes (key : String) : CacheCall T V → Prop
  | .erase other => other = key
  | .clear | .dispose => True
  | _ => False

end CacheCall

/-- The lifetime of values without one of their own after some calls. -/
def lifetimeAfter (ttl : T) (calls : List (T × CacheCall T V)) : T :=
  calls.foldl (fun ttl call =>
    match call.2 with
    | .adjust changed _ => changed.getD ttl
    | _ => ttl) ttl

/-- The last call that stores something under a key, the calls before it and those since. -/
structure StoredLast (calls before : List (T × CacheCall T V)) (birth : T) (key : String) (value : V)
    (own : Option T) (since : List (T × CacheCall T V)) : Prop where
  calls_eq : calls = before ++ (birth, .set key value own) :: since
  last : ∀ call ∈ since, ¬ call.2.Stores key

namespace Cache

variable [Sub T] [LE T] [DecidableLE T]

/-- How often calls read the value of a key. -/
def hits (cache : Cache T V) (key : String) : List (T × CacheCall T V) → Nat
  | [] => 0
  | (now, call) :: calls =>
      (match call with
        | .get other => if other = key ∧ (cache.get now key).1.isSome then 1 else 0
        | _ => 0) + (cache.step now call).hits key calls

/-- How an entry can go. -/
inductive Departs (cache : Cache T V) (now : T) (key : String) : CacheCall T V → Prop where
  | removed {call : CacheCall T V} (h : call.Removes key) : Departs cache now key call
  /-- It is found to be too old. -/
  | expired {call : CacheCall T V} {entry : CacheEntry T V} (hcall : call = .get key ∨ call = .has key ∨ call = .purge)
      (hentry : cache.entry? key = some entry) (hold : ¬ now - entry.createdAt ≤ entry.ttl) :
      Departs cache now key call
  /-- It was used least recently when a new key needed room. -/
  | evicted {other : String} {value : V} {own : Option T} (hnew : other ∉ cache.keys)
      (hfull : cache.size = cache.capacity) (hfirst : cache.keys.head? = some key) :
      Departs cache now key (.set other value own)
  /-- It was among the first ones, for which a smaller capacity has no room. -/
  | surplus {ttl : Option T} {capacity : Int} (hcapacity : 1 ≤ capacity)
      (hfirst : key ∈ cache.keys.take (cache.size - capacity.toNat)) :
      Departs cache now key (.adjust ttl (some capacity))

variable {cache : Cache T V} {now : T} {call : CacheCall T V} {key : String}

/-! ### One call -/

theorem get_eq_some_iff {value : V} : (cache.get now key).1 = some value ↔
    ∃ entry, cache.entry? key = some entry ∧ now - entry.createdAt ≤ entry.ttl ∧ entry.data = value := by
  unfold get
  cases hentry : cache.entry? key with
  | none => simp
  | some entry =>
      by_cases hvalid : now - entry.createdAt ≤ entry.ttl <;> simp [CacheEntry.isValid, hvalid]

theorem has_eq_isSome_get (cache : Cache T V) (now : T) (key : String) :
    (cache.has now key).1 = (cache.get now key).1.isSome := by
  unfold has get
  split
  · rfl
  · split <;> rfl

theorem ttl_step (cache : Cache T V) (now : T) (call : CacheCall T V) :
    (cache.step now call).ttl = lifetimeAfter cache.ttl [(now, call)] := by
  cases call with
  | get key => exact ttl_get cache now key
  | has key =>
      simp only [step, has]
      split
      · rfl
      · split <;> rfl
  | set key value own => exact ttl_set cache now key value own
  | adjust ttl capacity =>
      simp only [step, adjust]
      cases capacity with
      | none => rfl
      | some capacity =>
          simp only
          split <;> rfl
  | erase | clear | purge | dispose => rfl

theorem ttl_after (cache : Cache T V) (calls : List (T × CacheCall T V)) :
    (cache.after calls).ttl = lifetimeAfter cache.ttl calls := by
  induction calls generalizing cache with
  | nil => rfl
  | cons call calls ih =>
      have hstep := ih (cache.step call.1 call.2)
      rw [ttl_step] at hstep
      exact hstep

theorem entry?_step_of_removes (h : call.Removes key) : Cache.entry? (cache.step now call) key = none := by
  cases call with
  | erase other =>
      obtain rfl : other = key := h
      exact entry?_erase cache other
  | clear | dispose => rfl
  | _ => exact h.elim

/-- **The entry of a key after a call** has just been stored, or it is that from before the call, with a hit
counted. -/
theorem entry?_step (hnodup : cache.keys.Nodup) {entry : CacheEntry T V}
    (h : Cache.entry? (cache.step now call) key = some entry) :
    (∃ value own, call = .set key value own) ∨
      ¬ call.Stores key ∧ ∃ old, cache.entry? key = some old ∧ entry.data = old.data ∧
        entry.createdAt = old.createdAt ∧ entry.ttl = old.ttl ∧
        entry.accessCount = old.accessCount + cache.hits key [(now, call)] := by
  obtain ⟨kept, hkept, hentries, hfresh⟩ := cache.exists_step_entries now call
  have hmem := mem_entries_of_entry h
  rw [hentries, List.mem_append, Option.mem_toList] at hmem
  rcases hmem with hmem | hplaced
  · have hold := (entry?_eq_some_iff hnodup).mpr (hkept.subset hmem)
    have hother : ∀ p ∈ cache.placed now call, p.1 ≠ key := fun p hp heq => hfresh _ hmem p hp heq.symm
    refine .inr ⟨?_, entry, hold, rfl, rfl, rfl, ?_⟩
    · cases call with
      | set other value own => exact hother _ rfl
      | _ => exact id
    · cases call with
      | get other =>
          have hmiss : ¬ (other = key ∧ (cache.get now key).1.isSome = true) := by
            rintro ⟨rfl, hhit⟩
            obtain ⟨value, hvalue⟩ := Option.isSome_iff_exists.mp hhit
            obtain ⟨found, hfound, hvalid, -⟩ := get_eq_some_iff.mp hvalue
            refine hother (other, { found with accessCount := found.accessCount + 1, lastAccessed := now }) ?_ rfl
            simp [placed, hfound, CacheEntry.isValid, hvalid, Option.filter]
          simp [hits, hmiss]
      | _ => rfl
  · cases call with
    | get other =>
        obtain ⟨old, hold, hentry⟩ := Option.map_eq_some_iff.mp hplaced
        obtain ⟨hfound, hvalid⟩ := Option.filter_eq_some_iff.mp hold
        obtain ⟨rfl, rfl⟩ := Prod.mk.inj hentry
        have hhit : (cache.get now other).1 = some old.data := get_of_valid hfound hvalid
        exact .inr ⟨id, old, hfound, rfl, rfl, rfl, by simp [hits, hhit]⟩
    | set other value own =>
        obtain ⟨rfl, -⟩ := Prod.mk.inj (Option.some.inj hplaced)
        exact .inl ⟨value, own, rfl⟩
    | _ => cases hplaced

/-! ### A run -/

/-- **The entry of a key after calls that store nothing there** is that from before them, with their hits counted,
and none of them has removed it. -/
theorem entry?_after (hnodup : cache.keys.Nodup) {since : List (T × CacheCall T V)}
    (hsince : ∀ call ∈ since, ¬ call.2.Stores key) {entry : CacheEntry T V}
    (h : Cache.entry? (cache.after since) key = some entry) :
    (∀ call ∈ since, ¬ call.2.Removes key) ∧ ∃ old, cache.entry? key = some old ∧ entry.data = old.data ∧
      entry.createdAt = old.createdAt ∧ entry.ttl = old.ttl ∧
      entry.accessCount = old.accessCount + cache.hits key since := by
  induction since generalizing cache with
  | nil => exact ⟨fun _ hmem => absurd hmem List.not_mem_nil, entry, h, rfl, rfl, rfl, rfl⟩
  | cons call since ih =>
      obtain ⟨hremoves, mid, hmid, hdata, hbirth, httl, hcount⟩ :=
        ih (nodup_step hnodup call.1 call.2) (fun other hother => hsince other (List.mem_cons_of_mem _ hother)) h
      rcases entry?_step hnodup hmid with ⟨value, own, hcall⟩ | ⟨-, old, hold, hdata', hbirth', httl', hcount'⟩
      · exact absurd (show call.2.Stores key by rw [hcall]; rfl) (hsince call List.mem_cons_self)
      · refine ⟨?_, old, hold, hdata.trans hdata', hbirth.trans hbirth', httl.trans httl', ?_⟩
        · intro other hother
          rcases List.mem_cons.mp hother with rfl | hother
          · intro hremove
            rw [entry?_step_of_removes hremove] at hmid
            cases hmid
          · exact hremoves other hother
        · rw [hcount, hcount']
          simp only [hits, Nat.add_zero]
          omega

variable {ttl : T} {capacity : Nat} {calls before since : List (T × CacheCall T V)} {birth : T} {value : V}
  {own : Option T} {entry : CacheEntry T V}

theorem nodup_after (ttl : T) (capacity : Nat) (calls : List (T × CacheCall T V)) :
    ((empty ttl capacity).after calls).keys.Nodup := by
  induction calls using List.reverseRecOn with
  | nil => exact List.nodup_nil
  | append_singleton calls call ih =>
      rw [after_append]
      exact nodup_step ih call.1 call.2

theorem entry?_of_storedLast (hlast : StoredLast calls before birth key value own since)
    (h : Cache.entry? ((empty ttl capacity).after calls) key = some entry) :
    (∀ call ∈ since, ¬ call.2.Removes key) ∧ entry.data = value ∧ entry.createdAt = birth ∧
      entry.ttl = own.getD (lifetimeAfter ttl before) ∧
      entry.accessCount
        = 1 + ((empty ttl capacity).after (before ++ [(birth, .set key value own)])).hits key since := by
  obtain ⟨rfl, hsince⟩ := hlast
  rw [List.append_cons, after_append] at h
  obtain ⟨hremoves, old, hold, hdata, hbirth, httl, hcount⟩ :=
    entry?_after (nodup_after ttl capacity _) hsince h
  have hstored : Cache.entry? ((empty ttl capacity).after (before ++ [(birth, .set key value own)])) key
      = some ⟨value, birth, own.getD (lifetimeAfter ttl before), 1, birth⟩ := by
    have httl : ((empty ttl capacity : Cache T V).after before).ttl = lifetimeAfter ttl before := ttl_after _ _
    rw [after_append, ← httl]
    exact entry?_set _ _ _ _ _
  rw [hstored, Option.some.injEq] at hold
  subst hold
  exact ⟨hremoves, hdata, hbirth, httl, hcount⟩

/-- A key that has an entry had something stored. -/
theorem exists_storedLast (h : key ∈ ((empty ttl capacity : Cache T V).after calls).keys) :
    ∃ before birth value own since, StoredLast calls before birth key value own since := by
  induction calls using List.reverseRecOn with
  | nil => cases h
  | append_singleton calls call ih =>
      obtain ⟨entry, hentry⟩ := Option.isSome_iff_exists.mp (mem_keys_iff.mp h)
      rw [after_append] at hentry
      rcases entry?_step (nodup_after ttl capacity calls) hentry with
        ⟨value, own, hcall⟩ | ⟨hstores, old, hold, -⟩
      · refine ⟨calls, call.1, value, own, [], ?_, fun _ hmem => absurd hmem List.not_mem_nil⟩
        rw [← hcall]
      · obtain ⟨before, birth, value, own, since, rfl, hsince⟩ :=
          ih (mem_keys_iff.mpr (by rw [hold]; rfl))
        refine ⟨before, birth, value, own, since ++ [call], by simp, ?_⟩
        intro other hother
        rcases List.mem_append.mp hother with hother | hother
        · exact hsince other hother
        · obtain rfl := List.mem_singleton.mp hother
          exact hstores

/-! ### Who goes -/

theorem departs_get {other : String} (hmem : key ∈ cache.keys) (hgone : key ∉ (cache.get now other).2.keys) :
    cache.Departs now key (.get other) := by
  cases hfound : cache.entry? other with
  | none =>
      rw [get, hfound] at hgone
      exact absurd hmem hgone
  | some found =>
      by_cases hvalid : found.isValid now = true
      · have hentries : (cache.get now other).2.entries = (cache.erase other).entries
            ++ [(other, { found with accessCount := found.accessCount + 1, lastAccessed := now })] := by
          rw [get, hfound]
          simp only [if_pos hvalid]
        exact absurd (mem_keys_of_entries_append hentries
          ((eq_or_ne key other).imp id (mem_keys_erase hmem))) hgone
      · rw [get, hfound] at hgone
        simp only [if_neg hvalid] at hgone
        obtain rfl := eq_of_not_mem_keys_erase hmem hgone
        exact .expired (.inl rfl) hfound (by simpa [CacheEntry.isValid] using hvalid)

theorem departs_has {other : String} (hmem : key ∈ cache.keys) (hgone : key ∉ (cache.has now other).2.keys) :
    cache.Departs now key (.has other) := by
  cases hfound : cache.entry? other with
  | none =>
      rw [has, hfound] at hgone
      exact absurd hmem hgone
  | some found =>
      rw [has, hfound] at hgone
      by_cases hvalid : found.isValid now = true
      · simp only [if_pos hvalid] at hgone
        exact absurd hmem hgone
      · simp only [if_neg hvalid] at hgone
        obtain rfl := eq_of_not_mem_keys_erase hmem hgone
        exact .expired (.inr (.inl rfl)) hfound (by simpa [CacheEntry.isValid] using hvalid)

omit [DecidableLE T] in
theorem departs_set (hsound : cache.IsSound) {other : String} {value : V} {own : Option T}
    (hmem : key ∈ cache.keys) (hgone : key ∉ (cache.set now other value own).keys) :
    cache.Departs now key (.set other value own) := by
  by_cases hother : other ∈ cache.keys
  · refine absurd (mem_keys_of_entries_append (entries_set_of_mem hother now value own) ?_) hgone
    exact (eq_or_ne key other).imp id (mem_keys_erase hmem)
  · have hset := entries_set_of_not_mem hother now value own
    have hroom : key ∉ cache.makeRoom.keys := fun hkey =>
      hgone (mem_keys_of_entries_append hset (.inr hkey))
    rcases Nat.lt_or_eq_of_le hsound.size_le with hless | hfull
    · rw [keys, entries_makeRoom_of_lt hless] at hroom
      exact absurd hmem hroom
    · cases hentries : cache.entries with
      | nil =>
          rw [keys, hentries] at hmem
          cases hmem
      | cons first rest =>
          rw [keys, entries_makeRoom_of_full hentries hfull] at hroom
          have hkeys : cache.keys = first.1 :: rest.map Prod.fst := by rw [keys, hentries, List.map_cons]
          refine .evicted hother hfull ?_
          rw [hkeys, List.mem_cons] at hmem
          rw [hkeys, List.head?_cons, hmem.resolve_right hroom]

theorem departs_purge (hmem : key ∈ cache.keys) (hgone : key ∉ (cache.purge now).keys) :
    cache.Departs now key .purge := by
  obtain ⟨entry, hentry⟩ := Option.isSome_iff_exists.mp (mem_keys_iff.mp hmem)
  refine .expired (.inr (.inr rfl)) hentry fun hvalid => hgone ?_
  exact List.mem_map.mpr ⟨(key, entry), List.mem_filter.mpr
    ⟨mem_entries_of_entry hentry, by simpa [CacheEntry.isValid] using hvalid⟩, rfl⟩

omit [DecidableLE T] in
theorem departs_adjust {changed : Option T} {limit : Option Int} (hmem : key ∈ cache.keys)
    (hgone : key ∉ (cache.adjust changed limit).1.keys) : cache.Departs now key (.adjust changed limit) := by
  cases limit with
  | none => exact absurd hmem hgone
  | some limit =>
      by_cases hlimit : 1 ≤ limit
      · rw [keys, entries_adjust_some changed hlimit, List.map_drop] at hgone
        refine .surplus hlimit ?_
        rw [← List.take_append_drop (cache.size - limit.toNat) cache.keys, List.mem_append] at hmem
        exact hmem.resolve_right hgone
      · rw [adjust] at hgone
        simp only [if_pos (Int.not_le.mp hlimit)] at hgone
        exact absurd hmem hgone

/-- **Nothing is lost otherwise.** -/
theorem departs_of_not_mem_step (hsound : cache.IsSound) (hmem : key ∈ cache.keys)
    (hgone : key ∉ (cache.step now call).keys) : cache.Departs now key call := by
  cases call with
  | get other => exact departs_get hmem hgone
  | has other => exact departs_has hmem hgone
  | set other value own => exact departs_set hsound hmem hgone
  | erase other => exact .removed (eq_of_not_mem_keys_erase hmem hgone).symm
  | clear | dispose => exact .removed trivial
  | purge => exact departs_purge hmem hgone
  | adjust changed limit => exact departs_adjust hmem hgone

/-! ### What a cache answers -/

/-- What a cache that was empty before some calls has, and can lose, told by these calls. -/
structure AnswersFor (ttl : T) (capacity : Nat) (calls : List (T × CacheCall T V)) : Prop where
  /-- A value is read just if its key is among the entries and the last value stored there is not too old: not
  older than the lifetime that it was given, or that was the rule when it was stored. -/
  get_iff : ∀ (now : T) (key : String) (value : V),
    (((empty ttl capacity).after calls).get now key).1 = some value ↔
      key ∈ ((empty ttl capacity : Cache T V).after calls).keys ∧ ∃ before birth own since,
        StoredLast calls before birth key value own since ∧ (∀ call ∈ since, ¬ call.2.Removes key) ∧
          now - birth ≤ own.getD (lifetimeAfter ttl before)
  /-- A key that is among the entries had a value stored that nobody has removed, and its reads are counted. -/
  entry : ∀ key ∈ ((empty ttl capacity : Cache T V).after calls).keys, ∃ before birth value own since,
    StoredLast calls before birth key value own since ∧ (∀ call ∈ since, ¬ call.2.Removes key) ∧
      ∃ entry, Cache.entry? ((empty ttl capacity).after calls) key = some entry ∧ entry.data = value ∧
        entry.accessCount
          = 1 + ((empty ttl capacity).after (before ++ [(birth, .set key value own)])).hits key since
  has : ∀ (now : T) (key : String), (((empty ttl capacity : Cache T V).after calls).has now key).1
    = (((empty ttl capacity : Cache T V).after calls).get now key).1.isSome
  departs : ∀ (now : T) (call : CacheCall T V) (key : String),
    key ∈ ((empty ttl capacity : Cache T V).after calls).keys →
      key ∉ (((empty ttl capacity).after calls).step now call).keys →
        Departs ((empty ttl capacity).after calls) now key call

/-- **Never stale, never lost.** Whatever a cache is asked and told, and whatever its clock shows, what it
answers is told by the calls that it has seen. -/
theorem answersFor_after (ttl : T) {capacity : Nat} (hcapacity : 1 ≤ capacity)
    (calls : List (T × CacheCall T V)) : AnswersFor ttl capacity calls := by
  have hsound : ((empty ttl capacity : Cache T V).after calls).IsSound := (isSound_empty ttl hcapacity).after calls
  refine ⟨fun now key value => ⟨fun hget => ?_, ?_⟩, fun key hmem => ?_,
    fun now key => has_eq_isSome_get _ now key,
    fun now call key hmem hgone => departs_of_not_mem_step hsound hmem hgone⟩
  · obtain ⟨entry, hentry, hvalid, rfl⟩ := get_eq_some_iff.mp hget
    have hmem := mem_keys_iff.mpr (Option.isSome_of_eq_some hentry)
    obtain ⟨before, birth, value, own, since, hlast⟩ := exists_storedLast hmem
    obtain ⟨hremoves, hdata, hbirth, httl, -⟩ := entry?_of_storedLast hlast hentry
    rw [hbirth, httl] at hvalid
    exact ⟨hmem, before, birth, own, since, hdata ▸ hlast, hremoves, hvalid⟩
  · rintro ⟨hmem, before, birth, own, since, hlast, -, hvalid⟩
    obtain ⟨entry, hentry⟩ := Option.isSome_iff_exists.mp (mem_keys_iff.mp hmem)
    obtain ⟨-, hdata, hbirth, httl, -⟩ := entry?_of_storedLast hlast hentry
    exact get_eq_some_iff.mpr ⟨entry, hentry, by rwa [hbirth, httl], hdata⟩
  · obtain ⟨before, birth, value, own, since, hlast⟩ := exists_storedLast hmem
    obtain ⟨entry, hentry⟩ := Option.isSome_iff_exists.mp (mem_keys_iff.mp hmem)
    obtain ⟨hremoves, hdata, -, -, hcount⟩ := entry?_of_storedLast hlast hentry
    exact ⟨before, birth, value, own, since, hlast, hremoves, entry, hentry, hdata, hcount⟩

/-- A value lives as long as was the rule when it was stored, its last moment included. -/
theorem answersFor_after_boundary :
    let calls : List (Int × CacheCall Int Nat) :=
      [(0, .set "a" 1 none), (5, .adjust (some 2) none), (7, .get "a")]
    1 ≤ 3 ∧ AnswersFor 10 3 calls ∧ (((empty 10 3).after calls).get 10 "a").1 = some 1 ∧
      (((empty 10 3).after calls).get 11 "a").1 = none := by
  intro calls
  have hanswers := answersFor_after (10 : Int) (by decide : 1 ≤ 3) calls
  have hsince : ∀ call ∈ calls.drop 1, ¬ call.2.Stores "a" ∧ ¬ call.2.Removes "a" := by
    intro call hcall
    rcases List.mem_cons.mp hcall with rfl | hcall
    · exact ⟨id, id⟩
    · obtain rfl := List.mem_singleton.mp hcall
      exact ⟨id, id⟩
  refine ⟨by decide, hanswers, (hanswers.get_iff 10 "a" 1).mpr ⟨by decide, [], 0, none, calls.drop 1,
    ⟨rfl, fun call hcall => (hsince call hcall).1⟩, fun call hcall => (hsince call hcall).2, by decide⟩, by decide⟩

end Cache

end ManifestLens
