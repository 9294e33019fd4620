import ManifestLens.Cache.Sweeper
import ManifestLens.Proofs.Cache.Basic
import Mathlib.Data.List.Dedup
import Mathlib.Data.List.Induction
import Mathlib.Data.List.Nodup

/-!
# Runs of a cache

A run is a list of calls, each with what the clock shows when it is made, and nothing is assumed about the
clock. Of every call it is said once what it does to the list of entries: some entries stay, in their order,
and at most one is put at the end, under a key that none of the others has. What a run keeps follows from
that by induction, first of all that no two entries share a key and that there are never too many of them.
-/

namespace ManifestLens

/-- What can be asked of a cache, or told. -/
inductive CacheCall (T V : Type) where
  | get (key : String)
  /-- Whether a key has a value; to ask whether the key is in the cache is the same. -/
  | has (key : String)
  | set (key : String) (value : V) (ttl : Option T)
  | erase (key : String)
  | clear
  | purge
  | adjust (ttl : Option T) (capacity : Option Int)
  /-- Drops all entries for good. -/
  | dispose

variable {T V : Type}

namespace Cache

/-! ### Entries and their keys -/

section Entries

variable {cache : Cache T V} {key : String}

theorem erase_sublist (cache : Cache T V) (key : String) :
    (cache.erase key).entries.Sublist cache.entries := List.filter_sublist

theorem ne_of_mem_erase {e : String × CacheEntry T V} (h : e ∈ (cache.erase key).entries) : e.1 ≠ key := by
  simpa using (List.mem_filter.mp h).2

theorem makeRoom_sublist (cache : Cache T V) : cache.makeRoom.entries.Sublist cache.entries := by
  unfold makeRoom
  split
  · exact List.drop_sublist 1 _
  · exact List.Sublist.refl _

theorem adjust_sublist (cache : Cache T V) (ttl : Option T) (capacity : Option Int) :
    (cache.adjust ttl capacity).1.entries.Sublist cache.entries := by
  unfold adjust
  cases capacity with
  | none => exact List.Sublist.refl _
  | some capacity =>
      simp only
      split
      · exact List.Sublist.refl _
      · exact List.drop_sublist _ _

theorem mem_keys_iff : key ∈ cache.keys ↔ (cache.entry? key).isSome = true := by
  rw [← not_iff_not, Bool.not_eq_true, Option.isSome_eq_false_iff, Option.isNone_iff_eq_none,
    entry?_eq_none_iff]
  simp only [keys, List.mem_map, not_exists, not_and]

theorem entry?_eq_some_iff (h : cache.keys.Nodup) {entry : CacheEntry T V} :
    cache.entry? key = some entry ↔ (key, entry) ∈ cache.entries := by
  refine ⟨mem_entries_of_entry, fun hmem => ?_⟩
  cases hfound : cache.entry? key with
  | none => exact absurd rfl (entry?_eq_none_iff.mp hfound _ hmem)
  | some found =>
      have hpairs := List.inj_on_of_nodup_map h hmem (mem_entries_of_entry hfound) rfl
      rw [(Prod.mk.inj hpairs).2]

theorem mem_keys_erase {other : String} (h : key ∈ cache.keys) (hne : key ≠ other) :
    key ∈ (cache.erase other).keys := by
  obtain ⟨e, he, rfl⟩ := List.mem_map.mp h
  exact List.mem_map.mpr ⟨e, List.mem_filter.mpr ⟨he, by simpa using hne⟩, rfl⟩

/-- A key that has no entry any more when that of a key has been removed is that key. -/
theorem eq_of_not_mem_keys_erase {other : String} (hmem : key ∈ cache.keys)
    (hgone : key ∉ (cache.erase other).keys) : key = other := by
  by_contra hne
  exact hgone (mem_keys_erase hmem hne)

theorem mem_keys_of_entries_append {other : String} {kept : List (String × CacheEntry T V)}
    {later : Cache T V} {entry : CacheEntry T V} (hlater : later.entries = kept ++ [(other, entry)])
    (hmem : key = other ∨ key ∈ kept.map Prod.fst) : key ∈ later.keys := by
  rw [keys, hlater, List.map_append, List.mem_append]
  rcases hmem with rfl | hmem
  · exact .inr (by simp)
  · exact .inl hmem

theorem size_erase_lt (h : key ∈ cache.keys) : (cache.erase key).size < cache.size := by
  obtain ⟨e, he, rfl⟩ := List.mem_map.mp h
  exact List.length_filter_lt_length_iff_exists.mpr ⟨e, he, by simp⟩

theorem size_set_le (hsize : cache.size ≤ cache.capacity) (hcapacity : 1 ≤ cache.capacity) (now : T)
    (key : String) (value : V) (ttl : Option T) : (cache.set now key value ttl).size ≤ cache.capacity := by
  rw [set, size, List.length_append, List.length_singleton]
  split
  · next hsome =>
    have hless := size_erase_lt (mem_keys_iff.mpr hsome)
    simp only [size] at hless hsize
    omega
  · unfold makeRoom
    simp only [size] at hsize
    split
    · simp only [List.length_drop]
      omega
    · omega

theorem size_adjust_le (hsize : cache.size ≤ cache.capacity) (hcapacity : 1 ≤ cache.capacity)
    (ttl : Option T) (capacity : Option Int) :
    (cache.adjust ttl capacity).1.size ≤ (cache.adjust ttl capacity).1.capacity ∧
      1 ≤ (cache.adjust ttl capacity).1.capacity := by
  unfold adjust
  cases capacity with
  | none => exact ⟨hsize, hcapacity⟩
  | some capacity =>
      simp only
      split
      · exact ⟨hsize, hcapacity⟩
      · simp only [shrink, size, List.length_drop]
        omega

theorem entries_set_of_mem (h : key ∈ cache.keys) (now : T) (value : V) (ttl : Option T) :
    (cache.set now key value ttl).entries
      = cache.entries.filter (·.1 != key) ++ [(key, ⟨value, now, ttl.getD cache.ttl, 1, now⟩)] := by
  rw [set, if_pos (mem_keys_iff.mp h), erase]

theorem entries_set_of_not_mem (h : key ∉ cache.keys) (now : T) (value : V) (ttl : Option T) :
    (cache.set now key value ttl).entries
      = cache.makeRoom.entries ++ [(key, ⟨value, now, ttl.getD cache.ttl, 1, now⟩)] := by
  rw [set, if_neg fun hsome => h (mem_keys_iff.mpr hsome)]

theorem entries_makeRoom_of_lt (h : cache.size < cache.capacity) :
    cache.makeRoom.entries = cache.entries := by
  rw [size] at h
  rw [makeRoom, if_neg (Nat.not_le_of_lt h)]

theorem entries_makeRoom_of_full {first : String × CacheEntry T V} {rest : List (String × CacheEntry T V)}
    (hentries : cache.entries = first :: rest) (hfull : cache.size = cache.capacity) :
    cache.makeRoom.entries = rest := by
  rw [size] at hfull
  rw [makeRoom, if_pos (Nat.le_of_eq hfull.symm), hentries]
  rfl

theorem entries_adjust_some (ttl : Option T) {capacity : Int} (h : 1 ≤ capacity) :
    (cache.adjust ttl (some capacity)).1.entries = cache.entries.drop (cache.size - capacity.toNat) := by
  rw [adjust]
  simp only [if_neg (Int.not_lt.mpr h)]
  rfl

/-- No two entries share a key, and there are not more of them than the capacity, which is not zero. -/
structure IsSound (cache : Cache T V) : Prop where
  nodup : cache.keys.Nodup
  size_le : cache.size ≤ cache.capacity
  capacity_pos : 1 ≤ cache.capacity

theorem isSound_empty (ttl : T) {capacity : Nat} (h : 1 ≤ capacity) :
    (empty ttl capacity : Cache T V).IsSound := ⟨List.nodup_nil, Nat.zero_le _, h⟩

end Entries

/-! ### One call -/

section Clock

variable [Sub T] [LE T] [DecidableLE T]

/-- The cache after a call that is made when the clock shows `now`. -/
def step (cache : Cache T V) (now : T) : CacheCall T V → Cache T V
  | .get key => (cache.get now key).2
  | .has key => (cache.has now key).2
  | .set key value ttl => cache.set now key value ttl
  | .erase key => cache.erase key
  | .clear => cache.clear
  | .purge => cache.purge now
  | .adjust ttl capacity => (cache.adjust ttl capacity).1
  | .dispose => cache.clear

def after (cache : Cache T V) (calls : List (T × CacheCall T V)) : Cache T V :=
  calls.foldl (fun cache call => cache.step call.1 call.2) cache

/-- The entry that a call puts at the end: the one that it reads or the one that it stores. -/
def placed (cache : Cache T V) (now : T) : CacheCall T V → Option (String × CacheEntry T V)
  | .get key => ((cache.entry? key).filter (·.isValid now)).map fun entry =>
      (key, { entry with accessCount := entry.accessCount + 1, lastAccessed := now })
  | .set key value ttl => some (key, ⟨value, now, ttl.getD cache.ttl, 1, now⟩)
  | _ => none

variable {cache : Cache T V} {now : T} {call : CacheCall T V}

theorem after_append (cache : Cache T V) (first second : List (T × CacheCall T V)) :
    cache.after (first ++ second) = (cache.after first).after second := List.foldl_append

theorem cache_dispose (swept : SweptCache T V) :
    swept.dispose.cache = swept.cache.step swept.now .dispose := rfl

/-- **One call.** Some entries stay, in their order, and what is put at the end has a key of its own. -/
theorem exists_step_entries (cache : Cache T V) (now : T) (call : CacheCall T V) :
    ∃ kept, kept.Sublist cache.entries ∧
      (cache.step now call).entries = kept ++ (cache.placed now call).toList ∧
      ∀ e ∈ kept, ∀ p ∈ cache.placed now call, e.1 ≠ p.1 := by
  cases call with
  | get key =>
      cases hentry : cache.entry? key with
      | none => exact ⟨cache.entries, .refl _, by simp [step, get, placed, hentry], by simp [placed, hentry]⟩
      | some entry =>
          by_cases hvalid : entry.isValid now = true
          · refine ⟨(cache.erase key).entries, cache.erase_sublist key, ?_, ?_⟩
            · simp [step, get, placed, hentry, hvalid, Option.filter]
            · simp only [placed, hentry, Option.filter, hvalid, if_true, Option.map_some, Option.mem_some_iff,
                forall_eq']
              exact fun e he => ne_of_mem_erase he
          · refine ⟨(cache.erase key).entries, cache.erase_sublist key, ?_, ?_⟩
            · simp [step, get, placed, hentry, hvalid, Option.filter]
            · simp [placed, hentry, hvalid, Option.filter]
  | has key =>
      refine ⟨_, ?_, (List.append_nil _).symm, by simp [placed]⟩
      simp only [step, has]
      split
      · exact .refl _
      · split
        · exact .refl _
        · exact cache.erase_sublist key
  | set key value ttl =>
      cases hentry : cache.entry? key with
      | none =>
          refine ⟨cache.makeRoom.entries, cache.makeRoom_sublist, by simp [step, set, placed, hentry], ?_⟩
          rintro e he p ⟨⟩
          exact entry?_eq_none_iff.mp (entry?_makeRoom hentry) e he
      | some entry =>
          refine ⟨(cache.erase key).entries, cache.erase_sublist key, by simp [step, set, placed, hentry], ?_⟩
          rintro e he p ⟨⟩
          exact ne_of_mem_erase he
  | erase key => exact ⟨_, cache.erase_sublist key, (List.append_nil _).symm, by simp [placed]⟩
  | clear | dispose => exact ⟨[], List.nil_sublist _, rfl, by simp⟩
  | purge => exact ⟨_, List.filter_sublist, (List.append_nil _).symm, by simp [placed]⟩
  | adjust ttl capacity =>
      exact ⟨_, cache.adjust_sublist ttl capacity, (List.append_nil _).symm, by simp [placed]⟩

/-- What every entry has, it has after a call as well if what is stored has it. -/
theorem Every.step {P : String → V → T → T → Prop} (h : cache.Every P) (hnew : ∀ key value ttl, P key value now ttl)
    (call : CacheCall T V) : (cache.step now call).Every P := by
  cases call with
  | get key => exact h.get now key
  | set key value ttl => exact h.set (hnew ..)
  | has | erase | clear | purge | adjust | dispose =>
      obtain ⟨kept, hkept, hentries, -⟩ := cache.exists_step_entries now _
      apply h.of_subset
      rw [hentries]
      simpa [placed] using hkept.subset

theorem capacity_step (h : ∀ ttl capacity, call ≠ .adjust ttl capacity) :
    (cache.step now call).capacity = cache.capacity := by
  cases call with
  | get key =>
      simp only [step, get]
      split
      · rfl
      · split <;> rfl
  | has key =>
      simp only [step, has]
      split
      · rfl
      · split <;> rfl
  | set key value ttl =>
      simp only [step, set, makeRoom]
      split
      · rfl
      · split <;> rfl
  | adjust ttl capacity => exact absurd rfl (h ttl capacity)
  | erase | clear | purge | dispose => rfl

theorem size_step_le (h : ∀ key value ttl, call ≠ .set key value ttl) :
    (cache.step now call).size ≤ cache.size := by
  cases call with
  | get key =>
      simp only [step, get]
      split
      · exact Nat.le_refl _
      · next entry hentry =>
        have hless : (cache.erase key).size < cache.size :=
          size_erase_lt (mem_keys_iff.mpr (by rw [hentry]; rfl))
        split
        · simp only [size, List.length_append, List.length_singleton] at hless ⊢
          omega
        · exact Nat.le_of_lt hless
  | set key value ttl => exact absurd rfl (h key value ttl)
  | has | erase | clear | purge | adjust | dispose =>
      obtain ⟨kept, hkept, hentries, -⟩ := cache.exists_step_entries now _
      simp only [size]
      rw [hentries]
      simpa [placed] using hkept.length_le

/-! ### What every call keeps -/

theorem nodup_step (h : cache.keys.Nodup) (now : T) (call : CacheCall T V) :
    (cache.step now call).keys.Nodup := by
  obtain ⟨kept, hkept, hentries, hfresh⟩ := cache.exists_step_entries now call
  have hkeys : (kept.map Prod.fst).Nodup := (hkept.map Prod.fst).nodup h
  rw [keys, hentries, List.map_append]
  refine List.Nodup.append hkeys ?_ ?_
  · cases cache.placed now call <;> simp
  · intro key hkey hplaced
    obtain ⟨e, he, rfl⟩ := List.mem_map.mp hkey
    obtain ⟨p, hp, hkey⟩ := List.mem_map.mp hplaced
    exact hfresh e he p (by simpa using hp) hkey.symm

/-- **A call keeps a cache sound.** -/
theorem IsSound.step (h : cache.IsSound) (now : T) (call : CacheCall T V) : (cache.step now call).IsSound := by
  have hbounds : (cache.step now call).size ≤ (cache.step now call).capacity ∧
      1 ≤ (cache.step now call).capacity := by
    cases call with
    | set key value ttl =>
        rw [capacity_step (by simp)]
        exact ⟨size_set_le h.size_le h.capacity_pos now key value ttl, h.capacity_pos⟩
    | adjust ttl capacity => exact size_adjust_le h.size_le h.capacity_pos ttl capacity
    | _ =>
        rw [capacity_step (by simp)]
        exact ⟨Nat.le_trans (size_step_le (by simp)) h.size_le, h.capacity_pos⟩
  exact ⟨nodup_step h.nodup now call, hbounds.1, hbounds.2⟩

/-- **A run keeps a cache sound.** -/
theorem IsSound.after (h : cache.IsSound) (calls : List (T × CacheCall T V)) : (cache.after calls).IsSound := by
  induction calls generalizing cache with
  | nil => exact h
  | cons call calls ih => exact ih (h.step call.1 call.2)

end Clock

end Cache

end ManifestLens

/-!
## The order of use

A cache keeps its entries in the order in which their keys were used last. The record of uses is a list of
its own, written down call by call beside the cache; the keys of the cache are what is left of it when of
every key only the last use counts and the keys that are gone are passed over.
-/

namespace ManifestLens

variable {T V : Type}

/-! ### Last occurrences -/

theorem sublist_dedup_concat {key : String} {kept used : List String} (h : kept.Sublist used.dedup)
    (hkey : key ∉ kept) : (kept ++ [key]).Sublist (used ++ [key]).dedup := by
  rw [List.dedup_append]
  change (kept ++ [key]).Sublist (used ∪ [key])
  induction used generalizing kept with
  | nil =>
      obtain rfl : kept = [] := List.sublist_nil.mp h
      exact List.Sublist.refl _
  | cons first used ih =>
      rw [List.cons_union]
      by_cases hlater : first ∈ used
      · rw [List.dedup_cons_of_mem hlater] at h
        rw [List.insert_of_mem (List.mem_union_left hlater _)]
        exact ih h hkey
      · rw [List.dedup_cons_of_notMem hlater] at h
        cases h with
        | cons _ h =>
            have hgrows : (used ∪ [key]).Sublist ((used ∪ [key]).insert first) := by
              unfold List.insert
              split
              · exact List.Sublist.refl _
              · exact List.sublist_cons_self first _
            exact (ih h hkey).trans hgrows
        | cons_cons _ h =>
            have hne : first ≠ key := fun heq => hkey (heq ▸ List.mem_cons_self)
            have hnew : first ∉ used ∪ [key] := by simp [hlater, hne]
            rw [List.insert_of_not_mem hnew]
            exact (ih h fun hmem => hkey (List.mem_cons_of_mem _ hmem)).cons_cons first

theorem filter_mem_of_sublist {part whole : List String} (h : part.Sublist whole) (hnodup : whole.Nodup) :
    whole.filter (· ∈ part) = part := by
  induction h with
  | slnil => rfl
  | @cons part whole first h ih =>
      have hfirst : first ∉ part := fun hmem => (List.nodup_cons.mp hnodup).1 (h.subset hmem)
      rw [List.filter_cons_of_neg (by simpa using hfirst)]
      exact ih (List.nodup_cons.mp hnodup).2
  | @cons_cons part whole first h ih =>
      obtain ⟨hfirst, hrest⟩ := List.nodup_cons.mp hnodup
      rw [List.filter_cons_of_pos (by simp)]
      have hsame : ∀ key ∈ whole, decide (key ∈ first :: part) = decide (key ∈ part) := by
        intro key hkey
        have hne : key ≠ first := fun heq => hfirst (heq ▸ hkey)
        simp [hne]
      rw [List.filter_congr hsame, ih hrest]

namespace Cache

variable [Sub T] [LE T] [DecidableLE T]

/-! ### The record of uses -/

/-- The key that a call uses, by storing a value under it or by reading one. -/
def used (cache : Cache T V) (now : T) : CacheCall T V → Option String
  | .get key => if (cache.get now key).1.isSome then some key else none
  | .set key _ _ => some key
  | _ => none

def uses (cache : Cache T V) : List (T × CacheCall T V) → List String
  | [] => []
  | (now, call) :: calls => (cache.used now call).toList ++ (cache.step now call).uses calls

variable {cache : Cache T V} {now : T} {call : CacheCall T V}

theorem uses_append (cache : Cache T V) (first second : List (T × CacheCall T V)) :
    cache.uses (first ++ second) = cache.uses first ++ (cache.after first).uses second := by
  induction first generalizing cache with
  | nil => rfl
  | cons call first ih => simp only [List.cons_append, uses, ih, List.append_assoc, after, List.foldl_cons]

theorem map_fst_placed (cache : Cache T V) (now : T) (call : CacheCall T V) :
    (cache.placed now call).map Prod.fst = cache.used now call := by
  cases call with
  | get key =>
      cases hentry : cache.entry? key with
      | none => simp [placed, used, get, hentry]
      | some entry => by_cases hvalid : entry.isValid now = true <;>
          simp [placed, used, get, hentry, hvalid, Option.filter]
  | _ => rfl

theorem lastAccessed_of_placed {key : String} {entry : CacheEntry T V}
    (h : cache.placed now call = some (key, entry)) : entry.lastAccessed = now := by
  cases call with
  | get =>
      obtain ⟨found, -, hfound⟩ := Option.map_eq_some_iff.mp h
      exact (congrArg (·.2.lastAccessed) hfound).symm
  | set => exact (congrArg (·.2.lastAccessed) (Option.some.inj h)).symm
  | _ => cases h

/-! ### What the order of the entries tells -/

/-- **A call keeps the order of use.** -/
theorem keys_step_sublist {past : List String} (h : cache.keys.Sublist past.dedup) (now : T)
    (call : CacheCall T V) :
    (cache.step now call).keys.Sublist (past ++ (cache.used now call).toList).dedup := by
  obtain ⟨kept, hkept, hentries, hfresh⟩ := cache.exists_step_entries now call
  have hpast : (kept.map Prod.fst).Sublist past.dedup := (hkept.map Prod.fst).trans h
  rw [keys, hentries, ← map_fst_placed]
  cases hplaced : cache.placed now call with
  | none => simpa using hpast
  | some p =>
      have hkey : p.1 ∉ kept.map Prod.fst := by
        intro hmem
        obtain ⟨e, he, heq⟩ := List.mem_map.mp hmem
        exact hfresh e he p hplaced heq
      simpa using sublist_dedup_concat hpast hkey

theorem keys_after_sublist (ttl : T) (capacity : Nat) (calls : List (T × CacheCall T V)) :
    ((empty ttl capacity).after calls).keys.Sublist ((empty ttl capacity).uses calls).dedup := by
  induction calls using List.reverseRecOn with
  | nil => exact List.Sublist.refl _
  | append_singleton calls call ih =>
      rw [after_append, uses_append]
      simpa [after, uses] using keys_step_sublist ih call.1 call.2

/-- **With a clock that does not go back** the entries are in the order of their last use by the clock as well. -/
theorem pairwise_lastAccessed (ttl : T) (capacity : Nat) {calls : List (T × CacheCall T V)}
    (h : (calls.map Prod.fst).Pairwise (· ≤ ·)) :
    (((empty ttl capacity).after calls).entries.map (·.2.lastAccessed)).Pairwise (· ≤ ·) ∧
      ∀ e ∈ ((empty ttl capacity).after calls).entries, e.2.lastAccessed ∈ calls.map Prod.fst := by
  induction calls using List.reverseRecOn with
  | nil => exact ⟨List.Pairwise.nil, fun _ he => absurd he List.not_mem_nil⟩
  | append_singleton calls call ih =>
      rw [List.map_append, List.pairwise_append] at h
      obtain ⟨hbefore, -, hnow⟩ := h
      obtain ⟨hordered, hread⟩ := ih hbefore
      obtain ⟨kept, hkept, hentries, -⟩ :=
        ((empty ttl capacity).after calls).exists_step_entries call.1 call.2
      have hplaced : ∀ e ∈ (((empty ttl capacity).after calls).placed call.1 call.2).toList,
          e.2.lastAccessed = call.1 := fun e he => lastAccessed_of_placed (by simpa using he)
      have hstep : ((empty ttl capacity).after (calls ++ [call])).entries
          = kept ++ (((empty ttl capacity).after calls).placed call.1 call.2).toList := by
        rw [after_append]
        exact hentries
      rw [hstep, List.map_append, List.pairwise_append]
      refine ⟨⟨hordered.sublist (hkept.map _), ?_, ?_⟩, ?_⟩
      · cases ((empty ttl capacity).after calls).placed call.1 call.2 <;> simp
      · intro earlier hearlier later hlater
        obtain ⟨e, he, rfl⟩ := List.mem_map.mp hearlier
        obtain ⟨p, hp, rfl⟩ := List.mem_map.mp hlater
        rw [hplaced p hp]
        exact hnow _ (hread e (hkept.subset he)) _ (by simp)
      · intro e he
        rw [List.map_append, List.mem_append]
        rcases List.mem_append.mp he with he | he
        · exact .inl (hread e (hkept.subset he))
        · exact .inr (by simp [hplaced e he])

/-! ### The order of a run -/

/-- What the calls that a cache has seen since it was empty tell about its entries, and about those that go. -/
structure KeepsOrder (start : Cache T V) (calls : List (T × CacheCall T V)) : Prop where
  distinct : (start.after calls).keys.Nodup
  bounded : (start.after calls).size ≤ (start.after calls).capacity
  /-- Of the uses of every key that is there the last one counts. To ask whether a key has a value is no use. -/
  ordered : (start.after calls).keys = (start.uses calls).dedup.filter (· ∈ (start.after calls).keys)
  /-- So it is by the clock, if that does not go back. -/
  accessed : (calls.map Prod.fst).Pairwise (· ≤ ·) →
    ((start.after calls).entries.map (·.2.lastAccessed)).Pairwise (· ≤ ·)
  /-- A new key sends the first one away from a full cache, and nobody else. -/
  full : ∀ (now : T) (key : String) (value : V) (ttl : Option T), key ∉ (start.after calls).keys →
    (start.after calls).size = (start.after calls).capacity →
      ∃ first rest, (start.after calls).entries = first :: rest ∧
        ((start.after calls).step now (.set key value ttl)).entries
          = rest ++ [(key, ⟨value, now, ttl.getD (start.after calls).ttl, 1, now⟩)]
  room : ∀ (now : T) (key : String) (value : V) (ttl : Option T), key ∉ (start.after calls).keys →
    (start.after calls).size < (start.after calls).capacity →
      ((start.after calls).step now (.set key value ttl)).entries = (start.after calls).entries
        ++ [(key, ⟨value, now, ttl.getD (start.after calls).ttl, 1, now⟩)]
  /-- A key that is there, expired or not, sends only its own entry away. -/
  present : ∀ (now : T) (key : String) (value : V) (ttl : Option T), key ∈ (start.after calls).keys →
    ((start.after calls).step now (.set key value ttl)).entries
      = (start.after calls).entries.filter (·.1 != key)
        ++ [(key, ⟨value, now, ttl.getD (start.after calls).ttl, 1, now⟩)]
  /-- Of the entries for which a changed capacity has no room the first ones go. -/
  shrunk : ∀ (now : T) (ttl : Option T) (capacity : Int), 1 ≤ capacity →
    ((start.after calls).step now (.adjust ttl (some capacity))).entries
      = (start.after calls).entries.drop ((start.after calls).size - capacity.toNat)

/-- **The order of use.** Whatever a cache is asked and told, and whatever its clock shows, it has one entry for
a key and never too many, and its entries are in the order in which their keys were used last. When room is
needed for a new key, or the capacity becomes smaller, the first entries in that order go, no more of them than
have to, and nothing else goes with them. -/
theorem keepsOrder_after (ttl : T) {capacity : Nat} (hcapacity : 1 ≤ capacity)
    (calls : List (T × CacheCall T V)) : KeepsOrder (empty ttl capacity) calls := by
  have hsound : ((empty ttl capacity : Cache T V).after calls).IsSound := (isSound_empty ttl hcapacity).after calls
  refine ⟨hsound.nodup, hsound.size_le, ?_, fun hclock => (pairwise_lastAccessed ttl capacity hclock).1,
    ?_, ?_, fun now key value own hkey => entries_set_of_mem hkey now value own,
    fun now own capacity hcapacity => entries_adjust_some own hcapacity⟩
  · exact (filter_mem_of_sublist (keys_after_sublist ttl capacity calls) (List.nodup_dedup _)).symm
  · intro now key value own hkey hfull
    cases hentries : ((empty ttl capacity).after calls).entries with
    | nil =>
        have hpos := hsound.capacity_pos
        rw [← hfull, size, hentries] at hpos
        cases hpos
    | cons first rest =>
        refine ⟨first, rest, rfl, ?_⟩
        rw [step, entries_set_of_not_mem hkey, entries_makeRoom_of_full hentries hfull]
  · intro now key value own hkey hroom
    rw [step, entries_set_of_not_mem hkey, entries_makeRoom_of_lt hroom]

/-- A full cache of two in which the older value was read: the younger one goes when a third value comes. -/
theorem keepsOrder_after_full :
    let calls : List (Int × CacheCall Int Nat) :=
      [(0, .set "a" 1 none), (1, .set "b" 2 none), (1, .get "a"), (2, .has "b")]
    let cache := (empty 10 2).after calls
    1 ≤ 2 ∧ KeepsOrder (empty 10 2) calls ∧ cache.keys = ["b", "a"] ∧
      ∃ first rest, cache.entries = first :: rest ∧ first.1 = "b" ∧
        (cache.step 3 (.set "c" 3 none)).entries = rest ++ [("c", ⟨3, 3, 10, 1, 3⟩)] := by
  intro calls cache
  have horder := keepsOrder_after (10 : Int) (by decide : 1 ≤ 2) calls
  have hkeys : cache.keys = ["b", "a"] := by decide
  obtain ⟨first, rest, hentries, hset⟩ := horder.full 3 "c" 3 none (by decide) (by decide)
  refine ⟨by decide, horder, hkeys, first, rest, hentries, ?_, hset⟩
  rw [keys, show cache.entries = first :: rest from hentries] at hkeys
  exact (List.cons.inj hkeys).1

end Cache

end ManifestLens
