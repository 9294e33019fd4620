import ManifestLens.Proofs.Cache.History

/-!
# Caches of different capacities

Two caches see the same calls at the same readings of the clock, and one of them has room for more entries.
What the smaller one holds the larger one holds as well, entry by entry and in the same order, so room is never
wasted: no read finds something in the smaller cache only. What carries this through evictions is a bound on
how far the larger cache can be ahead: it is full only if the smaller one is full too, and then the entry that
it gives up is one that the smaller one gives up or has given up before.
-/

namespace ManifestLens

variable {T V : Type}

theorem length_filter_add_le {α : Type} {part whole : List α} (h : part.Sublist whole) (p : α → Bool) :
    (whole.filter p).length + part.length ≤ (part.filter p).length + whole.length := by
  induction h with
  | slnil => exact Nat.le_refl _
  | @cons part whole first _ ih =>
      have hfirst : ((first :: whole).filter p).length ≤ (whole.filter p).length + 1 := by
        rw [List.filter_cons]
        split <;> simp
      rw [List.length_cons]
      omega
  | @cons_cons part whole first _ ih =>
      rw [List.filter_cons, List.filter_cons, List.length_cons, List.length_cons]
      split
      · simp only [List.length_cons]
        omega
      · omega

/-- The call changes what the cache has been set to. -/
def CacheCall.Adjusts : CacheCall T V → Prop
  | .adjust .. => True
  | _ => False

namespace Cache

/-- The larger of two caches holds the entries of the smaller one, in the same order, and is not further ahead of
it than it has more room. -/
structure Includes (larger smaller : Cache T V) : Prop where
  entries : smaller.entries.Sublist larger.entries
  room : larger.size + smaller.capacity ≤ smaller.size + larger.capacity
  ttl : smaller.ttl = larger.ttl

namespace Includes

variable {larger smaller : Cache T V} {key : String}

theorem empty (ttl : T) {m n : Nat} (h : m ≤ n) : Includes (.empty ttl n : Cache T V) (.empty ttl m) :=
  ⟨List.Sublist.refl _, Nat.add_le_add_left h 0, rfl⟩

theorem entry?_eq_none (h : Includes larger smaller) (hnone : larger.entry? key = none) :
    smaller.entry? key = none :=
  entry?_eq_none_iff.mpr fun e he => entry?_eq_none_iff.mp hnone e (h.entries.subset he)

/-- The entry that a key has in the smaller cache it has in the larger one. -/
theorem entry? (h : Includes larger smaller) (hnodup : larger.keys.Nodup) {entry : CacheEntry T V}
    (hentry : smaller.entry? key = some entry) : larger.entry? key = some entry :=
  (entry?_eq_some_iff hnodup).mpr (h.entries.subset (mem_entries_of_entry hentry))

theorem mem_keys (h : Includes larger smaller) (hkey : key ∈ smaller.keys) : key ∈ larger.keys :=
  (h.entries.map Prod.fst).subset hkey

/-- What keeps apart from both caches the entries that a test does not pass keeps one included in the other. -/
theorem filter (h : Includes larger smaller) (p : String × CacheEntry T V → Bool) :
    Includes { larger with entries := larger.entries.filter p }
      { smaller with entries := smaller.entries.filter p } := by
  refine ⟨h.entries.filter p, ?_, h.ttl⟩
  have hless := length_filter_add_le h.entries p
  have hroom := h.room
  simp only [size] at hroom ⊢
  omega

theorem clear (h : Includes larger smaller) : Includes larger.clear smaller.clear := by
  simpa [Cache.clear] using h.filter fun _ => false

theorem erase (h : Includes larger smaller) (key : String) : Includes (larger.erase key) (smaller.erase key) :=
  h.filter _

/-- Where both caches put the same entry at the end, nothing changes between them. -/
theorem append (h : Includes larger smaller) (e : String × CacheEntry T V) :
    Includes { larger with entries := larger.entries ++ [e] }
      { smaller with entries := smaller.entries ++ [e] } := by
  refine ⟨h.entries.append_right [e], ?_, h.ttl⟩
  have hroom := h.room
  simp only [size, List.length_append] at hroom ⊢
  omega

/-- Where only the larger cache has an entry, that one may be put at the end. -/
theorem moved (h : Includes larger smaller) (hkey : key ∈ larger.keys) (hnone : smaller.entry? key = none)
    (entry : CacheEntry T V) :
    Includes { larger with entries := (larger.erase key).entries ++ [(key, entry)] } smaller := by
  have herased : (smaller.erase key).entries.Sublist (larger.erase key).entries := (h.erase key).entries
  rw [erase_of_entry?_eq_none hnone] at herased
  refine ⟨herased.trans (List.sublist_append_left _ _), ?_, h.ttl⟩
  have hless := size_erase_lt hkey
  have hroom := h.room
  simp only [size, List.length_append, List.length_singleton] at hless hroom ⊢
  omega

section Clock

variable [Sub T] [LE T] [DecidableLE T] {now : T}

theorem get (h : Includes larger smaller) (hnodup : larger.keys.Nodup) (now : T) (key : String) :
    Includes (larger.get now key).2 (smaller.get now key).2 := by
  cases hlarger : larger.entry? key with
  | none =>
      rw [Cache.get, hlarger, Cache.get, h.entry?_eq_none hlarger]
      exact h
  | some entry =>
      by_cases hvalid : entry.isValid now = true
      · cases hsmaller : smaller.entry? key with
        | none =>
            rw [Cache.get, hlarger, Cache.get, hsmaller]
            simp only [if_pos hvalid]
            exact h.moved (mem_keys_iff.mpr (by rw [hlarger]; rfl)) hsmaller _
        | some found =>
            obtain rfl : entry = found := Option.some.inj (hlarger.symm.trans (h.entry? hnodup hsmaller))
            rw [Cache.get, hlarger, Cache.get, hsmaller]
            simp only [if_pos hvalid]
            exact (h.erase key).append _
      · have hold : ∀ found, larger.entry? key = some found → found.isValid now = false := by
          intro found hfound
          rw [hlarger] at hfound
          cases hfound
          simpa using hvalid
        rw [get_of_not_valid hold, get_of_not_valid fun found hfound => hold found (h.entry? hnodup hfound)]
        exact h.erase key

theorem has (h : Includes larger smaller) (hnodup : larger.keys.Nodup) (now : T) (key : String) :
    Includes (larger.has now key).2 (smaller.has now key).2 := by
  cases hlarger : larger.entry? key with
  | none =>
      rw [Cache.has, hlarger, Cache.has, h.entry?_eq_none hlarger]
      exact h
  | some entry =>
      cases hsmaller : smaller.entry? key with
      | none =>
          -- The smaller cache has nothing to remove.
          have herased : Includes (larger.erase key) smaller := by
            have herased := h.erase key
            rwa [erase_of_entry?_eq_none hsmaller] at herased
          rw [Cache.has, hlarger, Cache.has, hsmaller]
          simp only
          split
          · exact h
          · exact herased
      | some found =>
          obtain rfl : entry = found := Option.some.inj (hlarger.symm.trans (h.entry? hnodup hsmaller))
          rw [Cache.has, hlarger, Cache.has, hsmaller]
          simp only
          split
          · exact h
          · exact h.erase key

end Clock

/-- **Room for a new key.** If the larger cache has to give up its first entry, so has the smaller one. -/
theorem makeRoom (h : Includes larger smaller) : Includes larger.makeRoom smaller.makeRoom := by
  have hroom := h.room
  simp only [size] at hroom
  unfold Cache.makeRoom
  split
  · next hfull =>
    rw [if_pos (by omega)]
    refine ⟨h.entries.drop 1, ?_, h.ttl⟩
    simp only [size, List.length_drop]
    have hsize := h.entries.length_le
    omega
  · split
    · refine ⟨(List.drop_sublist 1 _).trans h.entries, ?_, h.ttl⟩
      simp only [size, List.length_drop]
      omega
    · exact h

/-- Room that the larger cache makes by giving up an entry of its own is enough for the smaller one, too. -/
theorem erase_makeRoom (h : Includes larger smaller) (hkey : key ∈ larger.keys)
    (hnone : smaller.entry? key = none) : Includes (larger.erase key) smaller.makeRoom := by
  have herased := h.erase key
  rw [erase_of_entry?_eq_none hnone] at herased
  have hless := size_erase_lt hkey
  have hroom := h.room
  simp only [size] at hless hroom
  unfold Cache.makeRoom
  split
  · refine ⟨(List.drop_sublist 1 _).trans herased.entries, ?_, h.ttl⟩
    simp only [size, List.length_drop, Cache.erase] at hless ⊢
    omega
  · exact herased

theorem set (h : Includes larger smaller) (now : T) (key : String) (value : V) (own : Option T) :
    Includes (larger.set now key value own) (smaller.set now key value own) := by
  rw [Cache.set, Cache.set, h.ttl]
  refine append ?_ _
  cases hsmaller : smaller.entry? key with
  | some found =>
      have hlarger : (larger.entry? key).isSome = true :=
        mem_keys_iff.mp (h.mem_keys (mem_keys_iff.mpr (by rw [hsmaller]; rfl)))
      rw [if_pos hlarger]
      exact h.erase key
  | none =>
      split
      · next hlarger => exact h.erase_makeRoom (mem_keys_iff.mpr hlarger) hsmaller
      · exact h.makeRoom

/-- **One call** keeps one cache included in the other. -/
theorem step [Sub T] [LE T] [DecidableLE T] (h : Includes larger smaller) (hnodup : larger.keys.Nodup)
    (now : T) {call : CacheCall T V} (hcall : ¬ call.Adjusts) :
    Includes (larger.step now call) (smaller.step now call) := by
  cases call with
  | get key => exact h.get hnodup now key
  | has key => exact h.has hnodup now key
  | set key value own => exact h.set now key value own
  | erase key => exact h.erase key
  | purge => exact h.filter _
  | clear | dispose => exact h.clear
  | adjust own capacity => exact absurd trivial hcall

/-- **A run** keeps one cache included in the other. -/
theorem after [Sub T] [LE T] [DecidableLE T] (h : Includes larger smaller) (hnodup : larger.keys.Nodup)
    {calls : List (T × CacheCall T V)} (hcalls : ∀ call ∈ calls, ¬ call.2.Adjusts) :
    Includes (larger.after calls) (smaller.after calls) := by
  induction calls generalizing larger smaller with
  | nil => exact h
  | cons call calls ih =>
      exact ih (h.step hnodup call.1 (hcalls call List.mem_cons_self)) (nodup_step hnodup call.1 call.2)
        fun later hlater => hcalls later (List.mem_cons_of_mem _ hlater)

end Includes

variable [Sub T] [LE T] [DecidableLE T]

/-- Whatever the smaller of two caches has, the larger one has as well. -/
structure HasAllOf (larger smaller : Cache T V) : Prop where
  /-- The entries of the smaller cache are among those of the larger one, with their records of use and in the order
  in which they were used last. -/
  entries : smaller.entries.Sublist larger.entries
  get : ∀ (now : T) (key : String) (value : V),
    (smaller.get now key).1 = some value → (larger.get now key).1 = some value
  has : ∀ (now : T) (key : String), (smaller.has now key).1 = true → (larger.has now key).1 = true

theorem Includes.hasAllOf {larger smaller : Cache T V} (h : Includes larger smaller)
    (hnodup : larger.keys.Nodup) : HasAllOf larger smaller := by
  have hget : ∀ (now : T) (key : String) (value : V),
      (smaller.get now key).1 = some value → (larger.get now key).1 = some value := by
    intro now key value hvalue
    obtain ⟨entry, hentry, hvalid, hdata⟩ := get_eq_some_iff.mp hvalue
    exact get_eq_some_iff.mpr ⟨entry, h.entry? hnodup hentry, hvalid, hdata⟩
  refine ⟨h.entries, hget, fun now key hhit => ?_⟩
  rw [has_eq_isSome_get] at hhit ⊢
  obtain ⟨value, hvalue⟩ := Option.isSome_iff_exists.mp hhit
  exact Option.isSome_iff_exists.mpr ⟨value, hget now key value hvalue⟩

/-- **A larger cache is never worse.** Two caches with one lifetime that begin empty and see the same calls at the
same readings of the clock, whatever these are, differ in nothing but the entries for which only the larger one
has room. It is so after every call, for the calls up to then are a run as well. -/
theorem hasAllOf_after (ttl : T) {m n : Nat} (h : m ≤ n) {calls : List (T × CacheCall T V)}
    (hcalls : ∀ call ∈ calls, ¬ call.2.Adjusts) :
    HasAllOf ((empty ttl n).after calls) ((empty ttl m).after calls) :=
  ((Includes.empty ttl h).after List.nodup_nil hcalls).hasAllOf (nodup_after ttl n calls)

/-- A read that finds something in the larger cache only changes the order there, and a value expires in both. -/
theorem hasAllOf_after_expired :
    let calls : List (Int × CacheCall Int Nat) :=
      [(0, .set "a" 1 none), (1, .set "b" 2 (some 3)), (2, .set "c" 3 none), (3, .get "a"), (5, .has "b"),
        (6, .set "d" 4 none)]
    2 ≤ 3 ∧ (∀ call ∈ calls, ¬ call.2.Adjusts) ∧
      HasAllOf ((empty 10 3).after calls) ((empty 10 2).after calls) ∧
      ((empty 10 3).after calls).keys = ["c", "a", "d"] ∧ ((empty 10 2).after calls).keys = ["c", "d"] := by
  intro calls
  have hcalls : ∀ call ∈ calls, ¬ call.2.Adjusts := by simp [calls, CacheCall.Adjusts]
  exact ⟨by decide, hcalls, hasAllOf_after 10 (by decide : 2 ≤ 3) hcalls, by decide, by decide⟩

end Cache

end ManifestLens
