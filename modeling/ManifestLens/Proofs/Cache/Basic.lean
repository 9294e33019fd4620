import ManifestLens.Cache.Basic

/-!
# What a cache holds

A property of the values in a cache, with their keys, birthdays and lifetimes, is kept by everything that
can happen to the cache: reading changes the record of use and the order and removes what has expired, and
storing adds one value. What a reading gives is told by the entry of the key.
-/

namespace ManifestLens

variable {T V : Type}

namespace Cache

variable {cache : Cache T V} {P Q : String → V → T → T → Prop} {key : String}

/-- Every entry has a property, told by its key, its value, the reading of the clock when it was stored and its
lifetime. -/
def Every (cache : Cache T V) (P : String → V → T → T → Prop) : Prop :=
  ∀ key entry, (key, entry) ∈ cache.entries → P key entry.data entry.createdAt entry.ttl

theorem Every.mono (h : cache.Every P) (himp : ∀ key value birth ttl, P key value birth ttl →
    Q key value birth ttl) : cache.Every Q := fun key entry hmem => himp _ _ _ _ (h key entry hmem)

theorem Every.of_subset {other : Cache T V} (h : cache.Every P) (hsub : other.entries ⊆ cache.entries) :
    other.Every P := fun key entry hmem => h key entry (hsub hmem)

theorem every_clear (cache : Cache T V) (P : String → V → T → T → Prop) : cache.clear.Every P :=
  fun _ _ hmem => absurd hmem List.not_mem_nil

theorem Every.erase (h : cache.Every P) (key : String) : (cache.erase key).Every P :=
  h.of_subset fun _ hmem => (List.mem_filter.mp hmem).1

theorem Every.makeRoom (h : cache.Every P) : cache.makeRoom.Every P := by
  unfold Cache.makeRoom
  split
  · exact h.of_subset (List.drop_subset 1 _)
  · exact h

theorem entries_adjust_subset (cache : Cache T V) (ttl : Option T) (capacity : Option Int) :
    (cache.adjust ttl capacity).1.entries ⊆ cache.entries := by
  unfold Cache.adjust
  cases capacity with
  | none => exact List.Subset.refl _
  | some capacity =>
      simp only
      split
      · exact List.Subset.refl _
      · exact List.drop_subset _ _

theorem mem_entries_of_entry {entry : CacheEntry T V} (h : cache.entry? key = some entry) :
    (key, entry) ∈ cache.entries := by
  obtain ⟨⟨found, value⟩, hfind, rfl⟩ := Option.map_eq_some_iff.mp h
  have hkey : found = key := by simpa using List.find?_some hfind
  exact hkey ▸ List.mem_of_find?_eq_some hfind

theorem entry?_eq_none_iff : cache.entry? key = none ↔ ∀ e ∈ cache.entries, e.1 ≠ key := by
  simp [Cache.entry?, List.find?_eq_none]

theorem entry?_append (h : cache.entry? key = none) (entry : CacheEntry T V) :
    Cache.entry? { cache with entries := cache.entries ++ [(key, entry)] } key = some entry := by
  have hfind : cache.entries.find? (·.1 == key) = none := by simpa [Cache.entry?] using h
  simp [Cache.entry?, List.find?_append, hfind]

theorem entry?_erase (cache : Cache T V) (key : String) : Cache.entry? (cache.erase key) key = none := by
  simp [Cache.entry?, erase, List.find?_eq_none]

theorem erase_of_entry?_eq_none (h : cache.entry? key = none) : cache.erase key = cache := by
  have hall : ∀ e ∈ cache.entries, (e.1 != key) = true := by simpa using entry?_eq_none_iff.mp h
  rw [erase, List.filter_eq_self.mpr hall]

theorem entry?_makeRoom (h : cache.entry? key = none) : Cache.entry? cache.makeRoom key = none := by
  unfold makeRoom
  split
  · exact entry?_eq_none_iff.mpr fun e he => entry?_eq_none_iff.mp h e (List.drop_subset 1 _ he)
  · exact h

theorem Every.set (h : cache.Every P) {now : T} {value : V} {ttl : Option T}
    (hnew : P key value now (ttl.getD cache.ttl)) : (cache.set now key value ttl).Every P := by
  intro other found hmem
  rw [Cache.set] at hmem
  rcases List.mem_append.mp hmem with hmem | hmem
  · split at hmem
    · exact h.erase key other found hmem
    · exact h.makeRoom other found hmem
  · obtain ⟨rfl, rfl⟩ : other = key ∧ found = _ := by simpa using hmem
    exact hnew

theorem entry?_set (cache : Cache T V) (now : T) (key : String) (value : V) (ttl : Option T) :
    Cache.entry? (cache.set now key value ttl) key = some ⟨value, now, ttl.getD cache.ttl, 1, now⟩ := by
  refine entry?_append ?_ _
  split
  · exact entry?_erase cache key
  · next h => exact entry?_makeRoom (Option.not_isSome_iff_eq_none.mp h)

theorem ttl_set (cache : Cache T V) (now : T) (key : String) (value : V) (ttl : Option T) :
    (cache.set now key value ttl).ttl = cache.ttl := by
  unfold set makeRoom
  split
  · rfl
  · split <;> rfl

section Clock

variable [Sub T] [LE T] [DecidableLE T] {now : T}

theorem get_of_valid {entry : CacheEntry T V} (h : cache.entry? key = some entry)
    (hvalid : entry.isValid now = true) : (cache.get now key).1 = some entry.data := by
  rw [get, h]
  simp only [if_pos hvalid]

/-- What is read is in the entry of the key. -/
theorem exists_entry_of_get {value : V} (h : (cache.get now key).1 = some value) :
    ∃ entry, cache.entry? key = some entry ∧ entry.data = value := by
  unfold get at h
  split at h
  · cases h
  · next entry hentry =>
    split at h
    · exact ⟨entry, hentry, Option.some.inj h⟩
    · cases h

theorem entry?_get_of_valid {entry : CacheEntry T V} (h : cache.entry? key = some entry)
    (hvalid : entry.isValid now = true) : Cache.entry? (cache.get now key).2 key
      = some { entry with accessCount := entry.accessCount + 1, lastAccessed := now } := by
  rw [get, h]
  simp only [if_pos hvalid]
  exact entry?_append (entry?_erase cache key) _

/-- Without an entry that has not expired nothing is read and the key has no entry any more. -/
theorem get_of_not_valid (h : ∀ entry, cache.entry? key = some entry → entry.isValid now = false) :
    cache.get now key = (none, cache.erase key) := by
  rw [get]
  split
  · next hnone => rw [erase_of_entry?_eq_none hnone]
  · next entry hentry => rw [if_neg (by simp [h entry hentry])]

theorem Every.get (h : cache.Every P) (now : T) (key : String) : (cache.get now key).2.Every P := by
  unfold Cache.get
  split
  · exact h
  · next entry hentry =>
    split
    · intro other found hmem
      rcases List.mem_append.mp hmem with hmem | hmem
      · exact h.erase key other found hmem
      · obtain ⟨rfl, rfl⟩ : other = key ∧ found = _ := by simpa using hmem
        exact h _ entry (mem_entries_of_entry hentry)
    · exact h.erase key

theorem ttl_get (cache : Cache T V) (now : T) (key : String) : (cache.get now key).2.ttl = cache.ttl := by
  unfold get
  split
  · rfl
  · split <;> rfl

end Clock

end Cache

end ManifestLens

/-!
## No two views share a key

The keys of the four kinds of views begin with different words, and the mark for pre-releases comes last,
so a key tells its view whatever the names are, be they normal forms or not.
-/

namespace ManifestLens

namespace CacheKey

/-- What is cached. -/
inductive Subject where
  | package (name : String) (includePre : Bool)
  | versions (name : String) (includePre : Bool)
  | info (name : String)
  | connectivity (baseUrl : String)
deriving DecidableEq, Repr

def Subject.key : Subject → String
  | .package name includePre => CacheKey.package name includePre
  | .versions name includePre => CacheKey.versions name includePre
  | .info name => CacheKey.info name
  | .connectivity baseUrl => CacheKey.connectivity baseUrl

/-- The mark for pre-releases can be told from the end of a text, and so can what stands before it. -/
theorem append_scope_inj {a b : String} {p q : Bool} (h : a ++ ":" ++ scope p = b ++ ":" ++ scope q) :
    a = b ∧ p = q := by
  have hlist : a.toList ++ ":".toList ++ (scope p).toList = b.toList ++ ":".toList ++ (scope q).toList := by
    simpa only [String.toList_append] using congrArg String.toList h
  have hmark : p = q := by
    have hreverse := congrArg List.reverse hlist
    cases p <;> cases q <;> simp [scope] at hreverse ⊢
  subst hmark
  exact ⟨String.toList_inj.mp (List.append_cancel_right (List.append_cancel_right hlist)), rfl⟩

theorem append_left_inj {a b c : String} (h : a ++ b = a ++ c) : b = c := by
  have hlist := congrArg String.toList h
  rw [String.toList_append, String.toList_append] at hlist
  exact String.toList_inj.mp (List.append_cancel_left hlist)

/-- The kinds of views are told apart by the first letter of the key. -/
def Subject.initial : Subject → Char
  | .package .. => 'p'
  | .versions .. => 'v'
  | .info _ => 'i'
  | .connectivity _ => 'c'

theorem Subject.head?_key (subject : Subject) : subject.key.toList.head? = some subject.initial := by
  cases subject <;>
    simp [key, initial, CacheKey.package, CacheKey.versions, CacheKey.info, CacheKey.connectivity,
      String.toList_append]

/-- **Keys tell views apart**, whatever the texts in them are. -/
theorem Subject.key_injective {a b : Subject} (h : a.key = b.key) : a = b := by
  have hinitial : a.initial = b.initial := by
    have hhead := congrArg (fun key => key.toList.head?) h
    simpa only [head?_key, Option.some.injEq] using hhead
  cases a <;> cases b <;> simp only [initial, Char.reduceEq] at hinitial
  case package.package =>
    obtain ⟨hname, rfl⟩ := append_scope_inj h
    rw [append_left_inj hname]
  case versions.versions =>
    obtain ⟨hname, rfl⟩ := append_scope_inj h
    rw [append_left_inj hname]
  case info.info => rw [append_left_inj h]
  case connectivity.connectivity => rw [append_left_inj h]

end CacheKey

end ManifestLens
