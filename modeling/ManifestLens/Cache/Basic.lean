import ManifestLens.Number.Basic

/-!
# A bounded cache whose entries expire

A store of entries in the order of their last use. An entry goes by expiry, by eviction, when a new
key needs room and it is the least recently used one, or by removal. Time is whatever the caller reads
off its clock; the cache only subtracts readings and compares the difference with a lifetime.
-/

namespace ManifestLens

/-- A stored value with its lifetime and the record of its use. -/
structure CacheEntry (T V : Type) where
  data : V
  /-- The clock reading when the value was stored. -/
  createdAt : T
  ttl : T
  /-- How often the value was stored or read. -/
  accessCount : Nat
  /-- The clock reading when the value was last stored or read. -/
  lastAccessed : T
deriving DecidableEq, Repr

/-- A cache. The least recently used entry comes first. -/
structure Cache (T V : Type) where
  /-- The lifetime of entries that are stored without one of their own. -/
  ttl : T
  /-- The greatest number of entries. -/
  capacity : Nat
  entries : List (String × CacheEntry T V)
deriving DecidableEq, Repr

variable {T V : Type}

/-- The entry has not expired at a clock reading: its age does not exceed its lifetime. -/
def CacheEntry.isValid [Sub T] [LE T] [DecidableLE T] (entry : CacheEntry T V) (now : T) : Bool :=
  decide (now - entry.createdAt ≤ entry.ttl)

namespace Cache

/-- A cache without entries. -/
def empty (ttl : T) (capacity : Nat) : Cache T V := ⟨ttl, capacity, []⟩

/-- The keys of the entries in the order of their last use. -/
def keys (cache : Cache T V) : List String := cache.entries.map Prod.fst

/-- The number of entries, expired ones included. -/
def size (cache : Cache T V) : Nat := cache.entries.length

/-- The entry of a key, expired or not. -/
def entry? (cache : Cache T V) (key : String) : Option (CacheEntry T V) :=
  (cache.entries.find? (·.1 == key)).map Prod.snd

def erase (cache : Cache T V) (key : String) : Cache T V :=
  { cache with entries := cache.entries.filter (·.1 != key) }

def clear (cache : Cache T V) : Cache T V := { cache with entries := [] }

/-- The cache without the least recently used entries that exceed its capacity. -/
def shrink (cache : Cache T V) : Cache T V :=
  { cache with entries := cache.entries.drop (cache.entries.length - cache.capacity) }

def makeRoom (cache : Cache T V) : Cache T V :=
  if cache.capacity ≤ cache.entries.length then { cache with entries := cache.entries.drop 1 }
  else cache

section Clock

variable [Sub T] [LE T] [DecidableLE T]

/-- Reads the value of a key. A hit counts as a use; an expired entry is removed. -/
def get (cache : Cache T V) (now : T) (key : String) : Option V × Cache T V :=
  match cache.entry? key with
  | none => (none, cache)
  | some entry =>
      if entry.isValid now then
        let used := { entry with accessCount := entry.accessCount + 1, lastAccessed := now }
        (some entry.data, { cache with entries := (cache.erase key).entries ++ [(key, used)] })
      else (none, cache.erase key)

/-- Whether a key has a value that has not expired. A hit does not count as a use; an expired entry
is removed. -/
def has (cache : Cache T V) (now : T) (key : String) : Bool × Cache T V :=
  match cache.entry? key with
  | none => (false, cache)
  | some entry => if entry.isValid now then (true, cache) else (false, cache.erase key)

/-- Stores a value under a key, with a lifetime of its own if one is given. A new key evicts the least
recently used entry of a full cache. -/
def set (cache : Cache T V) (now : T) (key : String) (value : V) (ttl : Option T := none) :
    Cache T V :=
  let room := if (cache.entry? key).isSome then cache.erase key else cache.makeRoom
  { room with entries := room.entries ++ [(key, ⟨value, now, ttl.getD cache.ttl, 1, now⟩)] }

/-- The cache without its expired entries. -/
def purge (cache : Cache T V) (now : T) : Cache T V :=
  { cache with entries := cache.entries.filter fun (_, entry) => entry.isValid now }

/-- The number of expired entries. -/
def expiredCount (cache : Cache T V) (now : T) : Nat :=
  cache.entries.countP fun (_, entry) => !entry.isValid now

end Clock

/-- Changes the default lifetime and the capacity, as far as they are given. Entries keep their
lifetimes; those that exceed a smaller capacity are evicted. A capacity below one is refused after
the lifetime has been changed; the second component tells whether the capacity was accepted. -/
def adjust (cache : Cache T V) (ttl : Option T) (capacity : Option Int) :
    Cache T V × Bool :=
  let cache := { cache with ttl := ttl.getD cache.ttl }
  match capacity with
  | none => (cache, true)
  | some capacity =>
      if capacity < 1 then (cache, false)
      else ({ cache with capacity := capacity.toNat }.shrink, true)

/-- What is said of a capacity below one. -/
def capacityMessage : String := "max_entries must be at least 1"

end Cache

end ManifestLens

/-!
## Cache keys

The keys under which the views of a package, and the reachability of an index, are cached.
-/

namespace ManifestLens

namespace CacheKey

/-- Whether pre-releases belong to a view, as part of its key. -/
def scope (includePre : Bool) : String := if includePre then "pre" else "stable"

/-- The key of a package's metadata. -/
def package (name : String) (includePre : Bool) : String :=
  "pkg:" ++ name ++ ":" ++ scope includePre

/-- The key of a package's list of releases. -/
def versions (name : String) (includePre : Bool) : String :=
  "versions:" ++ name ++ ":" ++ scope includePre

/-- The key of a package's descriptive fields. -/
def info (name : String) : String := "info:" ++ name

/-- The key of the reachability of an index. -/
def connectivity (baseUrl : String) : String := "connectivity:" ++ baseUrl

end CacheKey

end ManifestLens

/-!
## Cache statistics
-/

namespace ManifestLens

/-- A snapshot of the use of a cache. -/
structure CacheStatistics where
  totalEntries : Nat
  capacity : Nat
  expiredCount : Nat
  /-- The mean age of the entries in seconds, rounded to two decimals. -/
  averageAge : Binary64
  totalAccessCount : Nat
deriving DecidableEq, Repr

namespace Cache

/-- The age of an entry, which is never negative. -/
def age {V : Type} (entry : CacheEntry Number V) (now : Number) : Number :=
  Number.maxOf (.float (.finite 0)) (now - entry.createdAt)

/-- The snapshot of a cache at a clock reading. -/
def statistics {V : Type} (cache : Cache Number V) (now : Number) : CacheStatistics :=
  let entries := cache.entries.map Prod.snd
  let totalAge := (entries.map (age · now)).foldl (· + ·) 0
  { totalEntries := entries.length
    capacity := cache.capacity
    expiredCount := cache.expiredCount now
    averageAge :=
      if entries.isEmpty then .finite 0 else (totalAge.divNat entries.length).roundToCents
    totalAccessCount := (entries.map (·.accessCount)).foldl (· + ·) 0 }

end Cache

end ManifestLens
