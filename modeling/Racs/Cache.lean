import Racs.KvStore

/-!
# The cache of SSTables

A cache (`cache.c`) is a hash table of nodes that are also linked into a list, the one that was used
last at the head. When the cache is full, the tail is evicted. A cache for one node only keeps the
pointer to the head when it evicts that node, and uses it next.

## Main definitions

* `Racs.Cache`, `Racs.scacheCreate`, `Racs.cacheGet`, `Racs.cachePut`.
* `Racs.Cache.Holds` — what is true of every value with its key.

## Main results

* `Racs.Cache.Holds.put` — a put keeps such facts.
* `Racs.cachePut_isSome` — a cache for two or more nodes takes every value.
-/

namespace Racs

/-- The key of a cached SSTable: a stream and the time in the name of the file. -/
abbrev CacheKey := UInt64 × UInt64

/-- `racs_cache_hash` and `racs_cache_cmp`. -/
def cacheOps : KvStoreOps CacheKey where
  hash key := murmur3X64128 (writeUint64 key.1 ++ writeUint64 key.2)
  cmp x y := x.1 = y.1 ∧ x.2 = y.2

theorem cacheOps_exact : cacheOps.Exact := fun x y => by
  rw [cacheOps, decide_eq_true_iff]
  exact Prod.ext_iff.symm

/-- `racs_cache`: the values by key, and the keys of the list from the head to the tail. The
capacity is that of the table. -/
structure Cache where
  kv : KvStore CacheKey (List UInt8)
  order : List CacheKey

/-- `racs_scache_create`. -/
def scacheCreate (capacity : ℕ) (h : 0 < capacity) : Cache :=
  ⟨kvstoreCreate capacity h cacheOps, []⟩

/-- `racs_cache_move_to_head`. -/
def cacheMoveToHead (cache : Cache) (key : CacheKey) : Cache :=
  { cache with order := key :: cache.order.erase key }

/-- `racs_cache_get`. -/
def cacheGet (cache : Cache) (key : CacheKey) : Option (List UInt8) × Cache :=
  match kvstoreGet cache.kv key with
  | none => (none, cache)
  | some value => (some value, cacheMoveToHead cache key)

/-- `racs_cache_evict`. Undefined when the list is empty, or when the tail is also the head: the
pointer to the head is then one to freed memory. -/
def cacheEvict (cache : Cache) : Option Cache :=
  match cache.order.getLast? with
  | none => none
  | some tail =>
    if cache.order.length = 1 then none
    else some ⟨kvstoreDelete cache.kv tail, cache.order.dropLast⟩

/-- `racs_cache_put`. -/
def cachePut (cache : Cache) (key : CacheKey) (value : List UInt8) : Option Cache :=
  match kvstoreGet cache.kv key with
  | some _ => some (cacheMoveToHead cache key)
  | none =>
    (if cache.kv.capacity ≤ cache.order.length then cacheEvict cache else some cache).map
      fun cache => ⟨kvstorePut cache.kv key value, key :: cache.order⟩

/-! ### What a cache holds -/

/-- The table of a cache, with its comparison and without duplicate keys. -/
structure Cache.Valid (cache : Cache) : Prop where
  ops : cache.kv.ops = cacheOps
  distinct : cache.kv.KeysDistinct

theorem Cache.Valid.exact {cache : Cache} (h : cache.Valid) : cache.kv.ops.Exact :=
  h.ops ▸ cacheOps_exact

/-- The relation is true of every value with its key. -/
def Cache.Holds (cache : Cache) (R : CacheKey → List UInt8 → Prop) : Prop :=
  ∀ key value, kvstoreGet cache.kv key = some value → R key value

theorem scacheCreate_valid (capacity : ℕ) (h : 0 < capacity) : (scacheCreate capacity h).Valid :=
  ⟨rfl, keysDistinct_create capacity h cacheOps⟩

theorem scacheCreate_holds (capacity : ℕ) (h : 0 < capacity) (R : CacheKey → List UInt8 → Prop) :
    (scacheCreate capacity h).Holds R := fun _ _ hget => by cases hget

variable {cache cache' : Cache} {key : CacheKey} {value : List UInt8}
  {R : CacheKey → List UInt8 → Prop}

/-- A value that is found is one that the cache holds. -/
theorem cacheGet_fst : (cacheGet cache key).1 = kvstoreGet cache.kv key := by
  rw [cacheGet]
  split
  · rename_i hnone
    exact hnone.symm
  · rename_i hsome
    exact hsome.symm

/-- What remains after an eviction was there before. -/
theorem cacheEvict_kv (h : cacheEvict cache = some cache') :
    ∃ tail, cache'.kv = kvstoreDelete cache.kv tail := by
  rw [cacheEvict] at h
  split at h
  · cases h
  · split_ifs at h
    obtain rfl := Option.some.inj h
    exact ⟨_, rfl⟩

theorem Cache.Valid.evict (h : cache.Valid) (hevict : cacheEvict cache = some cache') :
    cache'.Valid := by
  obtain ⟨tail, hkv⟩ := cacheEvict_kv hevict
  constructor
  · rw [hkv]
    exact h.ops
  · rw [hkv]
    exact keysDistinct_delete h.distinct tail

theorem Cache.Holds.evict (h : cache.Holds R) (hvalid : cache.Valid)
    (hevict : cacheEvict cache = some cache') : cache'.Holds R := by
  obtain ⟨tail, hkv⟩ := cacheEvict_kv hevict
  intro key value hget
  rw [hkv, kvstoreGet_delete hvalid.exact hvalid.distinct] at hget
  split_ifs at hget
  exact h key value hget

/-- A put of a new key, with the eviction in front of it. -/
theorem cachePut_cases (h : cachePut cache key value = some cache') :
    cache' = cacheMoveToHead cache key ∨
      ∃ cache₁, (cache₁ = cache ∨ cacheEvict cache = some cache₁) ∧
        cache' = ⟨kvstorePut cache₁.kv key value, key :: cache₁.order⟩ := by
  rw [cachePut] at h
  split at h
  · exact .inl (Option.some.inj h).symm
  · obtain ⟨cache₁, hcache₁, rfl⟩ := Option.map_eq_some_iff.mp h
    refine .inr ⟨cache₁, ?_, rfl⟩
    split_ifs at hcache₁
    · exact .inr hcache₁
    · exact .inl (Option.some.inj hcache₁).symm

theorem Cache.Valid.put (h : cache.Valid) (hput : cachePut cache key value = some cache') :
    cache'.Valid := by
  have hkv : ∀ cache₁ : Cache, cache₁.Valid →
      Cache.Valid ⟨kvstorePut cache₁.kv key value, key :: cache₁.order⟩ := fun cache₁ h₁ =>
    ⟨h₁.ops, keysDistinct_put h₁.exact h₁.distinct key value⟩
  obtain rfl | ⟨cache₁, rfl | hevict, rfl⟩ := cachePut_cases hput
  · exact ⟨h.ops, h.distinct⟩
  · exact hkv _ h
  · exact hkv _ (h.evict hevict)

/-- **A put keeps what is true of every value**, if it is true of the new one. -/
theorem Cache.Holds.put (h : cache.Holds R) (hvalid : cache.Valid)
    (hput : cachePut cache key value = some cache') (hvalue : R key value) : cache'.Holds R := by
  have hkv : ∀ cache₁ : Cache, cache₁.Holds R → cache₁.Valid →
      Cache.Holds ⟨kvstorePut cache₁.kv key value, key :: cache₁.order⟩ R := by
    intro cache₁ h₁ hvalid₁ key' value' hget
    rw [kvstoreGet_put hvalid₁.exact] at hget
    split_ifs at hget with hkey
    · obtain rfl := Option.some.inj hget
      rw [hkey]
      exact hvalue
    · exact h₁ key' value' hget
  obtain rfl | ⟨cache₁, rfl | hevict, rfl⟩ := cachePut_cases hput
  · exact h
  · exact hkv _ h hvalid
  · exact hkv _ (h.evict hvalid hevict) (hvalid.evict hevict)

theorem kvstoreDelete_capacity {κ ν : Type} (kv : KvStore κ ν) (key : κ) :
    (kvstoreDelete kv key).capacity = kv.capacity := rfl

theorem cachePut_capacity (hput : cachePut cache key value = some cache') :
    cache'.kv.capacity = cache.kv.capacity := by
  obtain rfl | ⟨cache₁, rfl | hevict, rfl⟩ := cachePut_cases hput
  · rfl
  · rfl
  · obtain ⟨tail, hkv⟩ := cacheEvict_kv hevict
    have hcapacity : cache₁.kv.capacity = cache.kv.capacity := by rw [hkv, kvstoreDelete_capacity]
    exact hcapacity

/-- **A cache for two or more nodes takes every value.** -/
theorem cachePut_isSome (h : 2 ≤ cache.kv.capacity) (key : CacheKey) (value : List UInt8) :
    ∃ cache', cachePut cache key value = some cache' := by
  unfold cachePut
  split
  · exact ⟨_, rfl⟩
  · split_ifs with hfull
    · have hlength : cache.order.length ≠ 1 := by omega
      obtain ⟨tail, htail⟩ : ∃ tail, cache.order.getLast? = some tail := by
        have hne : cache.order ≠ [] := List.length_pos_iff.mp (by omega)
        exact ⟨_, List.getLast?_eq_some_getLast hne⟩
      exact ⟨_, by rw [cacheEvict, htail]; exact congrArg _ (if_neg hlength)⟩
    · exact ⟨_, rfl⟩

/-- Evicting the only node is undefined. -/
theorem cachePut_eq_none (hget : kvstoreGet cache.kv key = none)
    (hfull : cache.kv.capacity ≤ cache.order.length) (hone : cache.order.length = 1)
    (value : List UInt8) : cachePut cache key value = none := by
  have hevict : cacheEvict cache = none := by
    rw [cacheEvict]
    split
    · rfl
    · exact if_pos hone
  rw [cachePut]
  simp only [hget]
  rw [if_pos hfull, hevict]
  rfl

/-- A cache for one node, with a value in it. -/
theorem exists_cache_one (key : CacheKey) (value : List UInt8) :
    ∃ cache : Cache, cache.Valid ∧ cache.kv.capacity = 1 ∧ cache.order.length = 1 ∧
      ∀ key', kvstoreGet cache.kv key' = if key' = key then some value else none := by
  refine ⟨⟨kvstorePut (kvstoreCreate 1 Nat.one_pos cacheOps) key value, [key]⟩, ?_, rfl, rfl, ?_⟩
  · have hdistinct : (kvstoreCreate 1 Nat.one_pos cacheOps :
        KvStore CacheKey (List UInt8)).KeysDistinct := keysDistinct_create 1 Nat.one_pos cacheOps
    exact ⟨rfl, keysDistinct_put cacheOps_exact hdistinct key value⟩
  · intro key'
    exact @kvstoreGet_put _ _ _ (kvstoreCreate 1 Nat.one_pos cacheOps) cacheOps_exact key key' value

end Racs
