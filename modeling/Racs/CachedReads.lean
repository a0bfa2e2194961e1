import Racs.CacheMemory
import Racs.RangeOrder

/-!
# Reading through the cache

The bytes of an SSTable are cached under a stream and the time in the name of the file. A flush
that renames a file into place leaves the cache as it is. What is cached under the time of the new
file is therefore still returned for it, and two files with the same time in their names share
their bytes as soon as one of them is cached.

Reading through the cache is compared with reading the files. Files are read for any streams, in any
order and as often as one likes, so that values are found, added and evicted in every way.

## Main definitions

* `Racs.rangeUncached` — a range with the cache empty at every file.
* `Racs.RangingStore.ReadsCurrent` — reading through the cache is reading the files.
* `Racs.Cache.Current`, `Racs.SstableDir.SameBytes` — what that comes down to for the cache and the
  files.
* `Racs.FlushAgrees` — a flush that keeps it.

## Main results

* `Racs.RangingStore.Kept.readsCurrent_iff`, `Racs.RangingStore.Kept.current_flush_iff`.
* `Racs.cachedReadsAgree_iff` — the runs in which reading through the cache is reading the files.
-/

namespace Racs

open PartialRun

/-- A file is read for a stream as in `racs_range_as_timestamp`, under the time in its name. -/
def readSstable (d : SstableDir) (cache : Cache) (file : UInt64 × List Char) :
    Option (Cache × Option (List UInt8)) :=
  (timeFromPath file.2).bind fun time =>
    (rangeFromCacheOrSstable d cache file.1 time file.2).map Prod.swap

/-- A cache of the same capacity, without values. -/
def Cache.emptied (cache : Cache) : Cache := scacheCreate cache.kv.capacity cache.kv.capacity_pos

/-- `racs_range_as_timestamp` with the cache empty at every file. -/
def rangeUncached (P : Platform) (d : SstableDir) (mmt : MultiMemtable) (cache : Cache) (pcm : Pcm)
    (streamId : UInt64) (w : Window) : Option Pcm :=
  ((getSortedFilelist (listFilesRecursive d (timeRangeToPath P.dataDir w))).mapM fun path =>
      (rangeFile d streamId w cache.emptied path).map Prod.snd).bind fun files =>
    ((files.flatten ++ rangeMemtables mmt streamId w).filterMap (entryBlock P)).foldlM
      pcmWriteBlock pcm

/-- **Reading through the cache is reading the files**: however files are read from here on, every
call returns the content of its file; and every range writes what it writes with the cache always
empty. -/
structure RangingStore.ReadsCurrent (P : Platform) (s : RangingStore) : Prop where
  files : ∀ files : List (UInt64 × List Char),
    (∀ file ∈ files, file.2 ∈ s.store.disk.sstables.keys) →
    ∃ cache, exec (readSstable s.store.disk.sstables) s.cache files =
      some (cache, files.map fun file => s.store.disk.sstables.lookup file.2)
  ranges : ∀ pcm streamId w,
    (rangeAsTimestamp P s.store.disk.sstables s.store.mmt s.cache pcm streamId w).map Prod.snd =
      rangeUncached P s.store.disk.sstables s.store.mmt s.cache pcm streamId w

/-- In every state of the run, reading through the cache is reading the files. -/
def CachedReadsAgree (P : Platform) (s : RangingStore) (evs : List RangingEvent) : Prop :=
  ∀ before after t os, evs = before ++ after → exec (rangingStep P) s before = some (t, os) →
    t.ReadsCurrent P

/-- The cache is for two or more values, and the cached values and the other files with the time of
the new file in their names have its bytes. -/
structure FlushAgrees (P : Platform) (s : RangingStore) (mt : Memtable) : Prop where
  capacity : 2 ≤ s.cache.kv.capacity
  cached : ∀ time, timeFromPath (mt.path P false) = some time → ∀ streamId data,
    kvstoreGet s.cache.kv (streamId, time.toUInt64) = some data → data = sstableImage mt.entries
  files : ∀ path data, path ≠ mt.path P false →
    s.store.disk.sstables.lookup path = some data →
    timeFromPath path = timeFromPath (mt.path P false) → data = sstableImage mt.entries

/-- The condition on a step: a flush of a memtable with entries agrees with the files and the
cache. -/
def StepAgrees (P : Platform) (s : RangingStore) (ev : RangingEvent) : Prop :=
  ∀ i mt, ev = .server (.flush i) → s.store.jobs[i]? = some mt → mt.entries ≠ [] →
    FlushAgrees P s mt

/-! ### One read -/

section Read

variable {d : SstableDir} {cache cache' : Cache} {streamId : UInt64} {time : Int64}
  {path : List Char} {data : List UInt8} {result : Option (List UInt8)}

theorem kvstoreGet_cachePut {key : CacheKey} {value : List UInt8} (hvalid : cache.Valid)
    (hget : kvstoreGet cache.kv key = none) (hput : cachePut cache key value = some cache') :
    kvstoreGet cache'.kv key = some value := by
  have hkv : ∀ cache₁ : Cache, cache₁.Valid →
      kvstoreGet (kvstorePut cache₁.kv key value) key = some value := by
    intro cache₁ h₁
    rw [kvstoreGet_put h₁.exact, if_pos rfl]
  rw [cachePut, hget] at hput
  obtain ⟨cache₁, hcache₁, rfl⟩ := Option.map_eq_some_iff.mp hput
  split_ifs at hcache₁
  · exact hkv _ (hvalid.evict hcache₁)
  · obtain rfl := Option.some.inj hcache₁
    exact hkv _ hvalid

/-- What was returned for a file is cached then. -/
theorem kvstoreGet_of_read (hvalid : cache.Valid)
    (hread : rangeFromCacheOrSstable d cache streamId time path = some (some data, cache')) :
    kvstoreGet cache'.kv (streamId, time.toUInt64) = some data := by
  rcases rangeFromCacheOrSstable_cases hread with ⟨_, heq, hget, rfl⟩ |
    ⟨_, heq, hget, -, hput⟩ | ⟨hnone, -⟩
  · rw [heq]
    exact hget
  · rw [heq]
    exact kvstoreGet_cachePut hvalid hget hput
  · cases hnone

/-- The list of the cache has its keys, and no more than there is room for. -/
def Cache.Bounded (cache : Cache) : Prop :=
  ∃ entries, cache.Lists entries ∧ entries.length ≤ cache.kv.capacity

theorem Cache.Bounded.valid (h : cache.Bounded) : cache.Valid := by
  obtain ⟨entries, hlists, -⟩ := h
  exact hlists.valid

theorem scacheCreate_bounded (capacity : ℕ) (h : 0 < capacity) :
    (scacheCreate capacity h).Bounded :=
  ⟨[], ⟨scacheCreate_valid capacity h, rfl, List.nodup_nil, fun _ => rfl⟩, Nat.zero_le _⟩

/-- A read keeps the list in order. -/
theorem Cache.Bounded.read (h : cache.Bounded)
    (hread : rangeFromCacheOrSstable d cache streamId time path = some (result, cache')) :
    cache'.Bounded := by
  obtain ⟨entries, hlists, hlength⟩ := h
  have hpos := cache.kv.capacity_pos
  rcases rangeFromCacheOrSstable_cases hread with ⟨data, -, hget, rfl⟩ |
    ⟨data, -, -, -, hput⟩ | ⟨-, rfl⟩
  · have hlists' := (hlists.get cache.kv.capacity (streamId, time.toUInt64)).2
    rw [cacheGet, hget] at hlists'
    exact ⟨_, hlists', RecentlyUsed.length_step_le hpos hlists.distinct hlength _⟩
  · refine ⟨_, hlists.put hput, ?_⟩
    rw [cachePut_capacity hput]
    exact RecentlyUsed.length_step_le hpos hlists.distinct hlength _
  · exact ⟨entries, hlists, hlength⟩

/-- In a full cache for one value, another value has no place. -/
theorem rangeFromCacheOrSstable_eq_none (h : cache.Bounded) (hcapacity : cache.kv.capacity = 1)
    {key : CacheKey} (hkey : (kvstoreGet cache.kv key).isSome)
    (hne : (streamId, time.toUInt64) ≠ key) (hfile : sstableRead d path = some data) :
    rangeFromCacheOrSstable d cache streamId time path = none := by
  obtain ⟨entries, hlists, hlength⟩ := h
  rw [hlists.get_eq, Option.isSome_map] at hkey
  obtain ⟨e, he⟩ := Option.isSome_iff_exists.mp hkey
  obtain ⟨hmem, rfl⟩ := (RecentlyUsed.entry_eq_some_iff hlists.distinct).mp he
  obtain ⟨e', rfl⟩ : ∃ e', entries = [e'] :=
    List.length_eq_one_iff.mp (le_antisymm (hcapacity ▸ hlength) (List.length_pos_of_mem hmem))
  obtain rfl := List.mem_singleton.mp hmem
  have hget : kvstoreGet cache.kv (streamId, time.toUInt64) = none := by
    have hentry : RecentlyUsed.entry [e] (streamId, time.toUInt64) = none :=
      RecentlyUsed.entry_eq_none_iff.mpr fun hmem => hne (List.mem_singleton.mp hmem)
    rw [hlists.get_eq, hentry]
    rfl
  have horder : cache.order.length = 1 := by rw [hlists.order_eq, List.length_map]; rfl
  rw [rangeFromCacheOrSstable_of_miss hget hfile,
    cachePut_eq_none hget (hcapacity.trans horder.symm).le horder]
  rfl

end Read

/-! ### Files and cached values -/

/-- Every file is the image of a memtable, at its path. -/
def SstableDir.Written (P : Platform) (d : SstableDir) : Prop :=
  ∀ path data, d.lookup path = some data →
    ∃ mt : Memtable, path = mt.path P false ∧ data = sstableImage mt.entries

/-- The bytes are those of every file with the time in its name. -/
def SstableDir.AllAt (d : SstableDir) (time : Int64) (data : List UInt8) : Prop :=
  ∀ path data', d.lookup path = some data' → timeFromPath path = some time → data = data'

/-- Files with the same time in their names have the same bytes. -/
def SstableDir.SameBytes (d : SstableDir) : Prop :=
  ∀ path data time, d.lookup path = some data → timeFromPath path = some time → d.AllAt time data

/-- There is room for two values if there is a file, and the cached values are the bytes of the
files. -/
structure Cache.Current (cache : Cache) (d : SstableDir) : Prop where
  valid : cache.Valid
  capacity : ∀ path data, d.lookup path = some data → 2 ≤ cache.kv.capacity
  cached : cache.Holds fun key data => d.AllAt key.2.toInt64 data

section Files

variable {P : Platform} {d : SstableDir} {cache cache' : Cache} {streamId : UInt64} {time : Int64}
  {path : List Char} {data : List UInt8} {w : Window} {result : Option (List UInt8)}

theorem readSstable_eq_some (htime : timeFromPath path = some time) :
    readSstable d cache (streamId, path) = some (cache', result) ↔
      rangeFromCacheOrSstable d cache streamId time path = some (result, cache') := by
  rw [readSstable, htime, Option.bind_some, Option.map_eq_some_iff]
  constructor
  · rintro ⟨r, hr, heq⟩
    rw [hr, ← Prod.swap_swap r, heq]
    rfl
  · exact fun h => ⟨_, h, rfl⟩

/-- A file of a flush can be read, and has a time in its name. -/
theorem SstableDir.Written.readable (h : d.Written P) (hdata : d.lookup path = some data) :
    sstableRead d path = some data ∧ ∃ time, timeFromPath path = some time := by
  obtain ⟨mt, rfl, rfl⟩ := h path data hdata
  exact ⟨sstableRead_image hdata, timeFromPath_isSome P.dataDir mt.timestamp⟩

theorem SstableDir.Written.flush {disk disk' : Disk} {mt : Memtable} (h : disk.sstables.Written P)
    (hne : mt.entries ≠ []) (hflush : memtableFlush P disk mt = some disk') :
    disk'.sstables.Written P := by
  intro path data hdata
  rcases lookup_of_memtableFlush hne hflush hdata with ⟨rfl, rfl⟩ | ⟨-, hdata⟩
  · exact ⟨mt, rfl, rfl⟩
  · exact h path data hdata

/-- Reading keeps the cache current, whatever is read. -/
theorem Cache.Current.keep (h : cache.Current d) (hsame : d.SameBytes)
    (htime : timeFromPath path = some time)
    (hread : rangeFromCacheOrSstable d cache streamId time path = some (result, cache')) :
    cache'.Current d ∧ ∀ data, result = some data → d.AllAt time data := by
  have hfile : ∀ data, sstableRead d path = some data → d.AllAt time data := fun data hdata =>
    hsame path data time (Option.eq_some_of_filter_eq_some hdata) htime
  obtain ⟨hcached, hvalid, heq, hresult⟩ := h.cached.fromCacheOrSstable h.valid hfile hread
  exact ⟨⟨hvalid, fun path data hdata => heq ▸ h.capacity path data hdata, hcached⟩, hresult⟩

/-- **A read through a current cache** returns the content of the file. -/
theorem Cache.Current.read (h : cache.Current d) (hd : d.Written P) (hsame : d.SameBytes)
    (hdata : d.lookup path = some data) (htime : timeFromPath path = some time) :
    ∃ cache', rangeFromCacheOrSstable d cache streamId time path = some (some data, cache') ∧
      cache'.Current d := by
  obtain ⟨hfile, -⟩ := hd.readable hdata
  obtain ⟨data', cache', hread⟩ := @rangeFromCacheOrSstable_isSome d cache streamId time path
    (h.capacity path data hdata) data hfile
  obtain ⟨hcurrent, hresult⟩ := h.keep hsame htime hread
  obtain rfl := hresult data' rfl path data hdata htime
  exact ⟨cache', hread, hcurrent⟩

theorem Cache.Current.readSstable (h : cache.Current d) (hd : d.Written P) (hsame : d.SameBytes)
    {file : UInt64 × List Char} (hfile : file.2 ∈ d.keys) :
    ∃ cache', Racs.readSstable d cache file = some (cache', d.lookup file.2) ∧
      cache'.Current d := by
  obtain ⟨data, hdata⟩ := Option.isSome_iff_exists.mp (AList.lookup_isSome.mpr hfile)
  obtain ⟨-, time, htime⟩ := hd.readable hdata
  obtain ⟨cache', hread, hcurrent⟩ := @Cache.Current.read _ _ _ file.1 _ _ _ h hd hsame hdata htime
  exact ⟨cache', (readSstable_eq_some htime).mpr (hdata ▸ hread), hcurrent⟩

/-- An empty cache has room for the value of a file. -/
theorem rangeFromCacheOrSstable_create (capacity : ℕ) (h : 0 < capacity)
    (hfile : sstableRead d path = some data) :
    ∃ cache', rangeFromCacheOrSstable d (scacheCreate capacity h) streamId time path =
      some (some data, cache') := by
  have hget : kvstoreGet (scacheCreate capacity h).kv (streamId, time.toUInt64) = none := rfl
  have hroom : ¬ (scacheCreate capacity h).kv.capacity ≤ (scacheCreate capacity h).order.length :=
    not_le.mpr h
  rw [rangeFromCacheOrSstable_of_miss hget hfile, cachePut, hget]
  dsimp only
  rw [if_neg hroom]
  exact ⟨_, rfl⟩

/-- A round of the loop over the files, with a current cache and with the empty one. -/
theorem Cache.Current.rangeFile (h : cache.Current d) (hd : d.Written P) (hsame : d.SameBytes)
    (hdata : d.lookup path = some data) :
    (∃ cache', rangeFile d streamId w cache path =
        some (cache', fileEntries d streamId w path) ∧ cache'.Current d) ∧
      ∀ c : Cache, (Racs.rangeFile d streamId w c.emptied path).map Prod.snd =
        some (fileEntries d streamId w path) := by
  obtain ⟨hfile, time, htime⟩ := hd.readable hdata
  obtain ⟨mt, rfl, rfl⟩ := hd path data hdata
  constructor
  · obtain ⟨cache', hread, hcurrent⟩ := @Cache.Current.read _ _ _ streamId _ _ _ h hd hsame hdata
      htime
    refine ⟨_, rangeFile_of_read hdata htime fun _ => hread, ?_⟩
    split_ifs
    · exact hcurrent
    · exact h
  · intro c
    obtain ⟨cache', hread⟩ := @rangeFromCacheOrSstable_create d streamId time _ _ _
      c.kv.capacity_pos hfile
    rw [Cache.emptied, rangeFile_of_read hdata htime fun _ => hread]
    rfl

end Files

/-! ### Reading in one state -/

/-- Reading through the cache is reading the files, in terms of the cache and the files. -/
structure RangingStore.Current (s : RangingStore) : Prop where
  cache : s.cache.Current s.store.disk.sstables
  files : s.store.disk.sstables.SameBytes

/-- The store has its memtable, files of memtables, and a cache in order. -/
structure RangingStore.Kept (P : Platform) (cfg : Config) (s : RangingStore) : Prop where
  hasMemtable : ∃ mt, s.store.HasMemtable cfg mt
  files : s.store.disk.sstables.Written P
  bounded : s.cache.Bounded

namespace RangingStore

variable {P : Platform} {cfg : Config} {s s' : RangingStore}

theorem Current.readsCurrent (h : s.Current) (hfiles : s.store.disk.sstables.Written P) :
    s.ReadsCurrent P where
  files files hmem := by
    obtain ⟨cache, hrun, -⟩ := exec_map (P := fun c : Cache => c.Current s.store.disk.sstables)
      (f := fun file => s.store.disk.sstables.lookup file.2)
      (fun c file hfile hc => hc.readSstable hfiles h.files (hmem file hfile)) h.cache
    exact ⟨cache, hrun⟩
  ranges pcm streamId w := by
    let list := getSortedFilelist
      (listFilesRecursive s.store.disk.sstables (timeRangeToPath P.dataDir w))
    have hlookup : ∀ path ∈ list, ∃ data, s.store.disk.sstables.lookup path = some data := by
      intro path hpath
      have hmem := (perm_getSortedFilelist _).mem_iff.mp hpath
      rw [← Option.isSome_iff_exists, AList.lookup_isSome, AList.mem_keys]
      exact List.mem_of_mem_filter hmem
    obtain ⟨cache, hrun, -⟩ : ∃ cache, exec (rangeFile s.store.disk.sstables streamId w) s.cache
        list = some (cache, list.map (fileEntries s.store.disk.sstables streamId w)) ∧
          cache.Current s.store.disk.sstables := exec_map (fun c path hpath hc =>
      have ⟨data, hdata⟩ := hlookup path hpath
      (hc.rangeFile hfiles h.files hdata).1) h.cache
    have huncached : list.mapM (fun path =>
        (rangeFile s.store.disk.sstables streamId w s.cache.emptied path).map Prod.snd) =
          some (list.map (fileEntries s.store.disk.sstables streamId w)) := by
      rw [mapM_eq_some_iff, List.forall₂_map_right_iff, List.forall₂_same]
      intro path hpath
      obtain ⟨data, hdata⟩ := hlookup path hpath
      exact (h.cache.rangeFile hfiles h.files hdata).2 s.cache
    rw [rangeUncached, huncached, rangeAsTimestamp, rangeBlocks, rangeEntries, rangeFiles, hrun]
    simp only [Option.map_some, Option.bind_some, Option.map_map]
    exact Option.map_id'

/-- Two reads, one after the other. -/
theorem ReadsCurrent.read_twice (h : s.ReadsCurrent P) {path path' : List Char}
    {data data' : List UInt8} {time time' : Int64}
    (hdata : s.store.disk.sstables.lookup path = some data) (htime : timeFromPath path = some time)
    (hdata' : s.store.disk.sstables.lookup path' = some data')
    (htime' : timeFromPath path' = some time') (streamId streamId' : UInt64) :
    ∃ cache cache',
      rangeFromCacheOrSstable s.store.disk.sstables s.cache streamId time path =
        some (some data, cache) ∧
      rangeFromCacheOrSstable s.store.disk.sstables cache streamId' time' path' =
        some (some data', cache') := by
  have hmem : ∀ {path data}, s.store.disk.sstables.lookup path = some data →
      path ∈ s.store.disk.sstables.keys := fun hdata =>
    AList.mem_keys.mp (AList.lookup_isSome.mp (Option.isSome_iff_exists.mpr ⟨_, hdata⟩))
  obtain ⟨cache', hrun⟩ := h.files [(streamId, path), (streamId', path')] fun file hfile => by
    rcases List.mem_pair.mp hfile with rfl | rfl
    · exact hmem hdata
    · exact hmem hdata'
  simp only [List.map_cons, List.map_nil, hdata, hdata'] at hrun
  obtain ⟨cache, _, _, hfirst, hrest, heq⟩ := exec_cons_eq_some.mp hrun
  obtain ⟨rfl, rfl⟩ := List.cons.inj heq
  obtain ⟨c, _, _, hsecond, -, heq⟩ := exec_cons_eq_some.mp hrest
  obtain ⟨rfl, rfl⟩ := List.cons.inj heq
  exact ⟨cache, c, (readSstable_eq_some htime).mp hfirst, (readSstable_eq_some htime').mp hsecond⟩

/-- Files with the same time in their names share what is cached for one stream. -/
theorem ReadsCurrent.sameBytes (h : s.ReadsCurrent P) (hvalid : s.cache.Valid) :
    s.store.disk.sstables.SameBytes := by
  intro path data time hdata htime path' data' hdata' htime'
  obtain ⟨cache, cache', hfirst, hsecond⟩ := h.read_twice hdata htime hdata' htime' 0 0
  rw [rangeFromCacheOrSstable_of_hit (kvstoreGet_of_read hvalid hfirst)] at hsecond
  exact Option.some.inj (Prod.mk.inj (Option.some.inj hsecond)).1

/-- A file is read for two streams: the second value needs a place of its own. -/
theorem ReadsCurrent.two_le_capacity (h : s.ReadsCurrent P) (hkept : s.Kept P cfg)
    {path : List Char} {data : List UInt8}
    (hdata : s.store.disk.sstables.lookup path = some data) : 2 ≤ s.cache.kv.capacity := by
  by_contra hlt
  obtain ⟨hfile, time, htime⟩ := hkept.files.readable hdata
  have hpos := s.cache.kv.capacity_pos
  obtain ⟨cache, cache', hfirst, hsecond⟩ := h.read_twice hdata htime hdata htime 0 1
  have hcapacity : cache.kv.capacity = 1 := by
    have heq := ((show s.cache.Holds fun _ _ => True from fun _ _ _ => trivial).fromCacheOrSstable
      hkept.bounded.valid (fun _ _ => trivial) hfirst).2.2.1
    omega
  have hne : ((1 : UInt64), time.toUInt64) ≠ (0, time.toUInt64) := by
    rw [Ne, Prod.mk.injEq, not_and]
    exact fun heq => absurd heq (by decide)
  have hnone := @rangeFromCacheOrSstable_eq_none s.store.disk.sstables cache 1 time path data
    (hkept.bounded.read hfirst) hcapacity (0, time.toUInt64)
    (Option.isSome_iff_exists.mpr ⟨_, kvstoreGet_of_read hkept.bounded.valid hfirst⟩)
    hne hfile
  rw [hsecond] at hnone
  cases hnone

/-- **When reading through the cache is reading the files.** -/
theorem Kept.readsCurrent_iff (hkept : s.Kept P cfg) : s.ReadsCurrent P ↔ s.Current := by
  refine ⟨fun h => ⟨⟨hkept.bounded.valid, fun _ _ => h.two_le_capacity hkept, ?_⟩,
    h.sameBytes hkept.bounded.valid⟩, fun h => h.readsCurrent hkept.files⟩
  intro key data hget path data' hdata' htime
  obtain ⟨cache, -, hread, -⟩ := h.read_twice hdata' htime hdata' htime key.1 key.1
  rw [rangeFromCacheOrSstable_of_hit hget] at hread
  exact Option.some.inj (Prod.mk.inj (Option.some.inj hread)).1

/-! ### The steps -/

/-- What every read keeps of the cache, a range keeps. -/
theorem cache_of_rangeEntries {Q : Cache → Prop} {d : SstableDir} {mmt : MultiMemtable}
    {cache cache' : Cache} {streamId : UInt64} {w : Window} {es : List MemtableEntry}
    (hread : ∀ c time path result c', Q c → timeFromPath path = some time →
      rangeFromCacheOrSstable d c streamId time path = some (result, c') → Q c')
    (h : Q cache) (hrange : rangeEntries P d mmt cache streamId w = some (cache', es)) :
    Q cache' := by
  obtain ⟨⟨c, files⟩, hfiles, heq⟩ := Option.map_eq_some_iff.mp hrange
  obtain ⟨rfl, -⟩ := Prod.mk.inj heq
  obtain ⟨⟨c, outs⟩, hrun, heq⟩ := Option.map_eq_some_iff.mp hfiles
  obtain ⟨rfl, -⟩ := Prod.mk.inj heq
  refine exec_induction (P := fun _ c => Q c) ?_ h hrun
  intro _ c path c' out hc hstep
  rcases rangeFile_cases hstep with ⟨rfl, -⟩ | ⟨time, result, htime, hresult, -⟩
  · exact hc
  · exact hread c time path result c' hc htime hresult

/-- What a step does to the files and the cache: nothing; a range reads; or a memtable with entries
is flushed. -/
theorem rangingStep_cases {ev : RangingEvent} {o : Output} {mt : Memtable}
    (hmt : s.store.HasMemtable cfg mt) (h : rangingStep P s ev = some (s', o)) :
    (s'.store.disk.sstables = s.store.disk.sstables ∧ s'.cache = s.cache ∧
      ∀ i full, ev = .server (.flush i) → s.store.jobs[i]? = some full → full.entries = []) ∨
    (∃ streamId w es, ev = .range streamId w ∧ s'.store = s.store ∧
      rangeEntries P s.store.disk.sstables s.store.mmt s.cache streamId w =
        some (s'.cache, es)) ∨
    (∃ i full, ev = .server (.flush i) ∧ s.store.jobs[i]? = some full ∧ full.entries ≠ [] ∧
      memtableFlush P s.store.disk full = some s'.store.disk ∧ s'.cache = s.cache) := by
  cases ev with
  | range streamId w =>
    obtain ⟨⟨cache, es⟩, hrange, heq⟩ := Option.map_eq_some_iff.mp h
    obtain ⟨rfl, rfl⟩ := Prod.mk.inj heq
    exact .inr (.inl ⟨streamId, w, es, rfl, rfl, hrange⟩)
  | server ev =>
    obtain ⟨⟨t, o'⟩, hserver, heq⟩ := Option.map_eq_some_iff.mp h
    obtain ⟨rfl, rfl⟩ := Prod.mk.inj heq
    rcases step_cases hmt hserver with ⟨rfl, md, kv, -, rfl⟩ |
      ⟨data, frame, md, timestamp, mt', rfl, -, hstored⟩ |
      ⟨i, full, disk, rfl, -, hfull, hflush, rfl⟩
    · refine .inl ⟨rfl, rfl, fun i full hev hfull => ?_⟩
      -- a flush of a memtable has another output
      obtain rfl := RangingEvent.server.inj hev
      rw [step, hfull] at hserver
      obtain ⟨disk, -, heq⟩ := Option.map_eq_some_iff.mp hserver
      cases (Prod.mk.inj heq).2
    · refine .inl ⟨by rw [hstored.disk], rfl, fun i full hev => ?_⟩
      cases RangingEvent.server.inj hev
    · by_cases hne : full.entries = []
      · refine .inl ⟨?_, rfl, fun j full' hev hfull' => ?_⟩
        · rw [memtableFlush, if_pos (.inl hne), memtableFlushSteps, if_pos hne] at hflush
          obtain rfl := Option.some.inj hflush
          rfl
        · obtain rfl := Event.flush.inj (RangingEvent.server.inj hev)
          obtain rfl := Option.some.inj (hfull.symm.trans hfull')
          exact hne
      · exact .inr (.inr ⟨i, full, rfl, hfull, hne, hflush, rfl⟩)

theorem init_kept (P : Platform) (cfg : Config) (capacity : ℕ) (h : 0 < capacity) :
    (RangingStore.init cfg capacity h).Kept P cfg where
  hasMemtable := ⟨_, Store.init_hasMemtable cfg⟩
  files := fun path data hlookup => by
    rw [RangingStore.init, Store.init, Store.start, AList.lookup_empty] at hlookup
    cases hlookup
  bounded := scacheCreate_bounded capacity h

theorem init_current (cfg : Config) (capacity : ℕ) (h : 0 < capacity) :
    (RangingStore.init cfg capacity h).Current := by
  have hnone : ∀ path, (RangingStore.init cfg capacity h).store.disk.sstables.lookup path = none :=
    fun path => AList.lookup_empty path
  refine ⟨⟨scacheCreate_valid capacity h, ?_, scacheCreate_holds capacity h _⟩, ?_⟩
  · intro path data hdata
    rw [hnone] at hdata
    cases hdata
  · intro path data time hdata
    rw [hnone] at hdata
    cases hdata

/-- **Every step** keeps the store in order. -/
theorem Kept.step {ev : RangingEvent} {o : Output} (h : s.Kept P cfg)
    (hstep : rangingStep P s ev = some (s', o)) : s'.Kept P cfg := by
  obtain ⟨mt, hmt⟩ := h.hasMemtable
  have hmemtable : ∃ mt', s'.store.HasMemtable cfg mt' := by
    cases ev with
    | range streamId w =>
      obtain ⟨⟨cache, es⟩, -, heq⟩ := Option.map_eq_some_iff.mp hstep
      obtain ⟨rfl, -⟩ := Prod.mk.inj heq
      exact ⟨mt, hmt⟩
    | server ev =>
      obtain ⟨⟨t, o'⟩, hserver, heq⟩ := Option.map_eq_some_iff.mp hstep
      obtain ⟨rfl, -⟩ := Prod.mk.inj heq
      exact step_hasMemtable hmt hserver
  rcases rangingStep_cases hmt hstep with ⟨hdisk, hcache, -⟩ |
    ⟨streamId, w, es, -, hstore, hrange⟩ | ⟨i, full, -, -, hne, hflush, hcache⟩
  · exact ⟨hmemtable, hdisk ▸ h.files, hcache ▸ h.bounded⟩
  · exact ⟨hmemtable, hstore ▸ h.files,
      cache_of_rangeEntries (fun _ _ _ _ _ hc _ hread => hc.read hread) h.bounded hrange⟩
  · exact ⟨hmemtable, h.files.flush hne hflush, hcache ▸ h.bounded⟩

/-- Bytes that all files at a time had are those of all after a flush exactly if the new file has
another time, or these bytes. -/
theorem allAt_flush_iff {disk disk' : Disk} {mt : Memtable} (hne : mt.entries ≠ [])
    (hflush : memtableFlush P disk mt = some disk') {time : Int64} {data : List UInt8}
    (h : disk.sstables.AllAt time data) : disk'.sstables.AllAt time data ↔
      (timeFromPath (mt.path P false) = some time → data = sstableImage mt.entries) := by
  constructor
  · intro h' htime
    refine h' _ _ ?_ htime
    rw [Memtable.path, lookup_memtableFlush hne hflush, if_pos rfl]
  · intro htime path data' hdata' hpath
    rcases lookup_of_memtableFlush hne hflush hdata' with ⟨rfl, rfl⟩ | ⟨-, hdata'⟩
    · exact htime hpath
    · exact h path data' hdata' hpath

/-- **What a flush does**: reading through the cache stays reading the files exactly if the flush
agrees with the files and the cache. -/
theorem Kept.current_flush_iff {mt : Memtable} (hkept : s.Kept P cfg) (h : s.Current)
    (hne : mt.entries ≠ []) (hflush : memtableFlush P s.store.disk mt = some s'.store.disk)
    (hcache : s'.cache = s.cache) : s'.Current ↔ FlushAgrees P s mt := by
  have hnew : s'.store.disk.sstables.lookup (mt.path P false) = some (sstableImage mt.entries) := by
    rw [Memtable.path, lookup_memtableFlush hne hflush, if_pos rfl]
  constructor
  · intro h'
    refine ⟨hcache ▸ h'.cache.capacity _ _ hnew, fun time htime streamId data hget => ?_,
      fun path data hpath hdata htime => ?_⟩
    · exact (allAt_flush_iff hne hflush (h.cache.cached _ _ hget)).mp
        (h'.cache.cached _ _ (hcache ▸ hget)) htime
    · obtain ⟨-, time, htime'⟩ := hkept.files.readable hdata
      have hdata' : s'.store.disk.sstables.lookup path = some data := by
        obtain ⟨mt', rfl, rfl⟩ := hkept.files path data hdata
        rw [Memtable.path, lookup_memtableFlush hne hflush, if_neg fun heq => hpath ?_]
        · exact hdata
        · rw [Memtable.path, heq, Memtable.path]
      exact h'.files path data time hdata' htime' _ _ hnew (htime.symm.trans htime')
  · intro hagrees
    refine ⟨⟨hcache ▸ h.cache.valid, fun _ _ _ => hcache ▸ hagrees.capacity, ?_⟩, ?_⟩
    · intro key data hget
      rw [hcache] at hget
      exact (allAt_flush_iff hne hflush (h.cache.cached key data hget)).mpr fun htime =>
        hagrees.cached key.2.toInt64 htime key.1 data hget
    · intro path data time hdata htime
      rcases lookup_of_memtableFlush hne hflush hdata with ⟨rfl, rfl⟩ | ⟨hpath, hdata⟩
      · intro path' data' hdata' htime'
        rcases lookup_of_memtableFlush hne hflush hdata' with ⟨-, rfl⟩ | ⟨hpath', hdata'⟩
        · rfl
        · exact (hagrees.files path' data' hpath' hdata' (htime'.trans htime.symm)).symm
      · exact (allAt_flush_iff hne hflush (h.files path data time hdata htime)).mpr fun hmt =>
          hagrees.files path data hpath hdata (htime.trans hmt.symm)

/-- **What a step does**: reading through the cache stays reading the files exactly if the step
agrees. -/
theorem Kept.current_step_iff {ev : RangingEvent} {o : Output} (hkept : s.Kept P cfg)
    (h : s.Current) (hstep : rangingStep P s ev = some (s', o)) :
    s'.Current ↔ StepAgrees P s ev := by
  obtain ⟨mt, hmt⟩ := hkept.hasMemtable
  rcases rangingStep_cases hmt hstep with ⟨hdisk, hcache, hnone⟩ |
    ⟨streamId, w, es, rfl, hstore, hrange⟩ | ⟨i, full, rfl, hfull, hne, hflush, hcache⟩
  · have hagrees : StepAgrees P s ev := fun i full hev hfull hne =>
      absurd (hnone i full hev hfull) hne
    refine iff_of_true ⟨?_, hdisk ▸ h.files⟩ hagrees
    rw [hdisk, hcache]
    exact h.cache
  · have hagrees : StepAgrees P s (.range streamId w) := fun i full hev => by cases hev
    refine iff_of_true ⟨?_, hstore ▸ h.files⟩ hagrees
    rw [hstore]
    exact cache_of_rangeEntries (Q := fun c => c.Current s.store.disk.sstables)
      (fun _ _ _ _ _ hc htime hread => (hc.keep h.files htime hread).1) h.cache hrange
  · rw [hkept.current_flush_iff h hne hflush hcache]
    constructor
    · rintro hagrees j full' hev hfull' -
      obtain rfl := Event.flush.inj (RangingEvent.server.inj hev)
      obtain rfl := Option.some.inj (hfull.symm.trans hfull')
      exact hagrees
    · exact fun hagrees => hagrees i full rfl hfull hne

end RangingStore

/-! ### Runs -/

/-- **When the cached read path is the direct one.** In every state of a run of requests, flushes
and ranges, with a cache of any capacity, reading through the cache is reading the files, exactly if
every flush agrees with the files and the cache that it finds. -/
theorem cachedReadsAgree_iff (P : Platform) (cfg : Config) (capacity : ℕ) (h : 0 < capacity)
    (evs : List RangingEvent) :
    CachedReadsAgree P (.init cfg capacity h) evs ↔
      EveryStep (rangingStep P) (fun s ev => (rangingStep P s ev).isSome → StepAgrees P s ev)
        (.init cfg capacity h) evs := by
  have hkept := RangingStore.init_kept P cfg capacity h
  rw [← reached_iff_everyStep (P := fun s => s.Kept P cfg ∧ s.Current)
    (fun s ev s' o hs hagrees hstep =>
      ⟨hs.1.step hstep, (hs.1.current_step_iff hs.2 hstep).mpr hagrees⟩)
    (fun s ev s' o hs hagrees hstep hs' =>
      hagrees ((hs.1.current_step_iff hs.2 hstep).mp hs'.2))
    ⟨hkept, RangingStore.init_current cfg capacity h⟩]
  constructor
  · intro hreads before after t os hevs hrun
    have hkept' : t.Kept P cfg := exec_induction (P := fun _ s => s.Kept P cfg)
      (fun _ _ _ _ _ hs hstep => hs.step hstep) hkept hrun
    exact ⟨hkept', hkept'.readsCurrent_iff.mp (hreads before after t os hevs hrun)⟩
  · intro hcurrent before after t os hevs hrun
    obtain ⟨hkept', hcurrent'⟩ := hcurrent before after t os hevs hrun
    exact hkept'.readsCurrent_iff.mpr hcurrent'

/-- Three blocks, before the first memtable is flushed. -/
theorem threeBlocks_run :
    ((exec (step .rational) (Store.init (.small 1 (by decide))) (opened streamA ++ opened streamB ++
      [sent streamA 1 4, sent streamA 2 4, sent streamB 3 4])).map fun r =>
        decide (r.1.disk.sstables.entries = [])) = some true := by
  decide +kernel

/-- The first flush finds no files and an empty cache. -/
theorem cachedReadsAgree_threeBlocks :
    CachedReadsAgree .rational (.init (.small 1 (by decide)) 2 (by decide)) threeBlocks := by
  refine (cachedReadsAgree_iff .rational (.small 1 (by decide)) 2 (by decide) threeBlocks).mpr ?_
  rintro before ev after t os hevs hrun - i mt rfl - -
  have hlast : threeBlocks = (opened streamA ++ opened streamB ++
      [sent streamA 1 4, sent streamA 2 4, sent streamB 3 4]).map .server ++
        [.server (.flush 0)] := rfl
  rcases List.eq_nil_or_concat' after with rfl | ⟨after, x, rfl⟩
  · obtain ⟨rfl, -⟩ := List.append_inj' (hlast.symm.trans hevs) rfl
    obtain ⟨⟨store, os'⟩, hstore, hempty⟩ := Option.map_eq_some_iff.mp threeBlocks_run
    rw [exec_map_server, RangingStore.init, hstore] at hrun
    obtain ⟨rfl, -⟩ := Prod.mk.inj (Option.some.inj hrun)
    refine ⟨le_rfl, fun time _ streamId data hget => ?_, fun path data _ hdata => ?_⟩
    · cases hget
    · rw [AList.lookup, of_decide_eq_true hempty] at hdata
      cases hdata
  · -- no other step is a flush
    rw [hlast, ← List.cons_append, ← List.append_assoc] at hevs
    obtain ⟨hevs, -⟩ := List.append_inj' hevs rfl
    have hmem : RangingEvent.server (.flush i) ∈ before ++ .server (.flush i) :: after := by simp
    rw [← hevs] at hmem
    simp [opened, sent] at hmem

/-! ### Two memtables of one millisecond -/

/-- Two streams that begin at the same time each have the first block of a memtable. The first
memtable is flushed. -/
def sameMillisecond : List Event :=
  openedAt streamA 1000 ++ openedAt streamB 1000 ++
    [sent streamA 1 2, sent streamB 2 2, sent streamA 3 2, .flush 0]

/-- The memtable that is flushed. -/
def firstBlock : Memtable where
  capacity := 1
  entries := [(Frame.constant (racsHash streamA) 1 2).entry 1000 1]
  length_le := by decide

/-- The memtable that waits. -/
def secondBlock : Memtable where
  capacity := 1
  entries := [(Frame.constant (racsHash streamB) 2 2).entry 1000 2]
  length_le := by decide

theorem sameMillisecond_run :
    ((exec (step .rational) (Store.init (.small 1 (by decide))) sameMillisecond).map fun r =>
      decide (r.1.disk.sstables.entries =
          [⟨firstBlock.path .rational false, sstableImage firstBlock.entries⟩] ∧
        r.1.jobs.map Memtable.entries = [secondBlock.entries])) = some true := by
  decide +kernel

/-- One memtable waits behind the first flush, and can be flushed. -/
theorem sameMillisecond_flush : ∃ t os mt disk,
    exec (step .rational) (Store.init (.small 1 (by decide))) sameMillisecond = some (t, os) ∧
      t.disk.sstables.entries =
        [⟨firstBlock.path .rational false, sstableImage firstBlock.entries⟩] ∧
      t.jobs = [mt] ∧ mt.entries = secondBlock.entries ∧
      memtableFlush .rational t.disk mt = some disk := by
  obtain ⟨⟨t, os⟩, hrun, ht⟩ := Option.map_eq_some_iff.mp sameMillisecond_run
  obtain ⟨hentries, hjobs⟩ := of_decide_eq_true ht
  obtain ⟨mt, rest, hcons, hmt, hrest⟩ := List.map_eq_cons_iff.mp hjobs
  rw [List.map_eq_nil_iff] at hrest
  have hne : mt.entries ≠ [] := hmt ▸ List.cons_ne_nil _ _
  have hfits : mt.Fits := by
    rw [Memtable.Fits, hmt]
    decide
  exact ⟨t, os, mt, _, hrun, hentries, hrest ▸ hcons, hmt, memtableFlush_eq hne hfits⟩

theorem firstBlock_time : timeFromPath (firstBlock.path .rational false) = some 1000 :=
  timeFromPath_timeToPath not_infix_dataDir ⟨by decide, by decide⟩

/-- A range over the first memtable leaves its bytes in the cache. -/
theorem firstBlock_cached {d : SstableDir} (mmt : MultiMemtable)
    (h : d.entries = [⟨firstBlock.path .rational false, sstableImage firstBlock.entries⟩]) :
    ∃ cache es, rangeEntries .rational d mmt (scacheCreate 2 (by decide)) (racsHash streamA)
        ⟨0, 5000⟩ = some (cache, es) ∧
      kvstoreGet cache.kv (racsHash streamA, Int64.toUInt64 1000) =
        some (sstableImage firstBlock.entries) := by
  have hfile : d.lookup (firstBlock.path .rational false) =
      some (sstableImage firstBlock.entries) := by
    rw [AList.lookup, h]
    exact List.dlookup_cons_eq _ _ _
  have hlist : getSortedFilelist (listFilesRecursive d
      (timeRangeToPath Platform.rational.dataDir ⟨0, 5000⟩)) =
        [firstBlock.path .rational false] := by
    have hfilter : [firstBlock.path .rational false].filter
        ((timeRangeToPath Platform.rational.dataDir ⟨0, 5000⟩ ++ ['/']).isPrefixOf ·) =
          [firstBlock.path .rational false] := by
      decide +kernel
    refine getSortedFilelist_eq (List.Perm.of_eq ?_) (List.pairwise_singleton _ _)
    rw [listFilesRecursive, AList.keys, h]
    exact hfilter
  obtain ⟨cache, hread⟩ := @rangeFromCacheOrSstable_create d (racsHash streamA) 1000 _ _ 2
    (by decide) (sstableRead_image hfile)
  have hround := @rangeFile_of_read .rational d (racsHash streamA) ⟨0, 5000⟩ firstBlock
    _ cache 1000 hfile firstBlock_time fun _ => hread
  rw [if_pos (by decide)] at hround
  rw [rangeEntries, hlist, rangeFiles, exec_cons, hround]
  exact ⟨cache, _, rfl, kvstoreGet_of_read (scacheCreate_valid 2 _) hread⟩

/-- The second memtable is flushed over the file of the first, whose bytes were read for the first
stream before and are still returned for it. -/
theorem not_cachedReadsAgree : ¬ CachedReadsAgree .rational
    (.init (.small 1 (by decide)) 2 (by decide))
    (sameMillisecond.map .server ++
      [.range (racsHash streamA) ⟨0, 5000⟩, .server (.flush 0)]) := by
  obtain ⟨t, os, mt, disk, hrun, hentries, hmt, hwaits, hflush⟩ := sameMillisecond_flush
  have hpath : mt.path .rational false = firstBlock.path .rational false := by
    rw [← groupPath_entries, hwaits]
    rfl
  have hne : mt.entries ≠ [] := hwaits ▸ List.cons_ne_nil _ _
  obtain ⟨cache, es, hrange, hget⟩ := firstBlock_cached t.mmt hentries
  have hexec : exec (rangingStep .rational) (.init (.small 1 (by decide)) 2 (by decide))
      (sameMillisecond.map .server ++
        [.range (racsHash streamA) ⟨0, 5000⟩, .server (.flush 0)]) =
      some (⟨{ t with disk := disk, jobs := t.jobs.eraseIdx 0 }, cache⟩,
        os ++ [.other, .flushed mt]) := by
    refine exec_append_eq_some.mpr
      ⟨⟨t, scacheCreate 2 (by decide)⟩, os, [.other, .flushed mt], ?_, ?_, rfl⟩
    · rw [exec_map_server, RangingStore.init, hrun]
      rfl
    · rw [exec_cons, rangingStep, hrange, Option.map_some, Option.bind_some, exec_cons, rangingStep,
        step, hmt]
      dsimp only [List.getElem?_cons_zero]
      rw [hflush]
      rfl
  intro hagree
  have hreads := hagree _ [] _ _ (List.append_nil _).symm hexec
  have hdata : disk.sstables.lookup (mt.path .rational false) = some (sstableImage mt.entries) := by
    rw [Memtable.path, lookup_memtableFlush hne hflush, if_pos rfl]
  have htime : timeFromPath (mt.path .rational false) = some 1000 := by
    rw [hpath]
    exact firstBlock_time
  obtain ⟨_, _, hread, -⟩ := hreads.read_twice hdata htime hdata htime (racsHash streamA) 0
  rw [rangeFromCacheOrSstable_of_hit hget] at hread
  have hsame := Option.some.inj (Prod.mk.inj (Option.some.inj hread)).1
  rw [hwaits] at hsame
  revert hsame
  decide +kernel

end Racs
