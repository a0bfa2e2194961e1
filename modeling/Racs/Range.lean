import Racs.Cache
import Racs.FileList
import Racs.Flush
import Racs.Foundation.PartialRun
import Racs.Pcm

/-!
# Ranges

`racs_range_as_timestamp` (`range.c`) writes the blocks of a stream whose time is in a window: first
those in SSTables, which it takes from the cache or reads from the files below the directory that
the paths of the two times share, in the order of their paths, and then those in memtables. A file
is read if the time in its name is in the window.

What is selected is described by memtable entries. `rangeBlocks` is what is passed to
`racs_pcm_write`.

## Main definitions

* `Racs.rangeFile`, `Racs.rangeFiles`, `Racs.rangeMemtables`, `Racs.rangeEntries`.
* `Racs.rangeBlocks`, `Racs.rangeAsTimestamp`, `Racs.range`.
* `Racs.Cache.Agrees` — what the cache may hold of a directory.

## Main results

* `Racs.Cache.Holds.fromCacheOrSstable` — what is found for a file.
-/

namespace Racs

open PartialRun

/-- The window of a range, from the time `from` up to and including the time `to`. -/
structure Window where
  first : Int64
  last : Int64

instance : Membership Int64 Window := ⟨fun w time => w.first ≤ time ∧ time ≤ w.last⟩

instance (w : Window) (time : Int64) : Decidable (time ∈ w) :=
  inferInstanceAs (Decidable (w.first ≤ time ∧ time ≤ w.last))

/-- `racs_time_range_to_path`. -/
def timeRangeToPath (dir : List Char) (w : Window) : List Char :=
  resolveSharedPath (timeToPath dir w.first false) (timeToPath dir w.last false)

/-- `racs_list_files_recursive`. -/
def listFilesRecursive (d : SstableDir) (path : List Char) : List (List Char) :=
  d.keys.filter ((path ++ ['/']).isPrefixOf ·)

/-- The condition on an entry in the loops over entries. -/
def inRange (streamId : UInt64) (w : Window) (e : MemtableEntry) : Bool :=
  e.key.1 = streamId ∧ e.key.2.toInt64 ∈ w

/-- The time in the name of a file is in the window. -/
def nameInWindow (w : Window) (path : List Char) : Bool := (timeFromPath path).any (· ∈ w)

/-! ### SSTables -/

/-- `racs_sstable_read`, the null pointer for a file without a trailer. -/
def sstableRead (d : SstableDir) (path : List Char) : Option (List UInt8) :=
  (d.lookup path).filter fun data => trailerSize ≤ data.length

/-- A file that a flush wrote has a trailer. -/
theorem sstableRead_image {d : SstableDir} {path : List Char} {es : List MemtableEntry}
    (h : d.lookup path = some (sstableImage es)) :
    sstableRead d path = some (sstableImage es) := by
  rw [sstableRead, h]
  refine Option.filter_some_pos ?_
  rw [decide_eq_true_eq, length_sstableImage, sstableImageSize_eq]
  omega

/-- `racs_range_from_cache_or_sstable`. -/
def rangeFromCacheOrSstable (d : SstableDir) (cache : Cache) (streamId : UInt64) (time : Int64)
    (path : List Char) : Option (Option (List UInt8) × Cache) :=
  match cacheGet cache (streamId, time.toUInt64) with
  | (some data, cache) => some (some data, cache)
  | (none, cache) =>
    match sstableRead d path with
    | none => some (none, cache)
    | some data => (cachePut cache (streamId, time.toUInt64) data).map (some data, ·)

/-- The entries that `racs_range_process_sstable` selects. -/
def rangeProcessSstable (data : List UInt8) (streamId : UInt64) (w : Window) :
    Option (List MemtableEntry) :=
  (sstableEntries data).map fun es => es.reduceOption.filter (inRange streamId w)

/-- One round of the loop over the files, with what it selects. -/
def rangeFile (d : SstableDir) (streamId : UInt64) (w : Window) (cache : Cache)
    (path : List Char) : Option (Cache × List MemtableEntry) :=
  if isTmpfile path then some (cache, [])
  else (timeFromPath path).bind fun time =>
    if time ∈ w then
      (rangeFromCacheOrSstable d cache streamId time path).bind fun
        | (none, cache) => some (cache, [])
        | (some data, cache) => (rangeProcessSstable data streamId w).map (cache, ·)
    else some (cache, [])

/-- The loop over the files. -/
def rangeFiles (d : SstableDir) (cache : Cache) (streamId : UInt64) (w : Window)
    (paths : List (List Char)) : Option (Cache × List MemtableEntry) :=
  (exec (rangeFile d streamId w) cache paths).map fun r => (r.1, r.2.flatten)

/-! ### The range -/

/-- The entries that the loop over the memtables selects. -/
def rangeMemtables (mmt : MultiMemtable) (streamId : UInt64) (w : Window) :
    List MemtableEntry :=
  mmt.flatMap fun mt => mt.entries.filter (inRange streamId w)

/-- The entries that `racs_range_as_timestamp` selects, in order. -/
def rangeEntries (P : Platform) (d : SstableDir) (mmt : MultiMemtable) (cache : Cache)
    (streamId : UInt64) (w : Window) : Option (Cache × List MemtableEntry) :=
  let list := getSortedFilelist (listFilesRecursive d (timeRangeToPath P.dataDir w))
  (rangeFiles d cache streamId w list).map fun r =>
    (r.1, r.2 ++ rangeMemtables mmt streamId w)

/-- The block of an entry as it is passed to `racs_pcm_write`, none when it cannot be
decompressed. -/
def entryBlock (P : Platform) (e : MemtableEntry) : Option (List UInt8) :=
  if e.flags = 1 then P.zstdDecompress e.block else some e.block

/-- The blocks that `racs_range_as_timestamp` passes to `racs_pcm_write`. -/
def rangeBlocks (P : Platform) (d : SstableDir) (mmt : MultiMemtable) (cache : Cache)
    (streamId : UInt64) (w : Window) : Option (Cache × List (List UInt8)) :=
  (rangeEntries P d mmt cache streamId w).map fun r =>
    (r.1, r.2.filterMap (entryBlock P))

/-- `racs_range_as_timestamp`. -/
def rangeAsTimestamp (P : Platform) (d : SstableDir) (mmt : MultiMemtable) (cache : Cache)
    (pcm : Pcm) (streamId : UInt64) (w : Window) : Option (Cache × Pcm) :=
  (rangeBlocks P d mmt cache streamId w).bind fun r =>
    (r.2.foldlM pcmWriteBlock pcm).map (r.1, ·)

/-- `racs_range`: what is written, or none when the stream is not found. It is undefined when a time
does not fit. -/
def range (P : Platform) (md : MetadataDir) (d : SstableDir) (mmt : MultiMemtable) (cache : Cache)
    (streamId : List UInt8) (start duration : P.Double) : Option (Option (Cache × Pcm)) :=
  let hash := racsHash streamId
  match metadataGet md hash with
  | none => some none
  | some metadata =>
    let pcm := pcmInit metadata.channels.toUInt8 metadata.bitDepth.toUInt8 metadata.sampleRate
    let after (time : Int64) (seconds : P.Double) :=
      P.toInt64 (P.add (P.ofInt time.toInt) (P.mul seconds (P.ofInt 1000)))
    (after metadata.ref start).bind fun first => (after first duration).bind fun last =>
      (rangeAsTimestamp P d mmt cache pcm hash ⟨first, last⟩).map some

/-! ### Files through the cache -/

/-- Every cached value is the content of a file whose name has the time of the key. -/
def Cache.Agrees (cache : Cache) (d : SstableDir) : Prop :=
  cache.Holds fun key data => ∃ path time, d.lookup path = some data ∧
    timeFromPath path = some time ∧ key.2 = time.toUInt64

section Cached

variable {d : SstableDir} {cache cache' : Cache} {streamId : UInt64} {time : Int64}
  {path : List Char} {R : CacheKey → List UInt8 → Prop}

theorem rangeFromCacheOrSstable_of_hit {data : List UInt8}
    (hget : kvstoreGet cache.kv (streamId, time.toUInt64) = some data) :
    rangeFromCacheOrSstable d cache streamId time path =
      some (some data, cacheMoveToHead cache (streamId, time.toUInt64)) := by
  rw [rangeFromCacheOrSstable, cacheGet, hget]

theorem rangeFromCacheOrSstable_of_miss {data : List UInt8}
    (hget : kvstoreGet cache.kv (streamId, time.toUInt64) = none)
    (hfile : sstableRead d path = some data) :
    rangeFromCacheOrSstable d cache streamId time path =
      (cachePut cache (streamId, time.toUInt64) data).map (some data, ·) := by
  rw [rangeFromCacheOrSstable, cacheGet, hget]
  dsimp only
  rw [hfile]

theorem rangeFromCacheOrSstable_of_none
    (hget : kvstoreGet cache.kv (streamId, time.toUInt64) = none)
    (hfile : sstableRead d path = none) :
    rangeFromCacheOrSstable d cache streamId time path = some (none, cache) := by
  rw [rangeFromCacheOrSstable, cacheGet, hget]
  dsimp only
  rw [hfile]

/-- **What a read does**: it finds a cached value; or reads a file and caches it; or there is no
file. -/
theorem rangeFromCacheOrSstable_cases {read : Option (List UInt8)}
    (h : rangeFromCacheOrSstable d cache streamId time path = some (read, cache')) :
    (∃ data, read = some data ∧ kvstoreGet cache.kv (streamId, time.toUInt64) = some data ∧
      cache' = cacheMoveToHead cache (streamId, time.toUInt64)) ∨
    (∃ data, read = some data ∧ kvstoreGet cache.kv (streamId, time.toUInt64) = none ∧
      sstableRead d path = some data ∧
      cachePut cache (streamId, time.toUInt64) data = some cache') ∨
    (read = none ∧ cache' = cache) := by
  rcases hget : kvstoreGet cache.kv (streamId, time.toUInt64) with - | value
  · rcases hfile : sstableRead d path with - | value
    · rw [rangeFromCacheOrSstable_of_none hget hfile] at h
      obtain ⟨rfl, rfl⟩ := Prod.mk.inj (Option.some.inj h)
      exact .inr (.inr ⟨rfl, rfl⟩)
    · rw [rangeFromCacheOrSstable_of_miss hget hfile] at h
      obtain ⟨cache₁, hput, heq⟩ := Option.map_eq_some_iff.mp h
      obtain ⟨rfl, rfl⟩ := Prod.mk.inj heq
      exact .inr (.inl ⟨value, rfl, rfl, rfl, hput⟩)
  · rw [rangeFromCacheOrSstable_of_hit hget] at h
    obtain ⟨rfl, rfl⟩ := Prod.mk.inj (Option.some.inj h)
    exact .inl ⟨value, rfl, rfl, rfl⟩

/-- What is returned for a file is true of the cached values or of the file, and so is what is
cached then. -/
theorem Cache.Holds.fromCacheOrSstable (h : cache.Holds R) (hvalid : cache.Valid)
    (hfile : ∀ data, sstableRead d path = some data → R (streamId, time.toUInt64) data)
    {read : Option (List UInt8)}
    (hread : rangeFromCacheOrSstable d cache streamId time path = some (read, cache')) :
    cache'.Holds R ∧ cache'.Valid ∧ cache'.kv.capacity = cache.kv.capacity ∧
      ∀ data, read = some data → R (streamId, time.toUInt64) data := by
  rcases rangeFromCacheOrSstable_cases hread with ⟨data, rfl, hget, rfl⟩ |
    ⟨data, rfl, -, hdata, hput⟩ | ⟨rfl, rfl⟩
  · refine ⟨h, ⟨hvalid.ops, hvalid.distinct⟩, rfl, fun data' hdata' => ?_⟩
    obtain rfl := Option.some.inj hdata'
    exact h _ _ hget
  · have hR := hfile data hdata
    refine ⟨h.put hvalid hput hR, hvalid.put hput, cachePut_capacity hput, fun data' hdata' => ?_⟩
    obtain rfl := Option.some.inj hdata'
    exact hR
  · exact ⟨h, hvalid, rfl, fun data hdata => by cases hdata⟩

/-- With room for two values, a file that can be read is found. -/
theorem rangeFromCacheOrSstable_isSome (hcapacity : 2 ≤ cache.kv.capacity) {data : List UInt8}
    (hfile : sstableRead d path = some data) :
    ∃ data' cache', rangeFromCacheOrSstable d cache streamId time path =
      some (some data', cache') := by
  rcases hget : kvstoreGet cache.kv (streamId, time.toUInt64) with - | value
  · obtain ⟨cache', hput⟩ := cachePut_isSome hcapacity (streamId, time.toUInt64) data
    rw [rangeFromCacheOrSstable_of_miss hget hfile, hput]
    exact ⟨data, cache', rfl⟩
  · exact ⟨value, _, rangeFromCacheOrSstable_of_hit hget⟩

/-- **What a round of the loop does**: it passes over the file, or reads it. -/
theorem rangeFile_cases {w : Window} {es : List MemtableEntry}
    (h : rangeFile d streamId w cache path = some (cache', es)) :
    (cache' = cache ∧ es = []) ∨
    ∃ time read, timeFromPath path = some time ∧
      rangeFromCacheOrSstable d cache streamId time path = some (read, cache') ∧
      (es = [] ∨ ∃ data, read = some data ∧ rangeProcessSstable data streamId w = some es) := by
  unfold rangeFile at h
  split_ifs at h
  · obtain ⟨rfl, rfl⟩ := Prod.mk.inj (Option.some.inj h)
    exact .inl ⟨rfl, rfl⟩
  · obtain ⟨time, htime, h⟩ := Option.bind_eq_some_iff.mp h
    split_ifs at h
    · obtain ⟨⟨read, cache₁⟩, hread, h⟩ := Option.bind_eq_some_iff.mp h
      rcases read with - | data
      · obtain ⟨rfl, rfl⟩ := Prod.mk.inj (Option.some.inj h)
        exact .inr ⟨time, none, htime, hread, .inl rfl⟩
      · obtain ⟨es', hes', heq⟩ := Option.map_eq_some_iff.mp h
        obtain ⟨rfl, rfl⟩ := Prod.mk.inj heq
        exact .inr ⟨time, some data, htime, hread, .inr ⟨data, rfl, hes'⟩⟩
    · obtain ⟨rfl, rfl⟩ := Prod.mk.inj (Option.some.inj h)
      exact .inl ⟨rfl, rfl⟩

end Cached

end Racs
