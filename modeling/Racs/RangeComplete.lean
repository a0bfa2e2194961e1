import Racs.Range
import Racs.SegPath
import Mathlib.Data.List.Flatten

/-!
# Which blocks a range writes

SSTables are stored under the time of their first entry, of whatever stream, and a range reads the
ones whose own time is in its window. The blocks of an SSTable that begins before the window are
therefore missing, also those that are in the window. Otherwise every block of the stream in the
window is written once, whatever earlier ranges left in the cache, if the cache is for two or more
SSTables.

## Main definitions

* `Racs.SstableDir.Stores` — a directory with SSTables.
* `Racs.RangeComplete` — the range writes each block in the window once, and nothing else.
* `Racs.rangeReads` — the range reads the file.

## Main results

* `Racs.rangeBlocks_perm` — what a range writes.
* `Racs.rangeComplete_iff` — when it writes what it should.
* `Racs.listFilesRecursive_timeRangeToPath` — the files that a range finds.
* `Racs.rangeReads_iff` — which files are read, for times of a clock.
-/

namespace Racs

open PartialRun

/-- The directory holds the SSTables of the memtables, each at the path of the time of its first
entry, and nothing else. -/
structure SstableDir.Stores (P : Platform) (tables : List Memtable) (d : SstableDir) : Prop where
  keys : d.keys.Perm (tables.map fun mt => mt.path P false)
  lookup : ∀ mt ∈ tables, d.lookup (mt.path P false) = some (sstableImage mt.entries)

/-- The entries of an SSTable that belong to the stream and the window, without those whose checksum
does not match. -/
def Memtable.sstableEntriesIn (streamId : UInt64) (w : Window) (mt : Memtable) :
    List MemtableEntry :=
  (mt.entries.map MemtableEntry.checked).reduceOption.filter (inRange streamId w)

/-- The decodable blocks of an SSTable that belong to the stream and the window. -/
def Memtable.sstableBlocksIn (P : Platform) (streamId : UInt64) (w : Window) (mt : Memtable) :
    List (List UInt8) :=
  (mt.sstableEntriesIn streamId w).filterMap (entryBlock P)

/-- The decodable blocks of the memtables that belong to the stream and the window. -/
def memtableBlocksIn (P : Platform) (streamId : UInt64) (w : Window) (mmt : MultiMemtable) :
    List (List UInt8) :=
  (rangeMemtables mmt streamId w).filterMap (entryBlock P)

/-- Whatever of the SSTables is in the cache, the range passes each decodable block of the stream in
the window to `racs_pcm_write` once, wherever it is, and nothing else. -/
def RangeComplete (P : Platform) (capacity : ℕ) (tables : List Memtable) (d : SstableDir)
    (mmt : MultiMemtable) (streamId : UInt64) (w : Window) : Prop :=
  ∀ cache : Cache, cache.Valid → cache.kv.capacity = capacity → cache.Agrees d →
    ∃ cache' blocks, rangeBlocks P d mmt cache streamId w = some (cache', blocks) ∧
      blocks.Perm (tables.flatMap (fun mt => mt.sstableBlocksIn P streamId w) ++
        memtableBlocksIn P streamId w mmt)

/-- The range reads the file: it is below the shared directory, and the time in its name is in the
window. -/
def rangeReads (P : Platform) (w : Window) (path : List Char) : Bool :=
  (timeRangeToPath P.dataDir w ++ ['/']).isPrefixOf path && nameInWindow w path

/-- No two files in the window have the same time in their names. -/
def NamesApart (P : Platform) (w : Window) (tables : List Memtable) : Prop :=
  ∀ mt ∈ tables, ∀ mt' ∈ tables, nameInWindow w (mt.path P false) →
    timeFromPath (mt'.path P false) = timeFromPath (mt.path P false) →
    mt'.path P false = mt.path P false

variable {P : Platform} {tables : List Memtable} {d : SstableDir} {streamId : UInt64} {w : Window}

/-- A directory with one SSTable. -/
theorem SstableDir.stores_singleton (P : Platform) (mt : Memtable) :
    SstableDir.Stores P [mt] (AList.insert (mt.path P false) (sstableImage mt.entries) ∅) where
  keys := by
    rw [AList.keys_insert]
    exact List.Perm.refl _
  lookup mt' hmt' := by
    rw [List.mem_singleton.mp hmt']
    exact AList.lookup_insert _

/-! ### One file -/

/-- What the file with this path contributes to a range. -/
def fileEntries (d : SstableDir) (streamId : UInt64) (w : Window) (path : List Char) :
    List MemtableEntry :=
  if nameInWindow w path then
    (((d.lookup path).bind sstableEntries).getD []).reduceOption.filter (inRange streamId w)
  else []

theorem sstableEntries_memtable (mt : Memtable) :
    sstableEntries (sstableImage mt.entries) = some (mt.entries.map MemtableEntry.checked) :=
  sstableEntries_image mt.entries (lt_of_le_of_lt mt.length_le mt.capacity.toNat_lt)

/-- With the checksums of the blocks, every entry is read. -/
theorem sstableEntriesIn_of_checksum {mt : Memtable}
    (h : ∀ e ∈ mt.entries, crc32c 0 e.block = e.checksum) :
    mt.sstableEntriesIn streamId w = mt.entries.filter (inRange streamId w) := by
  rw [Memtable.sstableEntriesIn, map_checked h, reduceOption_map_some]

theorem SstableDir.Stores.fileEntries_eq (h : d.Stores P tables) {mt : Memtable}
    (hmt : mt ∈ tables) : fileEntries d streamId w (mt.path P false) =
      if nameInWindow w (mt.path P false) then mt.sstableEntriesIn streamId w else [] := by
  rw [fileEntries, h.lookup mt hmt, Option.bind_some, sstableEntries_memtable]
  rfl

theorem SstableDir.Stores.sstableRead_eq (h : d.Stores P tables) {mt : Memtable}
    (hmt : mt ∈ tables) :
    sstableRead d (mt.path P false) = some (sstableImage mt.entries) :=
  sstableRead_image (h.lookup mt hmt)

/-- The file that a cached value stands for. -/
theorem SstableDir.Stores.mem_of_lookup (h : d.Stores P tables) {path : List Char}
    {data : List UInt8} (hdata : d.lookup path = some data) :
    ∃ mt ∈ tables, path = mt.path P false ∧ data = sstableImage mt.entries := by
  have hmem : path ∈ d.keys := by
    rw [← AList.mem_keys, ← AList.lookup_isSome, hdata]
    rfl
  obtain ⟨mt, hmt, rfl⟩ := List.mem_map.mp (h.keys.mem_iff.mp hmem)
  rw [h.lookup mt hmt] at hdata
  exact ⟨mt, hmt, rfl, (Option.some.inj hdata).symm⟩

/-- A round of the loop in which the content of the file is returned selects what the file
contributes. -/
theorem rangeFile_of_read {mt : Memtable} {cache cache' : Cache} {time : Int64}
    (hfile : d.lookup (mt.path P false) = some (sstableImage mt.entries))
    (htime : timeFromPath (mt.path P false) = some time)
    (hread : time ∈ w → rangeFromCacheOrSstable d cache streamId time (mt.path P false) =
      some (some (sstableImage mt.entries), cache')) :
    rangeFile d streamId w cache (mt.path P false) =
      some (if time ∈ w then cache' else cache, fileEntries d streamId w (mt.path P false)) := by
  have htmp : isTmpfile (mt.path P false) = false := isTmpfile_timeToPath P.dataDir mt.timestamp
  have hname : nameInWindow w (mt.path P false) = decide (time ∈ w) := by
    rw [nameInWindow, htime]
    rfl
  rw [rangeFile, htmp, if_neg Bool.false_ne_true, htime, Option.bind_some, fileEntries, hname]
  split_ifs with hwindow hdecide
  · rw [hread hwindow, Option.bind_some, hfile, Option.bind_some, sstableEntries_memtable]
    simp only [rangeProcessSstable, sstableEntries_memtable, Option.map_some]
    rfl
  · exact absurd (decide_eq_true hwindow) hdecide
  · exact absurd (of_decide_eq_true ‹_›) hwindow
  · rfl

/-- **A round of the loop** selects what the file contributes, and keeps the cache in agreement. -/
theorem SstableDir.Stores.rangeFile_eq (h : d.Stores P tables) (hnames : NamesApart P w tables)
    {mt : Memtable} (hmt : mt ∈ tables) {cache : Cache} (hvalid : cache.Valid)
    (hagrees : cache.Agrees d)
    (hroom : nameInWindow w (mt.path P false) → 2 ≤ cache.kv.capacity) :
    ∃ cache', rangeFile d streamId w cache (mt.path P false) =
        some (cache', fileEntries d streamId w (mt.path P false)) ∧
      cache'.Valid ∧ cache'.Agrees d ∧ cache'.kv.capacity = cache.kv.capacity := by
  obtain ⟨time, htime⟩ : ∃ time, timeFromPath (mt.path P false) = some time :=
    timeFromPath_isSome P.dataDir mt.timestamp
  by_cases hwindow : time ∈ w
  · have hname : nameInWindow w (mt.path P false) := by
      rw [nameInWindow, htime]
      exact decide_eq_true hwindow
    obtain ⟨data, cache', hread⟩ := @rangeFromCacheOrSstable_isSome d cache streamId time _
      (hroom hname) _ (h.sstableRead_eq hmt)
    have hfile : ∀ data, sstableRead d (mt.path P false) = some data →
        ∃ path t, d.lookup path = some data ∧ timeFromPath path = some t ∧
          time.toUInt64 = t.toUInt64 := by
      intro data hdata
      exact ⟨_, time, Option.eq_some_of_filter_eq_some hdata, htime, rfl⟩
    obtain ⟨hagrees', hvalid', hcapacity, hdata⟩ :=
      hagrees.fromCacheOrSstable hvalid hfile hread
    -- the value stands for a file with the same time in its name, which is this one
    obtain ⟨path, t, hlookup, hpath, ht⟩ := hdata data rfl
    obtain ⟨mt', hmt', rfl, rfl⟩ := h.mem_of_lookup hlookup
    obtain rfl : time = t := congrArg UInt64.toInt64 ht
    have hsame : mt'.path P false = mt.path P false :=
      hnames mt hmt mt' hmt' hname (hpath.trans htime.symm)
    rw [hsame, h.lookup mt hmt] at hlookup
    rw [← Option.some.inj hlookup] at hread
    refine ⟨cache', ?_, hvalid', hagrees', hcapacity⟩
    rw [rangeFile_of_read (h.lookup mt hmt) htime fun _ => hread, if_pos hwindow]
  · refine ⟨cache, ?_, hvalid, hagrees, rfl⟩
    rw [@rangeFile_of_read _ _ _ _ _ _ cache _ (h.lookup mt hmt) htime
      fun hwindow' => absurd hwindow' hwindow, if_neg hwindow]

/-! ### All files -/

/-- The paths that the loop over the files goes through. -/
theorem SstableDir.Stores.perm_list (h : d.Stores P tables) :
    (getSortedFilelist (listFilesRecursive d (timeRangeToPath P.dataDir w))).Perm
      ((tables.map fun mt => mt.path P false).filter
        ((timeRangeToPath P.dataDir w ++ ['/']).isPrefixOf ·)) :=
  (perm_getSortedFilelist _).trans (h.keys.filter _)

theorem flatMap_filter_eq {α β : Type} (q : α → Bool) (f : α → List β) (l : List α) :
    (l.filter q).flatMap f = l.flatMap fun a => if q a then f a else [] := by
  induction l with
  | nil => rfl
  | cons a l ih =>
    rw [List.flatMap_cons, ← ih]
    by_cases hq : q a
    · rw [List.filter_cons_of_pos hq, List.flatMap_cons, if_pos hq]
    · rw [List.filter_cons_of_neg hq, if_neg hq, List.nil_append]

/-- The files that the loop goes through contribute what is in the SSTables that the range reads. -/
theorem SstableDir.Stores.flatMap_fileEntries (h : d.Stores P tables) :
    ((tables.map fun mt => mt.path P false).filter
        ((timeRangeToPath P.dataDir w ++ ['/']).isPrefixOf ·)).flatMap
          (fileEntries d streamId w) =
      tables.flatMap fun mt =>
        if rangeReads P w (mt.path P false) then mt.sstableEntriesIn streamId w else [] := by
  rw [flatMap_filter_eq, List.flatMap_map]
  refine List.flatMap_congr fun mt hmt => ?_
  rw [h.fileEntries_eq hmt, rangeReads]
  cases (timeRangeToPath P.dataDir w ++ ['/']).isPrefixOf (mt.path P false) with
  | true => rw [if_pos rfl, Bool.true_and]
  | false => rw [if_neg Bool.false_ne_true, Bool.false_and, if_neg Bool.false_ne_true]

/-- What a range selects, file after file in the order of their paths. A cache for one SSTable is
enough if none is read. -/
theorem SstableDir.Stores.rangeEntries_eq (h : d.Stores P tables) (hnames : NamesApart P w tables)
    {cache : Cache} (hvalid : cache.Valid) (hagrees : cache.Agrees d)
    (hroom : cache.kv.capacity = 1 → ∀ mt ∈ tables, ¬ rangeReads P w (mt.path P false))
    (mmt : MultiMemtable) :
    ∃ cache', rangeEntries P d mmt cache streamId w = some (cache',
      (getSortedFilelist (listFilesRecursive d (timeRangeToPath P.dataDir w))).flatMap
        (fileEntries d streamId w) ++ rangeMemtables mmt streamId w) := by
  let list := getSortedFilelist (listFilesRecursive d (timeRangeToPath P.dataDir w))
  have hstep : ∀ c : Cache, ∀ path ∈ list,
      (c.Valid ∧ c.Agrees d ∧ c.kv.capacity = cache.kv.capacity) →
      ∃ c', rangeFile d streamId w c path = some (c', fileEntries d streamId w path) ∧
        (c'.Valid ∧ c'.Agrees d ∧ c'.kv.capacity = cache.kv.capacity) := by
    rintro c path hpath ⟨hcvalid, hcagrees, hcapacity⟩
    obtain ⟨hmem, hbelow⟩ := List.mem_filter.mp (h.perm_list.mem_iff.mp hpath)
    obtain ⟨mt, hmt, rfl⟩ := List.mem_map.mp hmem
    have htwo : nameInWindow w (mt.path P false) → 2 ≤ c.kv.capacity := by
      intro hname
      have hpos := c.kv.capacity_pos
      by_contra hlt
      refine hroom (by omega) mt hmt ?_
      rw [rangeReads, hbelow, hname]
      rfl
    obtain ⟨c', hc', hvalid', hagrees', hcapacity'⟩ :=
      h.rangeFile_eq hnames hmt hcvalid hcagrees htwo
    exact ⟨c', hc', hvalid', hagrees', hcapacity'.trans hcapacity⟩
  obtain ⟨cache', hrun, -⟩ := exec_map hstep ⟨hvalid, hagrees, rfl⟩
  refine ⟨cache', ?_⟩
  rw [rangeEntries, rangeFiles, hrun, List.flatMap_def]
  rfl

/-- **What a range writes**: the blocks of the SSTables that it reads, and those of the
memtables. -/
theorem SstableDir.Stores.rangeBlocks_perm (h : d.Stores P tables) (hnames : NamesApart P w tables)
    {cache : Cache} (hvalid : cache.Valid) (hagrees : cache.Agrees d)
    (hroom : cache.kv.capacity = 1 → ∀ mt ∈ tables, ¬ rangeReads P w (mt.path P false))
    (mmt : MultiMemtable) :
    ∃ cache' blocks, rangeBlocks P d mmt cache streamId w = some (cache', blocks) ∧
      blocks.Perm ((tables.flatMap fun mt =>
        if rangeReads P w (mt.path P false) then mt.sstableBlocksIn P streamId w else []) ++
          memtableBlocksIn P streamId w mmt) := by
  obtain ⟨cache', hentries⟩ :=
    @SstableDir.Stores.rangeEntries_eq P tables d streamId w h hnames cache hvalid hagrees hroom mmt
  refine ⟨cache', _, by rw [rangeBlocks, hentries]; rfl, ?_⟩
  rw [List.filterMap_append]
  refine List.Perm.append ?_ (List.Perm.refl _)
  refine ((h.perm_list.flatMap_right _).filterMap _).trans (List.Perm.of_eq ?_)
  rw [h.flatMap_fileEntries, List.filterMap_flatMap]
  refine List.flatMap_congr fun mt _ => ?_
  split_ifs
  · rfl
  · rfl

/-- In a full cache for one SSTable, without values of the stream, no file can be read. -/
theorem SstableDir.Stores.rangeFile_full (h : d.Stores P tables) {mt : Memtable}
    (hmt : mt ∈ tables) {cache : Cache} (hcapacity : cache.kv.capacity = 1)
    (hlength : cache.order.length = 1)
    (hmiss : ∀ t : Int64, kvstoreGet cache.kv (streamId, t.toUInt64) = none) :
    rangeFile d streamId w cache (mt.path P false) =
      if nameInWindow w (mt.path P false) then none else some (cache, []) := by
  obtain ⟨t, ht⟩ := timeFromPath_isSome P.dataDir mt.timestamp
  have hput : cachePut cache (streamId, t.toUInt64) (sstableImage mt.entries) = none :=
    cachePut_eq_none (hmiss t) (by omega) hlength _
  have hfile : rangeFromCacheOrSstable d cache streamId t (mt.path P false) = none := by
    rw [rangeFromCacheOrSstable_of_miss (hmiss t) (h.sstableRead_eq hmt), hput]
    rfl
  rw [rangeFile, Memtable.path, isTmpfile_timeToPath, if_neg Bool.false_ne_true, ht,
    Option.bind_some, nameInWindow, ht, Option.any_some]
  by_cases hwindow : t ∈ w
  · rw [if_pos hwindow, decide_eq_true hwindow, if_pos rfl]
    exact congrArg (Option.bind · _) hfile
  · rw [if_neg hwindow, decide_eq_false hwindow, if_neg Bool.false_ne_true]

/-- With a cache for one SSTable, a range that reads a file is undefined when the cache holds
another value. -/
theorem SstableDir.Stores.rangeBlocks_eq_none (h : d.Stores P tables) {mt : Memtable}
    (hmt : mt ∈ tables) (hreads : rangeReads P w (mt.path P false)) (mmt : MultiMemtable) :
    ∃ cache : Cache, cache.Valid ∧ cache.kv.capacity = 1 ∧ cache.Agrees d ∧
      rangeBlocks P d mmt cache streamId w = none := by
  obtain ⟨time, htime⟩ := timeFromPath_isSome P.dataDir mt.timestamp
  have htime' : timeFromPath (mt.path P false) = some time := htime
  obtain ⟨cache, hvalid, hcapacity, hlength, hget⟩ :=
    exists_cache_one (streamId + 1, time.toUInt64) (sstableImage mt.entries)
  refine ⟨cache, hvalid, hcapacity, ?_, ?_⟩
  · intro key data hdata
    rw [hget] at hdata
    split_ifs at hdata with hkey
    obtain rfl := Option.some.inj hdata
    exact ⟨_, time, h.lookup mt hmt, htime', by rw [hkey]⟩
  · obtain ⟨hbelow, hname⟩ := Bool.and_eq_true_iff.mp hreads
    have hmiss : ∀ t : Int64, kvstoreGet cache.kv (streamId, t.toUInt64) = none := by
      intro t
      rw [hget, if_neg]
      intro hkey
      have := congrArg Prod.fst hkey
      simp at this
    have hround : ∀ path ∈ getSortedFilelist (listFilesRecursive d (timeRangeToPath P.dataDir w)),
        rangeFile d streamId w cache path =
          if nameInWindow w path then none else some (cache, []) := by
      intro path hpath
      obtain ⟨hmem, -⟩ := List.mem_filter.mp (h.perm_list.mem_iff.mp hpath)
      obtain ⟨mt', hmt', rfl⟩ := List.mem_map.mp hmem
      exact h.rangeFile_full hmt' hcapacity hlength hmiss
    have hnone : exec (rangeFile d streamId w) cache
        (getSortedFilelist (listFilesRecursive d (timeRangeToPath P.dataDir w))) = none := by
      refine exec_eq_none (fun path hpath => ?_) ⟨mt.path P false, ?_, ?_⟩
      · rw [hround path hpath]
        split_ifs
        · exact .inl rfl
        · exact .inr ⟨[], rfl⟩
      · rw [h.perm_list.mem_iff, List.mem_filter]
        exact ⟨List.mem_map_of_mem hmt, hbelow⟩
      · rw [hround, if_pos hname]
        rw [h.perm_list.mem_iff, List.mem_filter]
        exact ⟨List.mem_map_of_mem hmt, hbelow⟩
    rw [rangeBlocks, rangeEntries, rangeFiles, hnone]
    rfl

/-! ### The shared directory -/

/-- The path of a time in the window is below the directory. -/
theorem timeRangeToPath_prefix (dir : List Char) {w : Window} {time : Int64} (h : time ∈ w)
    (tmp : Bool) : timeRangeToPath dir w ++ ['/'] <+: timeToPath dir time tmp := by
  have hfinished : timeRangeToPath dir w ++ ['/'] <+: timeToPath dir time false :=
    shared_prefix_timeToPath dir h.1 h.2
  cases tmp with
  | false => exact hfinished
  | true =>
    have htmp : timeToPath dir time true = timeToPath dir time false ++ ".tmp".toList := by
      rw [timeToPath, timeToPath, if_pos rfl, if_neg Bool.false_ne_true, List.append_nil,
        List.append_assoc]
    rw [htmp]
    exact hfinished.trans (List.prefix_append _ _)

/-- **The shared directory is enough**: a file with the path of a time in the window that is found
below `.racs/seg` is found below the shared directory. -/
theorem listFilesRecursive_timeRangeToPath (dir : List Char) (w : Window) :
    (∀ time ∈ w, ∀ tmp, timeRangeToPath dir w ++ ['/'] <+: timeToPath dir time tmp) ∧
      ∀ d : SstableDir, ∀ path ∈ listFilesRecursive d (dir ++ "/.racs/seg".toList),
        (∃ time ∈ w, ∃ tmp, path = timeToPath dir time tmp) →
          path ∈ listFilesRecursive d (timeRangeToPath dir w) := by
  refine ⟨fun time htime tmp => timeRangeToPath_prefix dir htime tmp, ?_⟩
  rintro d path hpath ⟨time, htime, tmp, rfl⟩
  refine List.mem_filter.mpr ⟨List.mem_of_mem_filter hpath, ?_⟩
  rw [List.isPrefixOf_iff_prefix]
  exact timeRangeToPath_prefix dir htime tmp

/-! ### Times of a clock -/

/-- **An SSTable is read if its time is in the window**, where its name has this time. -/
theorem rangeReads_iff_mem {mt : Memtable}
    (htime : timeFromPath (mt.path P false) = some mt.timestamp) :
    rangeReads P w (mt.path P false) = true ↔ mt.timestamp ∈ w := by
  rw [rangeReads, nameInWindow, htime, Option.any_some, Bool.and_eq_true, decide_eq_true_eq,
    and_iff_right_of_imp]
  intro hwindow
  rw [List.isPrefixOf_iff_prefix]
  exact timeRangeToPath_prefix P.dataDir hwindow false

/-- Names that have the times of the SSTables tell these apart. -/
theorem namesApart_of_timeFromPath
    (htimes : ∀ mt ∈ tables, timeFromPath (mt.path P false) = some mt.timestamp) :
    NamesApart P w tables := by
  intro mt hmt mt' hmt' _ heq
  rw [htimes mt' hmt', htimes mt hmt] at heq
  rw [Memtable.path, Memtable.path, Option.some.inj heq]

theorem rangeReads_iff (hdir : ¬ ".racs/seg".toList <:+: P.dataDir) {mt : Memtable}
    (hclock : ClockTime mt.timestamp) :
    rangeReads P w (mt.path P false) = true ↔ mt.timestamp ∈ w :=
  rangeReads_iff_mem (timeFromPath_timeToPath hdir hclock)

/-- Times of a clock are told apart by the names of the files. -/
theorem namesApart_of_clockTime (hdir : ¬ ".racs/seg".toList <:+: P.dataDir)
    (hclock : ∀ mt ∈ tables, ClockTime mt.timestamp) : NamesApart P w tables :=
  namesApart_of_timeFromPath fun mt hmt => timeFromPath_timeToPath hdir (hclock mt hmt)

/-! ### When a range is exact -/

/-- Leaving out some of the lists changes the concatenation, unless these are empty. -/
theorem perm_flatMap_ite_iff {α β : Type} (q : α → Bool) (f : α → List β) (l : List α) :
    (l.flatMap fun a => if q a then f a else []).Perm (l.flatMap f) ↔
      ∀ a ∈ l, f a ≠ [] → q a := by
  have hle : ∀ l : List α,
      (l.flatMap fun a => if q a then f a else []).length ≤ (l.flatMap f).length := by
    intro l
    refine List.Sublist.length_le (List.Sublist.flatMap_right l fun a _ => ?_)
    split_ifs
    · exact List.Sublist.refl _
    · exact List.nil_sublist _
  constructor
  · intro h
    have hlength := h.length_eq
    clear h
    induction l with
    | nil => exact fun a ha => absurd ha List.not_mem_nil
    | cons a l ih =>
      rw [List.flatMap_cons, List.flatMap_cons, List.length_append, List.length_append] at hlength
      have hrest := hle l
      intro b hb hne
      rcases List.mem_cons.mp hb with rfl | hb
      · by_contra hq
        rw [if_neg hq, List.length_nil] at hlength
        exact hne (List.length_eq_zero_iff.mp (by omega))
      · refine ih ?_ b hb hne
        split_ifs at hlength
        · omega
        · rw [List.length_nil] at hlength
          omega
  · intro h
    refine List.Perm.of_eq (List.flatMap_congr fun a ha => ?_)
    by_cases hq : q a
    · rw [if_pos hq]
    · rw [if_neg hq]
      by_contra hne
      exact hq (h a ha fun hnil => hne hnil.symm)

/-- **When a range is exact**: every SSTable with a block for it is one that it reads, and the cache
is for two or more SSTables, unless no SSTable is read. -/
theorem rangeComplete_iff (h : d.Stores P tables) (hnames : NamesApart P w tables) {capacity : ℕ}
    (hcapacity : 0 < capacity) (mmt : MultiMemtable) :
    RangeComplete P capacity tables d mmt streamId w ↔
      (∀ mt ∈ tables, mt.sstableBlocksIn P streamId w ≠ [] → rangeReads P w (mt.path P false)) ∧
      (capacity = 1 → ∀ mt ∈ tables, ¬ rangeReads P w (mt.path P false)) := by
  constructor
  · intro hcomplete
    have hone : capacity = 1 → ∀ mt ∈ tables, ¬ rangeReads P w (mt.path P false) := by
      rintro rfl mt hmt hreads
      obtain ⟨cache, hvalid, hcap, hagrees, hnone⟩ :=
        @SstableDir.Stores.rangeBlocks_eq_none P tables d streamId w h mt hmt hreads mmt
      obtain ⟨cache', blocks, hblocks, -⟩ := hcomplete cache hvalid hcap hagrees
      rw [hnone] at hblocks
      cases hblocks
    refine ⟨?_, hone⟩
    obtain ⟨cache', blocks, hblocks, hperm⟩ := hcomplete (scacheCreate capacity hcapacity)
      (scacheCreate_valid capacity hcapacity) rfl (scacheCreate_holds capacity hcapacity _)
    obtain ⟨cache'', blocks', hblocks', hperm'⟩ := h.rangeBlocks_perm hnames
      (scacheCreate_valid capacity hcapacity) (scacheCreate_holds capacity hcapacity _) hone mmt
    obtain ⟨-, rfl⟩ := Prod.mk.inj (Option.some.inj (hblocks.symm.trans hblocks'))
    have hall := (List.perm_append_right_iff _).mp (hperm'.symm.trans hperm)
    exact (perm_flatMap_ite_iff _ _ _).mp hall
  · rintro ⟨hreads, hone⟩ cache hvalid hcap hagrees
    obtain ⟨cache', blocks, hblocks, hperm⟩ :=
      h.rangeBlocks_perm hnames hvalid hagrees (fun hc => hone (hcap ▸ hc)) mmt
    refine ⟨cache', blocks, hblocks, hperm.trans ?_⟩
    exact List.Perm.append ((perm_flatMap_ite_iff _ _ _).mpr hreads) (List.Perm.refl _)

/-! ### Two seconds of a stream -/

/-- A memtable with a block of the first second of a stream, and one of the next. -/
def twoSeconds : Memtable where
  capacity := 2
  entries := [⟨(7, 1000), 1, crc32c 0 [1, 0], 2, 0, [1, 0], rfl⟩,
    ⟨(7, 2000), 2, crc32c 0 [2, 0], 2, 0, [2, 0], rfl⟩]
  length_le := by decide

/-- The directory with its SSTable. -/
def twoSecondsDir : SstableDir :=
  AList.insert (twoSeconds.path Platform.rational false) (sstableImage twoSeconds.entries) ∅

theorem twoSecondsDir_stores : twoSecondsDir.Stores Platform.rational [twoSeconds] :=
  SstableDir.stores_singleton _ _

theorem not_infix_dataDir : ¬ ".racs/seg".toList <:+: Platform.rational.dataDir := by
  decide

/-- In the directory of the minute, the file of the second second is found. -/
theorem listFilesRecursive_twoSeconds :
    timeToPath "data".toList 1000 false ∈
      listFilesRecursive twoSecondsDir (timeRangeToPath "data".toList ⟨500, 1500⟩) :=
  (listFilesRecursive_timeRangeToPath "data".toList ⟨500, 1500⟩).2 twoSecondsDir _
    (by decide +kernel) ⟨1000, by decide, false, rfl⟩

theorem clockTime_twoSeconds : ∀ mt ∈ [twoSeconds], ClockTime mt.timestamp := by
  intro mt hmt
  rw [List.mem_singleton.mp hmt]
  exact ⟨by decide, by decide⟩

/-- What its SSTable has for a range. -/
theorem sstableBlocksIn_twoSeconds (w : Window) :
    twoSeconds.sstableBlocksIn Platform.rational 7 w =
      (twoSeconds.entries.filter (inRange 7 w)).map MemtableEntry.block := by
  have hchecksum : ∀ e ∈ twoSeconds.entries, crc32c 0 e.block = e.checksum := by
    simp only [twoSeconds, List.forall_mem_cons, List.not_mem_nil, false_implies, implies_true,
      and_true]
  rw [Memtable.sstableBlocksIn, sstableEntriesIn_of_checksum hchecksum]
  refine List.filterMap_eq_map_iff_forall_eq_some.mpr fun e he => ?_
  have hflags : ∀ e ∈ twoSeconds.entries, e.flags ≠ 1 := by decide
  rw [entryBlock, if_neg (hflags e (List.mem_of_mem_filter he))]

/-- The window from the middle of the first second on has the second block, which is not written. -/
theorem not_rangeComplete_twoSeconds :
    twoSecondsDir.Stores Platform.rational [twoSeconds] ∧
      ¬ RangeComplete Platform.rational 2 [twoSeconds] twoSecondsDir [] 7 ⟨1500, 2500⟩ := by
  refine ⟨twoSecondsDir_stores, fun hcomplete => ?_⟩
  obtain ⟨cache, blocks, hblocks, hperm⟩ := hcomplete (scacheCreate 2 (by decide))
    (scacheCreate_valid 2 _) rfl (scacheCreate_holds 2 _ _)
  have hapart : NamesApart Platform.rational ⟨1500, 2500⟩ [twoSeconds] :=
    namesApart_of_clockTime not_infix_dataDir clockTime_twoSeconds
  obtain ⟨cache', blocks', hblocks', hperm'⟩ := @SstableDir.Stores.rangeBlocks_perm
    Platform.rational _ _ 7 ⟨1500, 2500⟩ twoSecondsDir_stores hapart _
    (scacheCreate_valid 2 (by decide)) (scacheCreate_holds 2 _ _)
    (fun htwo => absurd htwo (by decide)) []
  obtain ⟨-, rfl⟩ := Prod.mk.inj (Option.some.inj (hblocks.symm.trans hblocks'))
  have hreads : ¬ rangeReads Platform.rational ⟨1500, 2500⟩
      (twoSeconds.path Platform.rational false) := by
    rw [rangeReads_iff not_infix_dataDir (clockTime_twoSeconds _ (List.mem_singleton_self _))]
    decide
  have hlength := (hperm'.symm.trans hperm).length_eq
  simp only [List.flatMap_singleton, if_neg hreads, sstableBlocksIn_twoSeconds] at hlength
  revert hlength
  decide

/-- From the beginning of the first second on, both are written. -/
theorem rangeComplete_twoSeconds :
    RangeComplete Platform.rational 2 [twoSeconds] twoSecondsDir [] 7 ⟨1000, 2500⟩ := by
  refine (rangeComplete_iff twoSecondsDir_stores
    (namesApart_of_clockTime not_infix_dataDir clockTime_twoSeconds) (by decide) []).mpr
    ⟨fun mt hmt _ => ?_, fun htwo => absurd htwo (by decide)⟩
  rw [rangeReads_iff not_infix_dataDir (clockTime_twoSeconds mt hmt), List.mem_singleton.mp hmt]
  decide

end Racs
