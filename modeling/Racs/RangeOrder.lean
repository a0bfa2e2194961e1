import Racs.BackgroundFlush
import Racs.Foundation.SortedParts
import Racs.RangeComplete
import Racs.StreamTimes
import Mathlib.Algebra.Order.BigOperators.Group.List
import Mathlib.Data.List.ReduceOption

/-!
# The order of what a range writes

A range goes through the SSTables in the order of their paths, which are those of the times of their
first entries, and ends with the memtable. The entries of all streams fill one memtable after the
other, so the first entry of a later memtable may belong to a stream that is behind, and have an
earlier time: its file then comes first, also for streams that have entries in both files.

The blocks come out in the order of the appends in every run in which this does not happen. The
entries of a run are divided into those of one memtable after the other by `SortedParts.groups`.

## Main definitions

* `Racs.RangingStore`, `Racs.rangingStep` — the server with the cache, and ranges between requests.
* `Racs.RangesInOrder` — every range, in every state of a run, selects entries in their order.
* `Racs.groupPath`, `Racs.Chronological` — what the order depends on.

## Main results

* `Racs.rangesInOrder_of_chronological`.
* `Racs.chronological_of_ascending` — times that never go back are chronological.
-/

namespace Racs

open PartialRun SortedParts

/-! ### Ranges between requests -/

/-- The server with the cache of SSTables. -/
structure RangingStore where
  store : Store
  cache : Cache

/-- A step of the server, or a range. -/
inductive RangingEvent
  | server (ev : Event)
  | range (streamId : UInt64) (w : Window)

/-- One step. A range only changes the cache. -/
def rangingStep (P : Platform) (s : RangingStore) : RangingEvent → Option (RangingStore × Output)
  | .server ev => (step P s.store ev).map fun (store, o) => (⟨store, s.cache⟩, o)
  | .range streamId w =>
    (rangeEntries P s.store.disk.sstables s.store.mmt s.cache streamId w).map fun (cache, _) =>
      (⟨s.store, cache⟩, .other)

/-- The first start, with a cache of the given capacity. -/
def RangingStore.init (cfg : Config) (capacity : ℕ) (h : 0 < capacity) : RangingStore :=
  ⟨Store.init cfg, scacheCreate capacity h⟩

/-- Without ranges the cache stays as it is. -/
theorem exec_map_server (P : Platform) (s : RangingStore) (evs : List Event) :
    exec (rangingStep P) s (evs.map .server) =
      (exec (step P) s.store evs).map fun r => (⟨r.1, s.cache⟩, r.2) := by
  induction evs generalizing s with
  | nil => rfl
  | cons ev evs ih =>
    rw [List.map_cons, exec_cons, exec_cons, rangingStep]
    rcases step P s.store ev with - | ⟨t, o⟩
    · rfl
    · rw [Option.map_some, Option.bind_some, Option.bind_some, ih, Option.map_map, Option.map_map]
      rfl

/-- The times of the entries do not decrease. -/
def TimesAscend (es : List MemtableEntry) : Prop :=
  es.Pairwise fun a b => a.key.2.toInt64 ≤ b.key.2.toInt64

/-- In every state of the run, every range selects accepted entries of the stream in the order in
which they were accepted, and their times do not decrease. -/
def RangesInOrder (P : Platform) (s : RangingStore) (evs : List RangingEvent) : Prop :=
  ∀ before after m os, evs = before ++ after → exec (rangingStep P) s before = some (m, os) →
    ∀ streamId w cache es,
      rangeEntries P m.store.disk.sstables m.store.mmt m.cache streamId w = some (cache, es) →
      es.Sublist ((acceptedEntries os).filter (inRange streamId w)) ∧ TimesAscend es

/-! ### What the order depends on -/

/-- The time of the first entry of a group. -/
def groupTime (g : List MemtableEntry) : Int64 := (g.head?.map fun e => e.key.2.toInt64).getD 0

/-- The path of the SSTable for a group. -/
def groupPath (P : Platform) (g : List MemtableEntry) : List Char :=
  timeToPath P.dataDir (groupTime g) false

theorem groupPath_entries (P : Platform) (mt : Memtable) :
    groupPath P mt.entries = mt.path P false := by
  rw [groupPath, groupTime, Memtable.path, Memtable.timestamp]
  rcases mt.entries with - | ⟨e, es⟩ <;> rfl

/-- What the order of ranges depends on: no stream gets `2 ^ 64` bytes of audio; of two memtables
with a common stream, the path of the second is not before that of the first; and no two memtables
with different paths have the same time in their names. -/
structure Chronological (P : Platform) (n : ℕ) (es : List MemtableEntry) : Prop where
  audio : ∀ streamId, streamBytes P streamId es < 2 ^ 64
  paths : (groups n es).1.Pairwise fun g g' =>
    (∃ a ∈ g, ∃ b ∈ g', a.key.1 = b.key.1) → pathCmpLE (groupPath P g) (groupPath P g')
  names : ∀ g ∈ (groups n es).1, ∀ g' ∈ (groups n es).1,
    timeFromPath (groupPath P g) = timeFromPath (groupPath P g') → groupPath P g = groupPath P g'

theorem Chronological.of_append {P : Platform} {n : ℕ} {es es' : List MemtableEntry}
    (h : Chronological P n (es ++ es')) : Chronological P n es where
  audio streamId := by
    refine lt_of_le_of_lt ?_ (h.audio streamId)
    rw [streamBytes, streamBytes, entriesOf, entriesOf, List.filter_append, List.map_append,
      List.sum_append]
    exact Nat.le_add_right _ _
  paths := h.paths.sublist (groups_append n es es').sublist
  names g hg g' hg' :=
    h.names g ((groups_append n es es').subset hg) g' ((groups_append n es es').subset hg')

/-! ### Files with the entries of groups -/

/-- Every file has the entries of a group, and is at its path. -/
def SstableDir.HoldsGroups (P : Platform) (gs : List (List MemtableEntry))
    (d : SstableDir) : Prop :=
  ∀ path data, d.lookup path = some data → ∃ g ∈ gs, path = groupPath P g ∧ data = sstableImage g

/-- A cached value has the entries of a group, whose name has the time of the key. -/
def FromGroup (P : Platform) (gs : List (List MemtableEntry)) (key : CacheKey)
    (data : List UInt8) : Prop :=
  ∃ g ∈ gs, ∃ time, timeFromPath (groupPath P g) = some time ∧ key.2 = time.toUInt64 ∧
    data = sstableImage g

theorem FromGroup.mono {P : Platform} {gs gs' : List (List MemtableEntry)} {key : CacheKey}
    {data : List UInt8} (h : FromGroup P gs key data) (hsub : gs ⊆ gs') :
    FromGroup P gs' key data := by
  obtain ⟨g, hg, hdata⟩ := h
  exact ⟨g, hsub hg, hdata⟩

variable {P : Platform} {gs : List (List MemtableEntry)} {d : SstableDir} {streamId : UInt64}
  {w : Window}

theorem checked_sublist (es : List MemtableEntry) :
    (es.map MemtableEntry.checked).reduceOption.Sublist es := by
  induction es with
  | nil => exact List.Sublist.refl _
  | cons e es ih =>
    rw [List.map_cons, MemtableEntry.checked]
    split_ifs
    · rw [List.reduceOption_cons_of_some]
      exact ih.cons_cons e
    · rw [List.reduceOption_cons_of_none]
      exact ih.cons e

/-- What is read from an image is in the order of its entries. -/
theorem rangeProcessSstable_sublist {g : List MemtableEntry} (hlen : g.length < 2 ^ 16)
    {es : List MemtableEntry} (h : rangeProcessSstable (sstableImage g) streamId w = some es) :
    es.Sublist (g.filter (inRange streamId w)) := by
  rw [rangeProcessSstable, sstableEntries_image g hlen, Option.map_some] at h
  rw [← Option.some.inj h]
  exact (checked_sublist g).filter _

/-- **A round of the loop** selects entries of one group in their order, and keeps the cache. -/
theorem rangeFile_sublist (hlen : ∀ g ∈ gs, g.length < 2 ^ 16) (hd : d.HoldsGroups P gs)
    {cache cache' : Cache} (hvalid : cache.Valid) (hcached : cache.Holds (FromGroup P gs))
    {path : List Char} (hpath : (d.lookup path).isSome) {es : List MemtableEntry}
    (h : rangeFile d streamId w cache path = some (cache', es)) :
    (cache'.Valid ∧ cache'.Holds (FromGroup P gs)) ∧
      (es ≠ [] → ∃ g ∈ gs, timeFromPath (groupPath P g) = timeFromPath path ∧
        es.Sublist (g.filter (inRange streamId w))) := by
  rcases rangeFile_cases h with ⟨rfl, rfl⟩ | ⟨time, read, htime, hread, hes⟩
  · exact ⟨⟨hvalid, hcached⟩, fun hne => absurd rfl hne⟩
  · have hfile : ∀ data, sstableRead d path = some data →
        FromGroup P gs (streamId, time.toUInt64) data := by
      intro data hdata
      obtain ⟨g, hg, rfl, himage⟩ := hd path data (Option.eq_some_of_filter_eq_some hdata)
      exact ⟨g, hg, time, htime, rfl, himage⟩
    obtain ⟨hcached', hvalid', -, hdata⟩ := hcached.fromCacheOrSstable hvalid hfile hread
    refine ⟨⟨hvalid', hcached'⟩, fun hne => ?_⟩
    obtain rfl | ⟨data, rfl, hes⟩ := hes
    · exact absurd rfl hne
    · obtain ⟨g, hg, t, ht, heq, rfl⟩ := hdata data rfl
      obtain rfl : time = t := congrArg UInt64.toInt64 heq
      exact ⟨g, hg, ht.trans htime.symm, rangeProcessSstable_sublist (hlen g hg) hes⟩

/-- Files are gone through by ascending paths. -/
theorem pairwise_lt_sortedFiles (d : SstableDir) (path : List Char) :
    (getSortedFilelist (listFilesRecursive d path)).Pairwise (· < ·) := by
  have hnodup : (getSortedFilelist (listFilesRecursive d path)).Nodup :=
    (perm_getSortedFilelist _).nodup_iff.mpr (d.keys_nodup.filter _)
  exact (List.pairwise_and_iff.mpr ⟨pairwise_getSortedFilelist _, hnodup⟩).imp
    fun h => lt_of_le_of_ne h.1 h.2

/-- **The loop over the files** selects entries in the order of the groups, if these are
chronological. -/
theorem rangeFiles_sublist {n : ℕ} {es : List MemtableEntry}
    (hchron : Chronological P n es) (hlen : ∀ g ∈ (groups n es).1, g.length < 2 ^ 16)
    (hd : d.HoldsGroups P (groups n es).1) {cache cache' : Cache} (hvalid : cache.Valid)
    (hcached : cache.Holds (FromGroup P (groups n es).1)) {path : List Char}
    {selected : List MemtableEntry}
    (h : rangeFiles d cache streamId w (getSortedFilelist (listFilesRecursive d path)) =
      some (cache', selected)) :
    (cache'.Valid ∧ cache'.Holds (FromGroup P (groups n es).1)) ∧
      selected.Sublist ((groups n es).1.flatMap fun g => g.filter (inRange streamId w)) := by
  obtain ⟨⟨cache₁, outs⟩, hrun, heq⟩ := Option.map_eq_some_iff.mp h
  obtain ⟨rfl, rfl⟩ := Prod.mk.inj heq
  have hpath : ∀ file ∈ getSortedFilelist (listFilesRecursive d path),
      (d.lookup file).isSome := by
    intro file hfile
    have hmem := (perm_getSortedFilelist _).mem_iff.mp hfile
    rw [AList.lookup_isSome, AList.mem_keys]
    exact List.mem_of_mem_filter hmem
  obtain ⟨hcache', houts⟩ := exec_forall₂
    (P := fun c : Cache => c.Valid ∧ c.Holds (FromGroup P (groups n es).1))
    (R := fun file out => (d.lookup file).isSome ∧ (out ≠ [] → ∃ g ∈ (groups n es).1,
      timeFromPath (groupPath P g) = timeFromPath file ∧
        out.Sublist (g.filter (inRange streamId w))))
    (fun c file hfile c' out hc hstep =>
      have hround := rangeFile_sublist hlen hd hc.1 hc.2 (hpath file hfile) hstep
      ⟨hround.1, hpath file hfile, hround.2⟩)
    ⟨hvalid, hcached⟩ hrun
  refine ⟨hcache', @flatten_sublist _ _ _ _ _ (groupPath P) _ _ _ (houts.imp ?_)
    (pairwise_lt_sortedFiles d path) (hchron.paths.imp ?_)⟩
  · -- a file with the time of the group in its name is at the path of the group
    rintro file out ⟨hfile, hout⟩ hne
    obtain ⟨g, hg, htime, hsub⟩ := hout hne
    obtain ⟨data, hdata⟩ := Option.isSome_iff_exists.mp hfile
    obtain ⟨g', hg', rfl, -⟩ := hd file data hdata
    exact ⟨g, hg, hchron.names g hg g' hg' htime, hsub⟩
  · intro g g' hle hg hg'
    obtain ⟨a, ha⟩ := List.exists_mem_of_ne_nil _ hg
    obtain ⟨b, hb⟩ := List.exists_mem_of_ne_nil _ hg'
    obtain ⟨hag, hain⟩ := List.mem_filter.mp ha
    obtain ⟨hbg, hbin⟩ := List.mem_filter.mp hb
    rw [inRange, decide_eq_true_eq] at hain hbin
    exact decide_eq_true_eq.mp (hle ⟨a, hag, b, hbg, hain.1.trans hbin.1.symm⟩)

/-! ### The entries of a run -/

/-- The memtable, the memtables that wait, the files and the cache have the entries of the groups,
and the times of the streams do not go back. -/
structure RangingStore.Filed (P : Platform) (cfg : Config) (s : RangingStore)
    (es : List MemtableEntry) : Prop where
  times : StreamTimes P cfg s.store es
  hasMemtable : ∃ mt, s.store.HasMemtable cfg mt ∧ mt.entries = (groups cfg.entries.toNat es).2
  jobs : ∀ mt ∈ s.store.jobs, mt.entries ∈ (groups cfg.entries.toNat es).1
  files : s.store.disk.sstables.HoldsGroups P (groups cfg.entries.toNat es).1
  valid : s.cache.Valid
  cached : s.cache.Holds (FromGroup P (groups cfg.entries.toNat es).1)

variable {cfg : Config} {es : List MemtableEntry}

theorem RangingStore.init_filed (cfg : Config) (capacity : ℕ) (h : 0 < capacity) :
    (RangingStore.init cfg capacity h).Filed P cfg [] where
  times := streamTimes_init P cfg
  hasMemtable := ⟨_, Store.init_hasMemtable cfg, rfl⟩
  jobs := fun _ hmt => absurd hmt List.not_mem_nil
  files := fun path data hlookup => by
    rw [RangingStore.init, Store.init, Store.start, AList.lookup_empty] at hlookup
    cases hlookup
  valid := scacheCreate_valid capacity h
  cached := scacheCreate_holds capacity h _

theorem length_lt_of_mem_groups {g : List MemtableEntry}
    (hg : g ∈ (groups cfg.entries.toNat es).1) : g.length < 2 ^ 16 :=
  lt_of_eq_of_lt ((length_groups cfg.entries_pos es).1 g hg) cfg.entries.toNat_lt

/-- What a range selects from files, and what it leaves in the cache. -/
theorem RangingStore.Filed.range {s : RangingStore} (h : s.Filed P cfg es)
    (hchron : Chronological P cfg.entries.toNat es) {cache : Cache} {selected : List MemtableEntry}
    (hrange : rangeEntries P s.store.disk.sstables s.store.mmt s.cache streamId w =
      some (cache, selected)) :
    (⟨s.store, cache⟩ : RangingStore).Filed P cfg es ∧
      selected.Sublist (es.filter (inRange streamId w)) := by
  obtain ⟨mt, hmt, hentries⟩ := h.hasMemtable
  obtain ⟨⟨cache', files⟩, hfiles, heq⟩ := Option.map_eq_some_iff.mp hrange
  obtain ⟨rfl, rfl⟩ := Prod.mk.inj heq
  obtain ⟨⟨hvalid, hcached⟩, hsub⟩ := rangeFiles_sublist hchron
    (fun g hg => length_lt_of_mem_groups hg) h.files h.valid h.cached hfiles
  refine ⟨⟨h.times, h.hasMemtable, h.jobs, h.files, hvalid, hcached⟩, ?_⟩
  have hmemtable : rangeMemtables s.store.mmt streamId w =
      (groups cfg.entries.toNat es).2.filter (inRange streamId w) := by
    rw [hmt.1, rangeMemtables, List.flatMap_singleton, hentries]
  have hall : es.filter (inRange streamId w) =
      (groups cfg.entries.toNat es).1.flatMap (fun g => g.filter (inRange streamId w)) ++
        (groups cfg.entries.toNat es).2.filter (inRange streamId w) := by
    conv_lhs => rw [← flatten_groups cfg.entries.toNat es, List.filter_append, List.filter_flatten]
    rfl
  rw [hall, hmemtable]
  exact hsub.append_right _

/-- After a flush the files have the entries of groups, if the memtable is one of them. -/
theorem SstableDir.HoldsGroups.flush {disk disk' : Disk} {mt : Memtable}
    (h : disk.sstables.HoldsGroups P gs) (hmt : mt.entries ∈ gs) (hne : mt.entries ≠ [])
    (hflush : memtableFlush P disk mt = some disk') : disk'.sstables.HoldsGroups P gs := by
  intro path data hdata
  rcases lookup_of_memtableFlush hne hflush hdata with ⟨rfl, rfl⟩ | ⟨-, hdata⟩
  · exact ⟨mt.entries, hmt, (groupPath_entries P mt).symm, rfl⟩
  · exact h path data hdata

theorem SstableDir.HoldsGroups.mono {gs' : List (List MemtableEntry)} (h : d.HoldsGroups P gs)
    (hsub : gs ⊆ gs') : d.HoldsGroups P gs' := by
  intro path data hdata
  obtain ⟨g, hg, hfile⟩ := h path data hdata
  exact ⟨g, hsub hg, hfile⟩

/-- **Every step** keeps the entries in groups. -/
theorem RangingStore.Filed.step (hP : P.Monotone) {s s' : RangingStore} {ev : RangingEvent}
    {o : Output} (h : s.Filed P cfg es)
    (hchron : Chronological P cfg.entries.toNat (es ++ o.entry?.toList))
    (hstep : rangingStep P s ev = some (s', o)) : s'.Filed P cfg (es ++ o.entry?.toList) := by
  obtain ⟨mt, hmt, hentries⟩ := h.hasMemtable
  cases ev with
  | range streamId w =>
    obtain ⟨⟨cache, selected⟩, hrange, heq⟩ := Option.map_eq_some_iff.mp hstep
    obtain ⟨rfl, rfl⟩ := Prod.mk.inj heq
    exact (List.append_nil es).symm ▸ (h.range hchron.of_append hrange).1
  | server ev =>
    obtain ⟨⟨t, o'⟩, hserver, heq⟩ := Option.map_eq_some_iff.mp hstep
    obtain ⟨rfl, rfl⟩ := Prod.mk.inj heq
    have htimes := h.times.step hP hserver hchron.audio
    have hnone : ∀ {o : Output}, o.entry? = none → es ++ o.entry?.toList = es := by
      intro o ho
      rw [ho]
      exact List.append_nil es
    rcases step_cases hmt hserver with ⟨rfl, md, kv, -, rfl⟩ |
      ⟨data, frame, md, timestamp, mt', -, rfl, hstored⟩ |
      ⟨i, full, disk, -, rfl, hfull, hflush, rfl⟩
    · rw [hnone rfl] at htimes ⊢
      exact ⟨htimes, ⟨mt, hmt, hentries⟩, h.jobs, h.files, h.valid, h.cached⟩
    · have hsub := (groups_append cfg.entries.toNat es
        [frame.entry timestamp (s.store.wal.lsn + 1)]).subset
      refine ⟨htimes, ⟨mt', ⟨hstored.mmt, hstored.capacity.trans hmt.2⟩, ?_⟩,
        fun mt'' hmem => ?_, ?_, h.valid, fun key data hget => (h.cached key data hget).mono hsub⟩
      · rw [Output.entry?, Option.toList_some, groups_concat, ← hentries, ← hmt.2]
        rcases hstored.entries with ⟨hlt, hentries', -⟩ | ⟨hlen, hentries', -⟩
        · rw [if_neg (by omega), hentries']
        · rw [if_pos (by omega), hentries']
      · rcases hstored.entries with ⟨-, -, hjobs⟩ | ⟨hlen, -, hjobs⟩
        · rw [hjobs] at hmem
          exact hsub (h.jobs mt'' hmem)
        · rw [hjobs] at hmem
          rcases List.mem_append.mp hmem with hmem | hmem
          · exact hsub (h.jobs mt'' hmem)
          · rw [Output.entry?, Option.toList_some, groups_concat, ← hentries, ← hmt.2,
              if_pos (by omega), List.mem_singleton.mp hmem]
            exact List.mem_append_right _ (List.mem_singleton_self _)
      · rw [hstored.disk]
        exact h.files.mono hsub
    · have hmem := h.jobs full (List.mem_of_getElem? hfull)
      have hne : full.entries ≠ [] := by
        have hpos := cfg.entries_pos
        rw [← List.length_pos_iff, (length_groups cfg.entries_pos es).1 _ hmem]
        exact hpos
      rw [hnone rfl] at htimes ⊢
      exact ⟨htimes, ⟨mt, hmt, hentries⟩,
        fun mt' hmt' => h.jobs mt' (List.mem_of_mem_eraseIdx hmt'),
        h.files.flush hmem hne hflush, h.valid, h.cached⟩

theorem RangingStore.Filed.exec (hP : P.Monotone) {capacity : ℕ} {hcapacity : 0 < capacity}
    {t : RangingStore} {evs : List RangingEvent} {os : List Output}
    (hrun : exec (rangingStep P) (.init cfg capacity hcapacity) evs = some (t, os))
    (hchron : Chronological P cfg.entries.toNat (acceptedEntries os)) :
    t.Filed P cfg (acceptedEntries os) := by
  refine exec_induction (P := fun os s => Chronological P cfg.entries.toNat (acceptedEntries os) →
    s.Filed P cfg (acceptedEntries os)) ?_ (fun _ => init_filed cfg capacity hcapacity) hrun hchron
  intro os s ev s' o ih hstep hchron
  rw [acceptedEntries_concat] at hchron ⊢
  exact (ih hchron.of_append).step hP hchron hstep

theorem clockTime_groupTime {g : List MemtableEntry} (h : ∀ e ∈ g, ClockTime e.key.2.toInt64) :
    ClockTime (groupTime g) := by
  rcases g with - | ⟨e, g⟩
  · exact ⟨by decide, by decide⟩
  · exact h e List.mem_cons_self

/-- **Times of a clock that never go back**, over all streams, are chronological. -/
theorem chronological_of_ascending (hdir : ¬ ".racs/seg".toList <:+: P.dataDir) {n : ℕ}
    (haudio : ∀ streamId, streamBytes P streamId es < 2 ^ 64)
    (hclock : ∀ e ∈ es, ClockTime e.key.2.toInt64) (hascend : TimesAscend es) :
    Chronological P n es := by
  have hflatten := flatten_groups n es
  have hgroup : ∀ g ∈ (groups n es).1, ClockTime (groupTime g) := by
    intro g hg
    refine clockTime_groupTime fun e he => hclock e ?_
    rw [← hflatten]
    exact List.mem_append_left _ (List.mem_flatten_of_mem hg he)
  refine ⟨haudio, ?_, fun g hg g' hg' htime => ?_⟩
  · rw [TimesAscend, ← hflatten] at hascend
    have hpairs := (List.pairwise_flatten.mp (List.pairwise_append.mp hascend).1).2
    refine hpairs.imp_of_mem fun {g g'} hg hg' hle => ?_
    rintro ⟨a, ha, b, hb, -⟩
    rw [pathCmpLE, decide_eq_true_eq]
    have htime : groupTime g ≤ groupTime g' := by
      rcases g with - | ⟨a', g⟩
      · cases ha
      · rcases g' with - | ⟨b', g'⟩
        · cases hb
        · exact hle a' List.mem_cons_self b' List.mem_cons_self
    rcases Int64.lt_or_eq_of_le htime with hlt | heq
    · exact (timeToPath_lt P.dataDir (hgroup g hg) (hgroup g' hg') hlt).le
    · rw [groupPath, groupPath, heq]
  · rw [groupPath, groupPath, timeFromPath_timeToPath hdir (hgroup g hg),
      timeFromPath_timeToPath hdir (hgroup g' hg')] at htime
    rw [groupPath, groupPath, Option.some.inj htime]

theorem streamBytes_le (P : Platform) (streamId : UInt64) (es : List MemtableEntry) :
    streamBytes P streamId es ≤ (es.map fun e => e.audioSize P).sum :=
  (List.filter_sublist.map _).sum_le_sum fun _ _ => Nat.zero_le _

/-! ### A stream that is behind -/

/-- Two blocks of a stream, and one of another stream. -/
def threeBlocks : List RangingEvent :=
  (opened streamA ++ opened streamB ++
    [sent streamA 1 4, sent streamA 2 4, sent streamB 3 4, .flush 0]).map .server

/-- A mono stream of 16 bits at 1 kHz, so that a block of two bytes is a millisecond, is created at
the given time, and opened. -/
def openedAt (streamId : { id : List UInt8 // 0 ∉ id }) (now : Int64) : List Event :=
  [.create streamId 1000 1 16 now, .openStream (racsHash streamId)]

/-- The second stream begins half a second before the first, and has the first block of the second
memtable. Both memtables are flushed. -/
def lateStream : List Event :=
  openedAt streamA 1000 ++ openedAt streamB 500 ++
    [sent streamA 1 2, sent streamA 2 2, sent streamB 3 2, sent streamA 4 2, sent streamB 5 2,
      .flush 0, .flush 0]

/-- The first memtable. -/
def lateStreamFirst : Memtable where
  capacity := 2
  entries := [(Frame.constant (racsHash streamA) 1 2).entry 1000 1,
    (Frame.constant (racsHash streamA) 2 2).entry 1001 2]
  length_le := by decide

/-- The second memtable. -/
def lateStreamSecond : Memtable where
  capacity := 2
  entries := [(Frame.constant (racsHash streamB) 3 2).entry 500 3,
    (Frame.constant (racsHash streamA) 4 2).entry 1002 4]
  length_le := by decide

theorem lateStream_run :
    ((exec (step .rational) (Store.init (.small 2 (by decide))) lateStream).map
      fun r => decide (r.1.disk.sstables.entries =
          [⟨lateStreamSecond.path .rational false, sstableImage lateStreamSecond.entries⟩,
            ⟨lateStreamFirst.path .rational false, sstableImage lateStreamFirst.entries⟩] ∧
        rangeMemtables r.1.mmt (racsHash streamA) ⟨0, 5000⟩ = [])) = some true := by
  decide +kernel

theorem lateStream_ne :
    lateStreamSecond.path .rational false ≠ lateStreamFirst.path .rational false :=
  fun h => absurd (timeToPath_injective _ h) (by decide)

section LateStream

variable {d : SstableDir}
  (h : d.entries =
    [⟨lateStreamSecond.path .rational false, sstableImage lateStreamSecond.entries⟩,
      ⟨lateStreamFirst.path .rational false, sstableImage lateStreamFirst.entries⟩])

include h in
/-- The directory holds both SSTables. -/
theorem lateStream_stores : d.Stores .rational [lateStreamSecond, lateStreamFirst] := by
  refine ⟨?_, fun mt hmt => ?_⟩
  · rw [AList.keys, h]
    exact List.Perm.refl _
  · rw [AList.lookup, h]
    rcases List.mem_cons.mp hmt with rfl | hmt
    · exact List.dlookup_cons_eq _ _ _
    · rw [List.mem_singleton.mp hmt, List.dlookup_cons_ne _ _ lateStream_ne.symm]
      exact List.dlookup_cons_eq _ _ _

theorem lateStream_clock : ∀ mt ∈ [lateStreamSecond, lateStreamFirst], ClockTime mt.timestamp := by
  intro mt hmt
  rcases List.mem_cons.mp hmt with rfl | hmt
  · exact ⟨by decide, by decide⟩
  · rw [List.mem_singleton.mp hmt]
    exact ⟨by decide, by decide⟩

include h in
/-- The file of the second memtable comes first. -/
theorem lateStream_files :
    getSortedFilelist (listFilesRecursive d
        (timeRangeToPath Platform.rational.dataDir ⟨0, 5000⟩)) =
      [lateStreamSecond.path .rational false, lateStreamFirst.path .rational false] := by
  have hfilter : [lateStreamSecond.path .rational false,
      lateStreamFirst.path .rational false].filter
        ((timeRangeToPath Platform.rational.dataDir ⟨0, 5000⟩ ++ ['/']).isPrefixOf ·) =
        [lateStreamSecond.path .rational false, lateStreamFirst.path .rational false] := by
    decide +kernel
  refine getSortedFilelist_eq ?_ (List.pairwise_pair.mpr ?_)
  · rw [listFilesRecursive, AList.keys, h]
    exact List.Perm.of_eq hfilter
  · exact (timeToPath_lt _ (lateStream_clock _ (by simp)) (lateStream_clock _ (by simp))
      (by decide)).le

include h in
/-- What the range takes from both files. -/
theorem lateStream_fileEntries :
    ([lateStreamSecond.path .rational false, lateStreamFirst.path .rational false].flatMap
        (fileEntries d (racsHash streamA) ⟨0, 5000⟩)) =
      [(Frame.constant (racsHash streamA) 4 2).entry 1002 4,
        (Frame.constant (racsHash streamA) 1 2).entry 1000 1,
        (Frame.constant (racsHash streamA) 2 2).entry 1001 2] := by
  have hfile : ∀ mt ∈ [lateStreamSecond, lateStreamFirst],
      nameInWindow ⟨0, 5000⟩ (mt.path .rational false) ∧
        ∀ e ∈ mt.entries, crc32c 0 e.block = e.checksum := by
    decide +kernel
  have hsecond := hfile lateStreamSecond (by simp)
  have hfirst := hfile lateStreamFirst (by simp)
  have hstores := lateStream_stores h
  rw [List.flatMap_cons, List.flatMap_singleton,
    hstores.fileEntries_eq List.mem_cons_self, if_pos hsecond.1,
    hstores.fileEntries_eq (List.mem_cons_of_mem _ List.mem_cons_self), if_pos hfirst.1,
    sstableEntriesIn_of_checksum hsecond.2, sstableEntriesIn_of_checksum hfirst.2]
  decide +kernel

end LateStream

end Racs
