import Racs.Foundation.WindowedSources
import Racs.RangeComplete

/-!
# Adjacent windows

Both ends of a window belong to it. A client that reads on from the time where its last window ended
gets the blocks at this time again, and otherwise every block once, if no SSTable lies across this
time: an SSTable is read by the window that its own time is in, and gives it only the blocks in this
window, so that the others are in neither.

## Main definitions

* `Racs.WindowsPartition` — two windows return together what the window of both returns.
* `Racs.WindowsMeet` — they return the blocks at the time between them once more.

## Main results

* `Racs.windowsMeet_iff` — when they meet.
-/

namespace Racs

open WindowedSources

/-- The time of an entry. -/
def MemtableEntry.time (e : MemtableEntry) : Int64 := e.key.2.toInt64

/-- The entry has a block that can be passed to `racs_pcm_write`. -/
def MemtableEntry.HasBlock (P : Platform) (e : MemtableEntry) : Prop := (entryBlock P e).isSome

instance (P : Platform) : DecidablePred (MemtableEntry.HasBlock P) :=
  fun e => inferInstanceAs (Decidable ((entryBlock P e).isSome = true))

/-- Whatever of the SSTables is in the cache, the range returns the blocks of these entries. -/
def Returns (P : Platform) (capacity : ℕ) (d : SstableDir) (mmt : MultiMemtable)
    (streamId : UInt64) (w : Window) (es : List MemtableEntry) : Prop :=
  ∀ cache : Cache, cache.Valid → cache.kv.capacity = capacity → cache.Agrees d →
    ∃ cache' entries, rangeEntries P d mmt cache streamId w = some (cache', entries) ∧
      entries.filter (·.HasBlock P) = es

/-- Every block that is returned for the window is returned for one of the windows that it is cut
into, and for one only. -/
def WindowsPartition (P : Platform) (capacity : ℕ) (d : SstableDir) (mmt : MultiMemtable)
    (streamId : UInt64) (w : Window) (mid : Int64) : Prop :=
  ∃ whole left right, Returns P capacity d mmt streamId w whole ∧
    Returns P capacity d mmt streamId ⟨w.first, mid⟩ left ∧
    Returns P capacity d mmt streamId ⟨mid, w.last⟩ right ∧
    (left ++ right).Perm whole

/-- The windows that it is cut into return together what is returned for the window, and what is
returned for the time of the cut once more. -/
def WindowsMeet (P : Platform) (capacity : ℕ) (d : SstableDir) (mmt : MultiMemtable)
    (streamId : UInt64) (w : Window) (mid : Int64) : Prop :=
  ∃ whole cut left right, Returns P capacity d mmt streamId w whole ∧
    Returns P capacity d mmt streamId ⟨mid, mid⟩ cut ∧
    Returns P capacity d mmt streamId ⟨w.first, mid⟩ left ∧
    Returns P capacity d mmt streamId ⟨mid, w.last⟩ right ∧
    (left ++ right).Perm (whole ++ cut)

variable {P : Platform} {capacity : ℕ} {tables : List Memtable} {d : SstableDir}
  {mmt : MultiMemtable} {streamId : UInt64} {w : Window} {mid : Int64}

/-! ### The sources of a range -/

/-- An SSTable as a source of blocks of the stream. -/
def Memtable.fileSource (P : Platform) (streamId : UInt64) (mt : Memtable) :
    Source ℤ MemtableEntry where
  own := some mt.timestamp.toInt
  items := (mt.entries.map MemtableEntry.checked).reduceOption.filter fun e =>
    e.key.1 = streamId ∧ e.HasBlock P

/-- A memtable as a source of blocks of the stream. -/
def Memtable.memorySource (P : Platform) (streamId : UInt64) (mt : Memtable) :
    Source ℤ MemtableEntry where
  own := none
  items := mt.entries.filter fun e => e.key.1 = streamId ∧ e.HasBlock P

/-- The sources of a range over the stream. -/
def rangeSources (P : Platform) (streamId : UInt64) (tables : List Memtable)
    (mmt : MultiMemtable) : List (Source ℤ MemtableEntry) :=
  tables.map (Memtable.fileSource P streamId) ++ mmt.map (Memtable.memorySource P streamId)

/-- What is found in the sources for the window. -/
def windowQuery (w : Window) (sources : List (Source ℤ MemtableEntry)) : List MemtableEntry :=
  query (fun e => e.time.toInt) w.first.toInt w.last.toInt sources

theorem mem_window_iff {time : Int64} :
    time ∈ w ↔ w.first.toInt ≤ time.toInt ∧ time.toInt ≤ w.last.toInt := by
  rw [← Int64.le_iff_toInt_le, ← Int64.le_iff_toInt_le]
  rfl

theorem filter_hasBlock_inRange (es : List MemtableEntry) :
    (es.filter (inRange streamId w)).filter (·.HasBlock P) =
      (es.filter fun e => e.key.1 = streamId ∧ e.HasBlock P).filter fun e =>
        w.first.toInt ≤ e.time.toInt ∧ e.time.toInt ≤ w.last.toInt := by
  rw [List.filter_filter, List.filter_filter]
  refine List.filter_congr fun e _ => ?_
  simp only [inRange, ← mem_window_iff, MemtableEntry.time, ← Bool.decide_and]
  exact decide_eq_decide.mpr (by tauto)

theorem part_fileSource (mt : Memtable) :
    (mt.fileSource P streamId).part (fun e => e.time.toInt) w.first.toInt w.last.toInt =
      (if mt.timestamp ∈ w then mt.sstableEntriesIn streamId w else []).filter (·.HasBlock P) := by
  have hread : (mt.fileSource P streamId).Read w.first.toInt w.last.toInt ↔ mt.timestamp ∈ w := by
    rw [mem_window_iff]
    exact ⟨fun h => h _ rfl, fun h n hn => Option.some.inj hn ▸ h⟩
  rw [Source.part, Memtable.sstableEntriesIn]
  by_cases hmem : mt.timestamp ∈ w
  · rw [if_pos (hread.mpr hmem), if_pos hmem, filter_hasBlock_inRange]
    rfl
  · rw [if_neg fun h => hmem (hread.mp h), if_neg hmem]
    rfl

theorem part_memorySource (mt : Memtable) :
    (mt.memorySource P streamId).part (fun e => e.time.toInt) w.first.toInt w.last.toInt =
      (mt.entries.filter (inRange streamId w)).filter (·.HasBlock P) := by
  have hread : (mt.memorySource P streamId).Read w.first.toInt w.last.toInt :=
    fun n hn => nomatch hn
  rw [Source.part, if_pos hread, filter_hasBlock_inRange]
  rfl

/-! ### One window -/

/-- **A range returns what a query finds in its sources.** -/
theorem SstableDir.Stores.returns (h : d.Stores P tables)
    (htimes : ∀ mt ∈ tables, timeFromPath (mt.path P false) = some mt.timestamp)
    (hroom : capacity = 1 → ∀ mt ∈ tables, mt.timestamp ∉ w) (mmt : MultiMemtable)
    (streamId : UInt64) :
    ∃ es, Returns P capacity d mmt streamId w es ∧
      es.Perm (windowQuery w (rangeSources P streamId tables mmt)) := by
  let files := getSortedFilelist (listFilesRecursive d (timeRangeToPath P.dataDir w))
  let entries := files.flatMap (fileEntries d streamId w) ++ rangeMemtables mmt streamId w
  refine ⟨entries.filter (·.HasBlock P), ?_, ?_⟩
  · intro cache hvalid hcapacity hagrees
    have hone : cache.kv.capacity = 1 → ∀ mt ∈ tables, ¬ rangeReads P w (mt.path P false) := by
      intro hc mt hmt
      rw [rangeReads_iff_mem (htimes mt hmt)]
      exact hroom (hcapacity ▸ hc) mt hmt
    obtain ⟨cache', hentries⟩ := @SstableDir.Stores.rangeEntries_eq P tables d streamId w h
      (namesApart_of_timeFromPath htimes) cache hvalid hagrees hone mmt
    exact ⟨cache', entries, hentries, rfl⟩
  · rw [List.filter_append, windowQuery, query, rangeSources, List.flatMap_append,
      List.flatMap_map, List.flatMap_map]
    refine List.Perm.append ?_ (List.Perm.of_eq ?_)
    · refine ((h.perm_list.flatMap_right _).filter _).trans (List.Perm.of_eq ?_)
      rw [h.flatMap_fileEntries, List.filter_flatMap]
      refine List.flatMap_congr fun mt hmt => ?_
      simp only [part_fileSource, rangeReads_iff_mem (htimes mt hmt)]
    · rw [rangeMemtables, List.filter_flatMap]
      exact List.flatMap_congr fun mt _ => (part_memorySource mt).symm

/-- What a range returns does not depend on the cache, and is one list. -/
theorem Returns.unique (hcapacity : 0 < capacity) {es es' : List MemtableEntry}
    (h : Returns P capacity d mmt streamId w es) (h' : Returns P capacity d mmt streamId w es') :
    es = es' := by
  obtain ⟨_, entries, hentries, rfl⟩ := h (scacheCreate capacity hcapacity)
    (scacheCreate_valid capacity hcapacity) rfl (scacheCreate_holds capacity hcapacity _)
  obtain ⟨_, entries', hentries', rfl⟩ := h' (scacheCreate capacity hcapacity)
    (scacheCreate_valid capacity hcapacity) rfl (scacheCreate_holds capacity hcapacity _)
  rw [(Prod.mk.inj (Option.some.inj (hentries.symm.trans hentries'))).2]

/-- With a cache for one SSTable, a range returns something only if it reads no file. -/
theorem Returns.not_mem (h : d.Stores P tables) {mt : Memtable} (hmt : mt ∈ tables)
    (htime : timeFromPath (mt.path P false) = some mt.timestamp) {es : List MemtableEntry}
    (hreturns : Returns P 1 d mmt streamId w es) : mt.timestamp ∉ w := by
  intro hmem
  obtain ⟨cache, hvalid, hcapacity, hagrees, hnone⟩ :=
    @SstableDir.Stores.rangeBlocks_eq_none P tables d streamId w h mt hmt
      ((rangeReads_iff_mem htime).mpr hmem) mmt
  obtain ⟨cache', entries, hentries, -⟩ := hreturns cache hvalid hcapacity hagrees
  rw [rangeBlocks, hentries] at hnone
  cases hnone

/-! ### Two windows -/

/-- No SSTable in the window lies across the cut: its blocks of the stream in the window are on the
side of its own time. -/
def OnTheirSides (P : Platform) (tables : List Memtable) (streamId : UInt64) (w : Window)
    (mid : Int64) : Prop :=
  ∀ mt ∈ tables, mt.timestamp ∈ w → ∀ e ∈ mt.sstableEntriesIn streamId w, e.HasBlock P →
    (e.time < mid → mt.timestamp ≤ mid) ∧ (mid < e.time → mid ≤ mt.timestamp)

theorem mem_sstableEntriesIn {mt : Memtable} {e : MemtableEntry} :
    e ∈ mt.sstableEntriesIn streamId w ∧ e.HasBlock P ↔
      e ∈ (mt.fileSource P streamId).items ∧ e.time ∈ w := by
  rw [Memtable.sstableEntriesIn, Memtable.fileSource, List.mem_filter, List.mem_filter, inRange,
    decide_eq_true_eq, decide_eq_true_eq, MemtableEntry.time]
  tauto

theorem onItsSide_fileSource {mt : Memtable} :
    OnItsSide (fun e : MemtableEntry => e.time.toInt) w.first.toInt mid.toInt w.last.toInt
        (mt.fileSource P streamId) ↔
      (mt.timestamp ∈ w → ∀ e ∈ mt.sstableEntriesIn streamId w, e.HasBlock P →
        (e.time < mid → mt.timestamp ≤ mid) ∧ (mid < e.time → mid ≤ mt.timestamp)) := by
  simp only [Int64.lt_iff_toInt_lt, Int64.le_iff_toInt_le]
  constructor
  · intro hside hmem e he hblock
    obtain ⟨hitem, htime⟩ := mem_sstableEntriesIn.mp ⟨he, hblock⟩
    have hread : (mt.fileSource P streamId).Read w.first.toInt w.last.toInt :=
      fun n hn => Option.some.inj hn ▸ mem_window_iff.mp hmem
    obtain ⟨hbefore, hafter⟩ :=
      hside hread e hitem (mem_window_iff.mp htime).1 (mem_window_iff.mp htime).2
    exact ⟨fun hlt => hbefore hlt _ rfl, fun hlt => hafter hlt _ rfl⟩
  · intro hside hread e hitem hfirst hlast
    obtain ⟨he, hblock⟩ := mem_sstableEntriesIn.mpr ⟨hitem, mem_window_iff.mpr ⟨hfirst, hlast⟩⟩
    obtain ⟨hbefore, hafter⟩ := hside (mem_window_iff.mpr (hread _ rfl)) e he hblock
    exact ⟨fun hlt n hn => Option.some.inj hn ▸ hbefore hlt,
      fun hlt n hn => Option.some.inj hn ▸ hafter hlt⟩

/-- Memtables, which are read for every window, lie across no cut. -/
theorem onTheirSides_iff :
    OnTheirSides P tables streamId w mid ↔ ∀ s ∈ rangeSources P streamId tables mmt,
      OnItsSide (fun e : MemtableEntry => e.time.toInt) w.first.toInt mid.toInt w.last.toInt s := by
  rw [rangeSources, List.forall_mem_append, List.forall_mem_map, List.forall_mem_map]
  simp only [onItsSide_fileSource]
  refine (and_iff_left fun mt _ _ _ _ _ _ => ?_).symm
  exact ⟨fun _ n hn => (nomatch hn), fun _ n hn => (nomatch hn)⟩

/-- **Adjacent windows meet** if no SSTable lies across the time between them, and the cache is for
two or more SSTables, unless no SSTable is read. -/
theorem windowsMeet_iff (h : d.Stores P tables)
    (htimes : ∀ mt ∈ tables, timeFromPath (mt.path P false) = some mt.timestamp)
    (hcapacity : 0 < capacity) (hfirst : w.first ≤ mid) (hlast : mid ≤ w.last)
    (mmt : MultiMemtable) :
    WindowsMeet P capacity d mmt streamId w mid ↔ OnTheirSides P tables streamId w mid ∧
      (capacity = 1 → ∀ mt ∈ tables, mt.timestamp ∉ w) := by
  have hroom : WindowsMeet P capacity d mmt streamId w mid →
      capacity = 1 → ∀ mt ∈ tables, mt.timestamp ∉ w := by
    rintro ⟨whole, -, -, -, hwhole, -⟩ rfl mt hmt
    exact hwhole.not_mem h hmt (htimes mt hmt)
  rw [← and_iff_right_of_imp hroom, and_comm]
  refine and_congr_left fun hone => ?_
  have hsub : ∀ w' : Window, w.first ≤ w'.first → w'.last ≤ w.last →
      capacity = 1 → ∀ mt ∈ tables, mt.timestamp ∉ w' := by
    intro w' hle hge hc mt hmt hmem
    exact hone hc mt hmt ⟨Int64.le_trans hle hmem.1, Int64.le_trans hmem.2 hge⟩
  obtain ⟨whole, hwhole, hpwhole⟩ := h.returns htimes hone mmt streamId
  obtain ⟨cut, hcut, hpcut⟩ := h.returns htimes (hsub ⟨mid, mid⟩ hfirst hlast) mmt streamId
  obtain ⟨left, hleft, hpleft⟩ :=
    h.returns htimes (hsub ⟨w.first, mid⟩ (Int64.le_refl _) hlast) mmt streamId
  obtain ⟨right, hright, hpright⟩ :=
    h.returns htimes (hsub ⟨mid, w.last⟩ hfirst (Int64.le_refl _)) mmt streamId
  have hmeet : WindowsMeet P capacity d mmt streamId w mid ↔
      (left ++ right).Perm (whole ++ cut) := by
    constructor
    · rintro ⟨whole', cut', left', right', hwhole', hcut', hleft', hright', hperm⟩
      rwa [hwhole'.unique hcapacity hwhole, hcut'.unique hcapacity hcut,
        hleft'.unique hcapacity hleft, hright'.unique hcapacity hright] at hperm
    · exact fun hperm => ⟨whole, cut, left, right, hwhole, hcut, hleft, hright, hperm⟩
  rw [hmeet, (hpleft.append hpright).congr_left, (hpwhole.append hpcut).congr_right,
    @onTheirSides_iff P tables mmt streamId w mid]
  exact perm_query_iff (Int64.le_iff_toInt_le.mp hfirst) (Int64.le_iff_toInt_le.mp hlast) _

/-! ### Two seconds of a stream -/

theorem timeFromPath_twoSeconds : ∀ mt ∈ [twoSeconds],
    timeFromPath (mt.path Platform.rational false) = some mt.timestamp :=
  fun mt hmt => timeFromPath_timeToPath not_infix_dataDir (clockTime_twoSeconds mt hmt)

theorem sstableEntriesIn_twoSeconds (w : Window) :
    twoSeconds.sstableEntriesIn 7 w = twoSeconds.entries.filter (inRange 7 w) := by
  refine sstableEntriesIn_of_checksum ?_
  simp only [twoSeconds, List.forall_mem_cons, List.not_mem_nil, false_implies, implies_true,
    and_true]

/-- Cut at the time of their SSTable, the two seconds are in windows that meet. Between the blocks
the SSTable lies across the cut. -/
theorem windowsMeet_twoSeconds :
    WindowsMeet Platform.rational 2 twoSecondsDir [] 7 ⟨1000, 2500⟩ 1000 ∧
      ¬ WindowsMeet Platform.rational 2 twoSecondsDir [] 7 ⟨1000, 2500⟩ 1500 := by
  have hiff := fun mid hfirst hlast => @windowsMeet_iff Platform.rational 2 [twoSeconds]
    twoSecondsDir 7 ⟨1000, 2500⟩ mid twoSecondsDir_stores timeFromPath_twoSeconds (by decide)
    hfirst hlast []
  constructor
  · refine (hiff 1000 (by decide) (by decide)).mpr ⟨?_, fun htwo => absurd htwo (by decide)⟩
    intro mt hmt _ e _ _
    rw [List.mem_singleton.mp hmt]
    exact ⟨fun _ => by decide, fun _ => by decide⟩
  · rw [hiff 1500 (by decide) (by decide)]
    rintro ⟨hsides, -⟩
    have hsecond := hsides twoSeconds (List.mem_singleton_self _) (by decide)
    rw [sstableEntriesIn_twoSeconds] at hsecond
    have hmem : twoSeconds.entries[1] ∈ twoSeconds.entries.filter (inRange 7 ⟨1000, 2500⟩) :=
      List.mem_filter.mpr ⟨List.getElem_mem _, by decide⟩
    exact absurd ((hsecond _ hmem rfl).2 (by decide)) (by decide)

/-- As long as they are in a memtable, the first of them is returned for both windows of a cut at
its time. -/
theorem not_windowsPartition_twoSeconds :
    ¬ WindowsPartition Platform.rational 2 ∅ [twoSeconds] 7 ⟨500, 2500⟩ 1000 := by
  rintro ⟨whole, left, right, hwhole, hleft, hright, hperm⟩
  have hstores : SstableDir.Stores Platform.rational [] ∅ :=
    ⟨List.Perm.nil, fun mt hmt => absurd hmt List.not_mem_nil⟩
  have hlength : ∀ (w : Window) (es : List MemtableEntry),
      Returns Platform.rational 2 ∅ [twoSeconds] 7 w es →
      es.length = (windowQuery w (rangeSources Platform.rational 7 [] [twoSeconds])).length := by
    intro w es hes
    obtain ⟨es', hes', hperm'⟩ := @SstableDir.Stores.returns Platform.rational 2 [] ∅ w hstores
      (fun mt hmt => absurd hmt List.not_mem_nil) (fun htwo => absurd htwo (by decide))
      [twoSeconds] 7
    rw [hes.unique (by decide) hes', hperm'.length_eq]
  have hsum := hperm.length_eq
  rw [List.length_append, hlength _ _ hwhole, hlength _ _ hleft, hlength _ _ hright] at hsum
  revert hsum
  decide

end Racs
