import Racs.BackgroundFlush
import Racs.WalReplay
import Mathlib.Data.List.Flatten
import Mathlib.Data.List.ReduceOption

/-!
# Recovery

Runs in which every flush is complete before the next request, a crash, and a restart that replays
the log. The record of an append carries the number of the counter before the append, and its
memtable entry the number after it; a flush writes the number of the last entry to the manifest, and
the replay skips records up to and including that number. The record behind the last flushed one is
therefore skipped, though its block is in no SSTable: every recovery loses one block, as soon as
something was accepted.

## Main definitions

* `Racs.Store.recoveredEntries` — what the SSTables and the memtables hold.
* `Racs.Recovers`, `Racs.RecoversThroughout` — a restart finds every accepted block once.
* `Racs.Store.Logged` — the log, the checkpoint and the memtable after a number of accepted appends.

## Main results

* `Racs.Store.Logged.exec` — runs keep the log, the checkpoint and the memtable in step.
* `Racs.recovers_iff` — when recovery is complete.
-/

namespace Racs

open PartialRun

/-- The stream and the block of an entry. -/
def MemtableEntry.audio (e : MemtableEntry) : UInt64 × List UInt8 := (e.key.1, e.block)

/-- The entries that are read from the SSTables. -/
def SstableDir.storedEntries (dir : SstableDir) : List MemtableEntry :=
  dir.entries.flatMap fun file => ((sstableEntries file.2).getD []).reduceOption

/-- The entries in SSTables and in memtables. -/
def Store.recoveredEntries (s : Store) : List MemtableEntry :=
  s.disk.sstables.storedEntries ++ s.pending

/-- A restart on the disk of the store and a replay of its log leave every accepted block in exactly
one place: an SSTable, or the memtable entries that the replay inserts. The function `rebuild` says
what offsets the restart computes from the disk. -/
def Recovers (P : Platform) (cfg : Config) (rebuild : Disk → Offsets) (s : Store)
    (os : List Output) : Prop :=
  ∃ t, walReplay P (drain P) (Store.start cfg s.disk (rebuild s.disk)) = some t ∧
    (t.recoveredEntries.map MemtableEntry.audio).Perm
      ((acceptedEntries os).map MemtableEntry.audio)

/-- A restart after any part of the run finds every block that was accepted until then. -/
def RecoversThroughout (P : Platform) (cfg : Config) (rebuild : Disk → Offsets)
    (evs : List Event) : Prop :=
  ∀ before after m os, evs = before ++ after →
    exec (syncStep P) (Store.init cfg) before = some (m, os) → Recovers P cfg rebuild m os

variable {P : Platform} {cfg : Config} {rebuild : Disk → Offsets}

/-! ### Counting entries in SSTables -/

theorem SstableDir.storedEntries_erase_le (dir : SstableDir) (path : List Char) :
    (storedEntries (dir.erase path)).length ≤ (storedEntries dir).length :=
  ((List.kerase_sublist path dir.entries).flatMap _).length_le

theorem SstableDir.storedEntries_insert_le (dir : SstableDir) (path : List Char)
    {es : List MemtableEntry} (hread : sstableEntries (sstableImage es) = some (es.map some)) :
    (storedEntries (dir.insert path (sstableImage es))).length ≤
      (storedEntries dir).length + es.length := by
  have hcons : storedEntries (dir.insert path (sstableImage es)) =
      es ++ storedEntries (dir.erase path) := by
    have hentries : (dir.insert path (sstableImage es)).entries =
        ⟨path, sstableImage es⟩ :: (dir.erase path).entries := rfl
    rw [storedEntries, hentries, List.flatMap_cons, hread, Option.getD_some, reduceOption_map_some]
    rfl
  have herase := storedEntries_erase_le dir path
  rw [hcons, List.length_append]
  omega

/-! ### Counting records behind the checkpoint -/

theorem countP_behind (checkpointLsn : UInt64) (reads : List WalRead) :
    reads.countP (behind checkpointLsn) =
      ((reads.filterMap Prod.fst).map WalEntry.lsn).countP (checkpointLsn < ·) := by
  induction reads with
  | nil => rfl
  | cons read reads ih =>
    rcases read with ⟨- | entry, offset⟩
    · rw [List.countP_cons_of_neg Bool.false_ne_true, ih]
      rfl
    · rw [List.countP_cons, ih]
      simp [List.countP_cons, behind]

/-- Of the numbers below `n`, those behind `m`. -/
theorem countP_lt_range {m n : ℕ} (hmn : m < n) (hn : n ≤ 2 ^ 64) :
    ((List.range n).map UInt64.ofNat).countP (UInt64.ofNat m < ·) ≤ n - m - 1 := by
  obtain ⟨k, rfl⟩ : ∃ k, n = m + 1 + k := ⟨n - (m + 1), by omega⟩
  have hsize : UInt64.size = 2 ^ 64 := rfl
  have hnone : ((List.range (m + 1)).map UInt64.ofNat).countP (UInt64.ofNat m < ·) = 0 := by
    rw [List.countP_eq_zero]
    intro l hl
    obtain ⟨i, hi, rfl⟩ := List.mem_map.mp hl
    have hi := List.mem_range.mp hi
    rw [decide_eq_true_eq, UInt64.lt_iff_toNat_lt, UInt64.toNat_ofNat_of_lt' (by omega),
      UInt64.toNat_ofNat_of_lt' (by omega)]
    omega
  have hrest := @List.countP_le_length _ (UInt64.ofNat m < ·)
    (((List.range k).map (m + 1 + ·)).map UInt64.ofNat)
  rw [List.length_map, List.length_map, List.length_range] at hrest
  rw [List.range_add, List.map_append, List.countP_append, hnone]
  omega

/-! ### The log, the checkpoint and the memtable -/

/-- After `n` accepted appends the records carry numbers below `n`, the last entry of the memtable
carries `n`, and the checkpoint is `n` less the entries of the memtable. -/
structure Store.Logged (cfg : Config) (n : ℕ) (mt : Memtable) (s : Store) : Prop where
  hasMemtable : s.HasMemtable cfg mt
  checked : mt.Checked
  jobs : s.jobs = []
  length_le : mt.entries.length ≤ n
  newest : n = 0 ∨ mt.entries ≠ [] ∧ mt.maxLsn = UInt64.ofNat n
  counter : s.wal.lsn = UInt64.ofNat n
  checkpoint : walCheckpointLsn s.disk.wal = UInt64.ofNat (n - mt.entries.length)
  log : ∃ init last, WalLayout s.disk.wal s.wal init last ∧
    (((init ++ [last]).flatMap RecordGroup.records).map WalEntry.lsn).Sublist
      ((List.range n).map UInt64.ofNat)
  stored : s.disk.sstables.storedEntries.length ≤ n - mt.entries.length

theorem Store.init_logged (cfg : Config) :
    (Store.init cfg).Logged cfg 0 (memtableCreate cfg.entries) where
  hasMemtable := Store.init_hasMemtable cfg
  checked := fun _ h => absurd h List.not_mem_nil
  jobs := rfl
  length_le := le_refl 0
  newest := .inl rfl
  counter := (walLayout_create_empty none).2
  checkpoint := rfl
  log := ⟨[], ⟨0, []⟩, (walLayout_create_empty none).1, List.Sublist.refl _⟩
  stored := le_refl 0

/-- The records after an append. -/
theorem Store.Logged.log_append {s : Store} {n : ℕ} {mt : Memtable} (h : s.Logged cfg n mt)
    (o : WalOp) : ∃ init last,
      WalLayout (walAppend s.disk.wal s.wal o).1 (walAppend s.disk.wal s.wal o).2 init last ∧
      (((init ++ [last]).flatMap RecordGroup.records).map WalEntry.lsn).Sublist
        ((List.range (n + 1)).map UInt64.ofNat) := by
  obtain ⟨init, last, hlayout, hsub⟩ := h.log
  obtain ⟨init', last', hlayout', hrecords, -, -⟩ := hlayout.append o
  refine ⟨init', last', hlayout', ?_⟩
  rw [hrecords, List.map_append, List.map_singleton, WalOp.entry_lsn, h.counter, List.range_succ,
    List.map_append, List.map_singleton]
  exact hsub.append_right _

/-- An accepted append to a memtable with room. -/
theorem Store.Logged.push {s s' : Store} {n : ℕ} {mt mt' : Memtable} {data : List UInt8}
    {frame : Frame} {md : Metadata} {timestamp : Int64} (h : s.Logged cfg n mt)
    (hstored : Stored P s s' data frame md timestamp mt mt')
    (hentries : mt'.entries = mt.entries ++ [frame.entry timestamp (s.wal.lsn + 1)])
    (hjobs : s'.jobs = s.jobs) : s'.Logged cfg (n + 1) mt' := by
  have hlen : mt'.entries.length = mt.entries.length + 1 := by
    rw [hentries, List.length_append, List.length_singleton]
  have hle := h.length_le
  have hsub : n + 1 - mt'.entries.length = n - mt.entries.length := by omega
  refine ⟨⟨hstored.mmt, hstored.capacity.trans h.hasMemtable.2⟩, hstored.checked h.checked,
    hjobs.trans h.jobs, by omega, .inr ⟨?_, ?_⟩, ?_, ?_, ?_, ?_⟩
  · rw [hentries]
    exact List.append_ne_nil_of_right_ne_nil _ (List.cons_ne_nil _ _)
  · rw [Memtable.maxLsn, hentries, List.getLast?_concat, h.counter, UInt64.ofNat_add]
    rfl
  · rw [hstored.wal, walAppend_lsn, h.counter, UInt64.ofNat_add]
    rfl
  · rw [hsub, hstored.disk, ← h.checkpoint]
    exact walCheckpointLsn_congr (walAppend_manifest _ _ _)
  · rw [hstored.disk, hstored.wal]
    exact h.log_append _
  · rw [hsub, hstored.disk]
    exact h.stored

/-- An accepted append to a full memtable, with the flush of that memtable. -/
theorem Store.Logged.flush {s s' : Store} {n : ℕ} {mt mt' : Memtable} {data : List UInt8}
    {frame : Frame} {md : Metadata} {timestamp : Int64} {disk : Disk} (h : s.Logged cfg n mt)
    (hstored : Stored P s s' data frame md timestamp mt mt')
    (hfull : mt.entries.length = mt.capacity.toNat)
    (hentries : mt'.entries = [frame.entry timestamp (s.wal.lsn + 1)])
    (hflush : memtableFlush P s'.disk mt = some disk) :
    { s' with disk := disk, jobs := [] }.Logged cfg (n + 1) mt' := by
  have hle := h.length_le
  have hlen : mt'.entries.length = 1 := by
    rw [hentries, List.length_singleton]
  have hpos : 0 < mt.entries.length := by
    rw [hfull, h.hasMemtable.2]
    exact cfg.entries_pos
  obtain ⟨hne, hmax⟩ := h.newest.resolve_left (by omega)
  obtain rfl := eq_of_memtableFlush hne hflush
  refine ⟨⟨hstored.mmt, hstored.capacity.trans h.hasMemtable.2⟩, hstored.checked h.checked, rfl,
    by omega, .inr ⟨?_, ?_⟩, ?_, ?_, ?_, ?_⟩
  · rw [hentries]
    exact List.cons_ne_nil _ _
  · rw [Memtable.maxLsn, hentries, List.getLast?_singleton, h.counter, UInt64.ofNat_add]
    rfl
  · rw [hstored.wal, walAppend_lsn, h.counter, UInt64.ofNat_add]
    rfl
  · rw [hlen, Nat.add_sub_cancel, ← hmax]
    exact walCheckpointLsn_of_manifest rfl
  · obtain ⟨init, last, hlayout, hsub⟩ := h.log_append (appendOp frame data)
    have hlayout' : WalLayout { s'.disk.wal with manifest := some (writeUint64 mt.maxLsn) } s'.wal
        init last := by
      refine hlayout.congr ?_ ?_
      · rw [hstored.disk]
      · rw [hstored.wal]
    refine ⟨_, _, hlayout'.truncate, List.Sublist.trans ?_ hsub⟩
    exact ((List.filter_sublist.append_right _).flatMap _).map _
  · have hread : sstableEntries (sstableImage mt.entries) = some (mt.entries.map some) :=
      h.checked.sstableEntries
    have hinsert := SstableDir.storedEntries_insert_le
      (s'.disk.sstables.erase (mt.path P true)) (mt.path P false) hread
    have herase := SstableDir.storedEntries_erase_le s'.disk.sstables (mt.path P true)
    have hstore := h.stored
    have hdisk : s'.disk.sstables = s.disk.sstables := by rw [hstored.disk]
    dsimp only
    rw [hdisk] at hinsert herase ⊢
    omega

/-- A step with the flush it causes keeps the log, the checkpoint and the memtable in step. -/
theorem Store.Logged.step {s s' : Store} {n : ℕ} {mt : Memtable} {ev : Event} {o : Output}
    (h : s.Logged cfg n mt) (hstep : syncStep P s ev = some (s', o)) :
    ∃ mt', s'.Logged cfg (n + (acceptedEntries [o]).length) mt' := by
  obtain ⟨m, hm, hdrain⟩ := syncStep_eq_some.mp hstep
  rcases step_cases h.hasMemtable hm with ⟨rfl, md, kv, -, rfl⟩ |
    ⟨data, frame, md, timestamp, mt', -, rfl, hstored⟩ | ⟨i, full, disk, -, -, hfull, -, -⟩
  · obtain rfl := Option.some.inj (hdrain.symm.trans (drain_of_jobs_nil h.jobs))
    exact ⟨mt, h.hasMemtable, h.checked, h.jobs, h.length_le, h.newest, h.counter, h.checkpoint,
      h.log, h.stored⟩
  · rcases hstored.entries with ⟨-, hentries, hjobs⟩ | ⟨hfull, hentries, hjobs⟩
    · obtain rfl := Option.some.inj (hdrain.symm.trans (drain_of_jobs_nil (hjobs.trans h.jobs)))
      exact ⟨mt', h.push hstored hentries hjobs⟩
    · have hjobs' : m.jobs = [mt] := by rw [hjobs, h.jobs, List.nil_append]
      rw [drain, hjobs', List.foldlM_cons] at hdrain
      obtain ⟨disk, hfold, rfl⟩ := Option.map_eq_some_iff.mp hdrain
      obtain ⟨disk', hflush, heq⟩ := Option.bind_eq_some_iff.mp hfold
      obtain rfl : disk' = disk := Option.some.inj heq
      exact ⟨mt', h.flush hstored hfull hentries hflush⟩
  · rw [h.jobs, List.getElem?_nil] at hfull
    cases hfull

/-- **Runs keep the log, the checkpoint and the memtable in step.** -/
theorem Store.Logged.exec {s : Store} {evs : List Event} {os : List Output}
    (hrun : exec (syncStep P) (Store.init cfg) evs = some (s, os)) :
    ∃ mt, s.Logged cfg (acceptedEntries os).length mt := by
  refine exec_induction (P := fun os s => ∃ mt, s.Logged cfg (acceptedEntries os).length mt) ?_
    ⟨_, Store.init_logged cfg⟩ hrun
  rintro os s ev s' o ⟨mt, h⟩ hstep
  rw [acceptedEntries_append, List.length_append]
  exact h.step hstep

/-! ### The restart -/

/-- The entries of the groups that a replay puts into the memtable are fewer than it held before
the crash. -/
theorem Store.Logged.countP_behind_le {s : Store} {n : ℕ} {mt : Memtable} (h : s.Logged cfg n mt)
    (hn : n ≤ 2 ^ 64) {rs : List WalEntry}
    (hsub : (rs.map WalEntry.lsn).Sublist ((List.range n).map UInt64.ofNat)) :
    (rs.map WalEntry.lsn).countP (walCheckpointLsn s.disk.wal < ·) ≤ mt.entries.length - 1 := by
  rcases h.newest with rfl | ⟨hne, -⟩
  · obtain hnil : rs.map WalEntry.lsn = [] := List.sublist_nil.mp hsub
    rw [hnil]
    exact Nat.zero_le _
  · have hpos : 0 < mt.entries.length := List.length_pos_iff.mpr hne
    have hle := h.length_le
    have hcount := hsub.countP_le (p := (walCheckpointLsn s.disk.wal < ·))
    have hrange := @countP_lt_range (n - mt.entries.length) n (by omega) hn
    rw [← h.checkpoint] at hrange
    omega

/-- **A replay after a restart** inserts fewer entries than the memtable held before the crash. -/
theorem Store.Logged.walReplay_start {s : Store} {n : ℕ} {mt : Memtable} (h : s.Logged cfg n mt)
    (hn : n ≤ 2 ^ 64) (P : Platform) (offsets : Offsets) :
    ∃ reads, (n = 0 → reads = []) ∧
      reads.countP (behind (walCheckpointLsn s.disk.wal)) ≤ mt.entries.length - 1 ∧
      Option.Rel (fun t es => t.Refilled cfg (Store.start cfg s.disk offsets).disk
          (Store.start cfg s.disk offsets).wal es)
        (walReplay P (drain P) (Store.start cfg s.disk offsets))
        (replayedEntries P s.disk.metadata (walCheckpointLsn s.disk.wal)
          (Store.start cfg s.disk offsets).wal.lsn reads) := by
  obtain ⟨init, last, hlayout, hsub⟩ := h.log
  obtain ⟨init', last', hlayout', hrecords, -, -⟩ := hlayout.create
  rw [← hrecords] at hsub
  have hcheckpoint : walCheckpointLsn (Store.start cfg s.disk offsets).disk.wal =
      walCheckpointLsn s.disk.wal := walCheckpointLsn_congr (walCreate_manifest _)
  have hcount : ((init' ++ [last']).flatMap fun g => readsOf 0 g.records).countP
      (behind (walCheckpointLsn s.disk.wal)) ≤ mt.entries.length - 1 := by
    rw [countP_behind, List.filterMap_flatMap]
    simp only [filterMap_readsOf]
    exact h.countP_behind_le hn hsub
  have hroom : mt.entries.length ≤ cfg.entries.toNat := h.hasMemtable.2 ▸ mt.length_le
  refine ⟨_, ?_, hcount, ?_⟩
  · rintro rfl
    have hnil : (init' ++ [last']).flatMap RecordGroup.records = [] := by
      simpa using hsub
    rw [List.flatMap_eq_nil_iff] at hnil ⊢
    intro g hg
    rw [hnil g hg]
    rfl
  · rw [← hcheckpoint] at hcount ⊢
    exact walReplay_rel (fun _ hjobs => drain_of_jobs_nil (hjobs trivial))
      (Store.start_refilled cfg s.disk offsets) hlayout'.nodup_segno hlayout'.walReads_eq
      fun _ => by rw [List.length_nil]; omega

/-- What is found after the replay. -/
theorem Store.Refilled.recoveredEntries {d : Disk} {w : Wal} {es : List MemtableEntry} {t : Store}
    (h : t.Refilled cfg d w es) : t.recoveredEntries = d.sstables.storedEntries ++ es := by
  rw [Store.recoveredEntries, h.disk, h.pending]

/-- **A recovery loses a block** of every run that accepted one. -/
theorem Store.Logged.not_recovers {s : Store} {os : List Output} {mt : Memtable}
    (h : s.Logged cfg (acceptedEntries os).length mt) (hos : acceptedEntries os ≠ [])
    (hlen : (acceptedEntries os).length ≤ 2 ^ 64) : ¬ Recovers P cfg rebuild s os := by
  rintro ⟨t, hreplay, hperm⟩
  obtain ⟨reads, -, hcount, hrel⟩ := h.walReplay_start hlen P (rebuild s.disk)
  rw [hreplay] at hrel
  obtain ⟨es, hes, ht⟩ := exists_of_rel_some_left hrel
  have hfew := length_replayedEntries hes
  have hpos : 0 < mt.entries.length := by
    refine List.length_pos_iff.mpr (h.newest.resolve_left fun hnil => hos ?_).1
    exact List.length_eq_zero_iff.mp hnil
  have hle := h.length_le
  have hstored := h.stored
  have hperm := hperm.length_eq
  rw [List.length_map, List.length_map, ht.recoveredEntries, List.length_append] at hperm
  have hdisk : (Store.start cfg s.disk (rebuild s.disk)).disk.sstables = s.disk.sstables := rfl
  rw [hdisk] at hperm
  omega

/-- A run that accepted nothing leaves nothing to recover. -/
theorem Store.Logged.recovers_of_nil {s : Store} {os : List Output} {mt : Memtable}
    (h : s.Logged cfg (acceptedEntries os).length mt) (hos : acceptedEntries os = []) :
    Recovers P cfg rebuild s os := by
  rw [hos, List.length_nil] at h
  obtain ⟨reads, hnil, -, hrel⟩ := h.walReplay_start (by omega) P (rebuild s.disk)
  obtain rfl := hnil rfl
  obtain ⟨t, hreplay, ht⟩ := exists_of_rel_some_right hrel
  have hstored : s.disk.sstables.storedEntries = [] :=
    List.length_eq_zero_iff.mp (Nat.le_zero.mp (h.stored.trans (Nat.zero_sub _).le))
  refine ⟨t, hreplay, ?_⟩
  have hdisk : (Store.start cfg s.disk (rebuild s.disk)).disk.sstables = s.disk.sstables := rfl
  rw [ht.recoveredEntries, hdisk, hstored, hos]
  exact List.Perm.refl _

/-- **When recovery is complete.** A crash and a restart after any part of a run find every block
that was accepted, in an SSTable or by the replay and not in both, exactly if the run accepts no
append; and the same holds of a crash at the end alone, before the counter passes its largest
value. -/
theorem recovers_iff (rebuild : Disk → Offsets) {s : Store} {evs : List Event} {os : List Output}
    (hrun : exec (syncStep P) (Store.init cfg) evs = some (s, os)) :
    (RecoversThroughout P cfg rebuild evs ↔ acceptedEntries os = []) ∧
      ((acceptedEntries os).length ≤ 2 ^ 64 →
        (Recovers P cfg rebuild s os ↔ acceptedEntries os = [])) := by
  have hend : ∀ {evs s os}, exec (syncStep P) (Store.init cfg) evs = some (s, os) →
      (acceptedEntries os).length ≤ 2 ^ 64 →
      (Recovers P cfg rebuild s os ↔ acceptedEntries os = []) := by
    intro evs s os hrun hlen
    obtain ⟨mt, h⟩ := Store.Logged.exec hrun
    refine ⟨fun hrecovers => ?_, h.recovers_of_nil⟩
    by_contra hos
    exact h.not_recovers hos hlen hrecovers
  refine ⟨⟨fun hall => ?_, ?_⟩, hend hrun⟩
  · by_contra hos
    have hsome : ∃ o ∈ os, o.entry? ≠ none := by
      simpa [acceptedEntries_eq_nil] using hos
    obtain ⟨before, ev, after, m, os₁, m', o, rfl, hbefore, hnone, hstep, ho⟩ :=
      exec_exists_first hrun hsome
    have hprefix : exec (syncStep P) (Store.init cfg) (before ++ [ev]) = some (m', os₁ ++ [o]) :=
      exec_concat_eq_some.mpr ⟨m, os₁, o, hbefore, hstep, rfl⟩
    obtain ⟨e, he⟩ := Option.ne_none_iff_exists'.mp ho
    have hone : acceptedEntries (os₁ ++ [o]) = [e] := by
      have hbefore : acceptedEntries os₁ = [] :=
        acceptedEntries_eq_nil.mpr fun o' ho' => not_not.mp (hnone o' ho')
      rw [acceptedEntries_append, hbefore, acceptedEntries, List.filterMap_cons_some he]
      rfl
    have hrecovers := hall (before ++ [ev]) after _ _ (by simp) hprefix
    rw [hend hprefix (by rw [hone, List.length_singleton]; omega), hone] at hrecovers
    cases hrecovers
  · rintro hos before after m os₁ rfl hbefore
    obtain ⟨m', os₁', os₂, hbefore', -, rfl⟩ := exec_append_eq_some.mp hrun
    obtain ⟨rfl, rfl⟩ : m' = m ∧ os₁' = os₁ := by simpa using hbefore'.symm.trans hbefore
    rw [acceptedEntries_append] at hos
    have hnil := List.append_eq_nil_iff.mp hos
    exact (hend hbefore (by rw [hnil.1, List.length_nil]; omega)).mpr hnil.1

/-- Nothing is lost where nothing was sent. -/
theorem recoversThroughout_opened :
    RecoversThroughout .rational (.small 2 (by decide)) (fun _ => offsetsCreate) (opened streamA) :=
  ((recovers_iff (fun _ => offsetsCreate) rfl).1).mpr rfl

/-- One frame is sent, and the restart does not find its block. -/
theorem not_recovers_sent :
    ∃ s os, exec (syncStep .rational) (Store.init (.small 2 (by decide)))
      (opened streamA ++ [sent streamA 7 4]) = some (s, os) ∧
      ¬ Recovers .rational (.small 2 (by decide)) (fun _ => offsetsCreate) s os := by
  have haccepted : ((exec (syncStep .rational) (Store.init (.small 2 (by decide)))
      (opened streamA ++ [sent streamA 7 4])).map fun r => (acceptedEntries r.2).length) =
        some 1 := by
    decide +kernel
  obtain ⟨⟨s, os⟩, hrun, hlen⟩ := Option.map_eq_some_iff.mp haccepted
  obtain ⟨mt, h⟩ := Store.Logged.exec hrun
  refine ⟨s, os, hrun, h.not_recovers (fun hnil => ?_) (le_of_eq_of_le hlen (by decide))⟩
  dsimp only at hlen
  rw [hnil] at hlen
  cases hlen

end Racs
