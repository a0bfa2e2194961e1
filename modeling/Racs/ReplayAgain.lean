import Racs.RecordNumbers

/-!
# Recovering again

A crash during the replay or behind it, and a second start. The replay stamps the entries that it
makes with the counter and not with the numbers of their records. A flush that it causes therefore
moves the checkpoint behind every record of the log, also behind those whose entries are still in
the memtable, and the second replay skips all of them.

## Main definitions

* `Racs.Replays` — the server at some point of a replay.
* `Racs.Repeatable` — after a crash a second replay finds what the first one would have found.
* `Racs.reinsertedCount` — the number of records of which a replay makes entries.

## Main results

* `Racs.Process.Refilling.step` — the replay of a log whose entries fit in a memtable.
* `Racs.Process.Overflowing.step` — the replay of any log.
* `Racs.repeatable_iff` — the logs whose recovery can be repeated.
-/

namespace Racs

open PartialRun

/-- The steps of a replay, and the flushes that it causes. -/
def ProcessEvent.replays : ProcessEvent → Bool
  | .serve ev => ev.isFlush
  | .replayNext => true
  | .restart _ => false

/-- The server was started on the disk and is somewhere in the replay or behind it, and some of the
flushes that the replay caused have run. The function `rebuild` says what offsets the start computes
from the disk. -/
def Replays (P : Platform) (cfg : Config) (rebuild : Disk → Offsets) (disk : Disk)
    (p : Process) : Prop :=
  ∃ evs, (∀ ev ∈ evs, ev.replays = true) ∧ processRun P cfg disk (rebuild disk) evs = some p

/-- The blocks in SSTables and in memtables, with their streams. -/
def Process.blocks (p : Process) : List (UInt64 × List UInt8) :=
  p.store.recoveredEntries.map MemtableEntry.audio

/-- After a crash at any point of the replay or behind it, when the flushes that it caused have run,
a second start and replay find the blocks that are found by a replay without a crash. -/
def Repeatable (P : Platform) (cfg : Config) (rebuild : Disk → Offsets) (disk : Disk) : Prop :=
  ∀ p m q, Replays P cfg rebuild disk p → p.replay = none →
    Replays P cfg rebuild disk m → m.store.jobs = [] →
    Replays P cfg rebuild m.store.disk q → q.replay = none →
    ∀ block, block ∈ q.blocks ↔ block ∈ p.blocks

/-- The replay makes an entry of what it read. -/
def reinserted (md : MetadataDir) (checkpointLsn : UInt64) (read : WalRead) : Bool :=
  read.1.any (reinserts md checkpointLsn)

/-- How many of the records the replay makes entries of. -/
def countReinserted (disk : Disk) (reads : List WalRead) : ℕ :=
  reads.countP (reinserted disk.metadata (walCheckpointLsn disk.wal))

/-- What the replay reads from a segment. -/
def segmentReads (disk : Disk) (segno : ℕ) : Option (List WalRead) :=
  walScan (fun _ => true) (disk.wal.read segno) 0

/-- The number of records of the segment of which a replay makes entries. -/
def reinsertedOf (disk : Disk) (segno : ℕ) : ℕ :=
  countReinserted disk ((segmentReads disk segno).getD [])

/-- The number of records of the log of which a replay makes entries. -/
def reinsertedCount (disk : Disk) : ℕ :=
  (disk.wal.segments.map fun segment => reinsertedOf disk segment.segno).sum

/-- No record has a number behind the one at which a start sets the counter. -/
def CounterReached (disk : Disk) : Prop :=
  ∀ segno, ∀ reads ∈ segmentReads disk segno, ∀ read ∈ reads, ∀ entry ∈ read.1,
    crc32c 0 entry.op = entry.checksum → entry.lsn ≤ (walCreate disk.wal).2.lsn

variable {P : Platform} {cfg : Config} {rebuild : Disk → Offsets}

/-! ### The log that is replayed -/

theorem walScan_nil (alloc : UInt64 → Bool) : walScan alloc [] 0 = some [] :=
  walScan_of_le (Nat.le_refl 0)

/-- The start leaves what is read from the segments as it is. -/
theorem segmentReads_start (disk : Disk) (offsets : Offsets) (segno : ℕ) :
    segmentReads (Store.start cfg disk offsets).disk segno = segmentReads disk segno := by
  rw [segmentReads, segmentReads]
  exact congrArg (walScan _ · 0) (WalDir.read_openAppend _ _ _)

/-- The start may add an empty segment, which has no records. -/
theorem reinsertedCount_start (disk : Disk) (offsets : Offsets) :
    reinsertedCount (Store.start cfg disk offsets).disk = reinsertedCount disk := by
  have hof : reinsertedOf (Store.start cfg disk offsets).disk = reinsertedOf disk := by
    funext segno
    have hcheckpoint : walCheckpointLsn (walCreate disk.wal).1 = walCheckpointLsn disk.wal :=
      walCheckpointLsn_congr (walCreate_manifest _)
    rw [reinsertedOf, segmentReads_start, reinsertedOf, countReinserted, countReinserted]
    exact congrArg (fun lsn => List.countP (reinserted disk.metadata lsn) _) hcheckpoint
  have hwal : (Store.start cfg disk offsets).disk.wal =
      disk.wal.openAppend (walOpen disk.wal).2 := rfl
  rw [reinsertedCount, reinsertedCount, hof, hwal]
  rcases disk.wal.openAppend_cases (walOpen disk.wal).2 with ⟨-, heq⟩ | ⟨hnone, hperm⟩
  · rw [heq]
  · rw [(hperm.map fun s => reinsertedOf disk s.segno).sum_eq]
    have hzero : reinsertedOf disk (walOpen disk.wal).2 = 0 := by
      rw [reinsertedOf, segmentReads, WalDir.read, ← WalDir.lookup, hnone, Option.getD_none,
        walScan_nil]
      rfl
    rw [List.map_cons, List.sum_cons, hzero, Nat.zero_add]

/-- The replay goes on to the next segment. A segment that is no longer there has no records. -/
theorem replayStep_segment (p : Process) (checkpointLsn : UInt64) (segno : ℕ) (segnos : List ℕ) :
    replayStep P p ⟨checkpointLsn, segno :: segnos, []⟩ =
      (segmentReads p.store.disk segno).map fun reads =>
        { p with replay := some ⟨checkpointLsn, segnos, reads⟩ } := by
  simp only [replayStep, segmentReads, WalDir.read]
  cases p.store.disk.wal.segments.find? (·.segno = segno) with
  | none =>
    rw [Option.map_none, Option.getD_none, walScan_nil]
    rfl
  | some segment => rfl

/-- All that a step of the replay and a flush do. -/
inductive Process.Moves (P : Platform) (p : Process) : Process → Prop
  /-- There is no such flush, or the replay is over. -/
  | idle (lsns : List UInt64) : Moves P p { p with lsns := lsns }
  | flush {i : ℕ} {mt : Memtable} {disk : Disk} (hmt : p.store.jobs[i]? = some mt)
      (hflush : memtableFlush P p.store.disk mt = some disk) (lsns : List UInt64) :
      Moves P p { p with
        store := { p.store with disk := disk, jobs := p.store.jobs.eraseIdx i }
        lsns := lsns }
  | entry {checkpointLsn : UInt64} {segnos : List ℕ} {read : WalRead} {reads : List WalRead}
      {s : Store} (hreplay : p.replay = some ⟨checkpointLsn, segnos, read :: reads⟩)
      (hentry : walReplayEntry P checkpointLsn p.store read = some s) (lsns : List UInt64) :
      Moves P p ⟨s, some ⟨checkpointLsn, segnos, reads⟩, lsns⟩
  | segment {checkpointLsn : UInt64} {segno : ℕ} {segnos : List ℕ} {reads : List WalRead}
      (hreplay : p.replay = some ⟨checkpointLsn, segno :: segnos, []⟩)
      (hreads : segmentReads p.store.disk segno = some reads) :
      Moves P p { p with replay := some ⟨checkpointLsn, segnos, reads⟩ }
  | finish {checkpointLsn : UInt64} (hreplay : p.replay = some ⟨checkpointLsn, [], []⟩) :
      Moves P p { p with replay := none }

theorem Process.moves {p p' : Process} {ev : ProcessEvent} (hev : ev.replays = true)
    (h : processStep P cfg p ev = some p') : p.Moves P p' := by
  cases ev with
  | serve ev =>
    cases ev with
    | flush i =>
      rw [processStep, if_neg fun hwait => Bool.noConfusion hwait.2] at h
      obtain ⟨⟨s, o⟩, hflush, rfl⟩ := Option.map_eq_some_iff.mp h
      rw [step] at hflush
      split at hflush
      · obtain ⟨rfl, -⟩ := Prod.mk.inj (Option.some.inj hflush)
        exact .idle _
      · rename_i mt hmt
        obtain ⟨disk, hdisk, heq⟩ := Option.map_eq_some_iff.mp hflush
        obtain ⟨rfl, -⟩ := Prod.mk.inj heq
        exact .flush hmt hdisk _
    | _ => cases hev
  | restart reused => cases hev
  | replayNext =>
    rw [processStep] at h
    rcases hreplay : p.replay with - | ⟨checkpointLsn, segnos, reads⟩
    · rw [hreplay] at h
      obtain rfl := Option.some.inj h
      exact .idle p.lsns
    · rw [hreplay] at h
      dsimp only at h
      cases reads with
      | cons read reads =>
        obtain ⟨s, hentry, rfl⟩ := Option.map_eq_some_iff.mp h
        exact .entry hreplay hentry _
      | nil =>
        cases segnos with
        | nil =>
          obtain rfl := Option.some.inj h
          exact .finish hreplay
        | cons segno segnos =>
          rw [replayStep_segment] at h
          obtain ⟨reads, hreads, rfl⟩ := Option.map_eq_some_iff.mp h
          exact .segment hreplay hreads

/-- What is left of a replay: nothing when it is over. -/
def Process.rest (p : Process) (d : Disk) : ReplayState :=
  p.replay.getD ⟨walCheckpointLsn d.wal, [], []⟩

theorem Process.rest_of_replay {p : Process} {r : ReplayState} (h : p.replay = some r) (d : Disk) :
    p.rest d = r := by
  rw [rest, h, Option.getD_some]

theorem Process.rest_of_replayed {p : Process} (h : p.replay = none) (d : Disk) :
    p.rest d = ⟨walCheckpointLsn d.wal, [], []⟩ := by
  rw [rest, h, Option.getD_none]

/-- The records that a replay still reads. -/
def ReplayState.restReads (r : ReplayState) (d : Disk) : Option (List WalRead) :=
  (r.segnos.mapM (segmentReads d)).map fun rs => r.reads ++ rs.flatten

/-- The number of entries that a replay still makes. -/
def ReplayState.restCount (r : ReplayState) (d : Disk) : ℕ :=
  countReinserted d r.reads + (r.segnos.map (reinsertedOf d)).sum

theorem ReplayState.restCount_cons (checkpointLsn : UInt64) (segnos : List ℕ) (read : WalRead)
    (reads : List WalRead) (d : Disk) :
    restCount ⟨checkpointLsn, segnos, read :: reads⟩ d =
      (if reinserted d.metadata (walCheckpointLsn d.wal) read then 1 else 0) +
        restCount ⟨checkpointLsn, segnos, reads⟩ d := by
  simp only [restCount, countReinserted, List.countP_cons]
  omega

theorem ReplayState.restReads_cons (checkpointLsn : UInt64) (segnos : List ℕ) (read : WalRead)
    (reads : List WalRead) (d : Disk) :
    restReads ⟨checkpointLsn, segnos, read :: reads⟩ d =
      (restReads ⟨checkpointLsn, segnos, reads⟩ d).map (read :: ·) := by
  rw [restReads, restReads, Option.map_map]
  rfl

theorem ReplayState.restReads_segment {d : Disk} {segno : ℕ} {reads : List WalRead}
    (h : segmentReads d segno = some reads) (checkpointLsn : UInt64) (segnos : List ℕ) :
    restReads ⟨checkpointLsn, segno :: segnos, []⟩ d =
      restReads ⟨checkpointLsn, segnos, reads⟩ d := by
  rw [restReads, restReads, List.mapM_cons, h]
  rcases segnos.mapM (segmentReads d) with - | rs <;> rfl

theorem ReplayState.restCount_segment {d : Disk} {segno : ℕ} {reads : List WalRead}
    (h : segmentReads d segno = some reads) (checkpointLsn : UInt64) (segnos : List ℕ) :
    restCount ⟨checkpointLsn, segno :: segnos, []⟩ d =
      restCount ⟨checkpointLsn, segnos, reads⟩ d := by
  rw [restCount, restCount, List.map_cons, List.sum_cons, reinsertedOf, h, Option.getD_some]
  exact Nat.zero_add _

/-- A record adds at most one entry to those in the memtables. -/
theorem length_pending_of_walReplayEntry {s s' : Store} {mt : Memtable} {checkpointLsn : UInt64}
    {read : WalRead} (hmt : s.HasMemtable cfg mt)
    (h : walReplayEntry P checkpointLsn s read = some s') :
    s'.pending.length = s.pending.length +
      if reinserted s.disk.metadata checkpointLsn read then 1 else 0 := by
  rcases walReplayEntry_cases hmt h with ⟨rfl, hskip⟩ |
    ⟨entry, e, -, hread, hreinserts, -, hpending, -⟩
  · have hnot : reinserted s'.disk.metadata checkpointLsn read = false := by
      rw [reinserted]
      cases hread : read.1 with
      | none => rfl
      | some entry => exact hskip entry hread
    rw [hnot]
    rfl
  · rw [reinserted, hread, Option.any_some, hreinserts, hpending, List.length_append]
    rfl

/-! ### A log whose entries fit in a memtable -/

/-- The entries made so far are in the memtable, there is room for the others, and together they
are those of `total`. Nothing was flushed. -/
def Process.Refilling (P : Platform) (cfg : Config) (d : Disk) (w : Wal)
    (total : Option (List MemtableEntry)) (p : Process) : Prop :=
  ∃ es, p.store.Refilled cfg d w es ∧
    (p.rest d).checkpointLsn = walCheckpointLsn d.wal ∧
    es.length + (p.rest d).restCount d ≤ cfg.entries.toNat ∧
    total = ((p.rest d).restReads d).bind fun reads =>
      (replayedEntries P d.metadata (walCheckpointLsn d.wal) w.lsn reads).map (es ++ ·)

namespace Process.Refilling

variable {p p' : Process} {d : Disk} {w : Wal} {total : Option (List MemtableEntry)}

/-- The replay of a record. -/
theorem replayEntry {checkpointLsn : UInt64} {segnos : List ℕ} {read : WalRead}
    {reads : List WalRead} (h : p.Refilling P cfg d w total)
    (hreplay : p.replay = some ⟨checkpointLsn, segnos, read :: reads⟩) {s : Store}
    (hentry : walReplayEntry P checkpointLsn p.store read = some s) (lsns : List UInt64) :
    Refilling P cfg d w total ⟨s, some ⟨checkpointLsn, segnos, reads⟩, lsns⟩ := by
  obtain ⟨es, hrefilled, hcheckpoint, hroom, htotal⟩ := h
  obtain ⟨⟨mt, hmt⟩, hpending, -, hdisk, -⟩ := id hrefilled
  rw [rest_of_replay hreplay] at hcheckpoint hroom htotal
  obtain rfl : checkpointLsn = walCheckpointLsn d.wal := hcheckpoint
  have hrel := @walReplayEntry_rel P cfg d w (walCheckpointLsn d.wal) p.store es read hrefilled
  rw [hentry] at hrel
  obtain ⟨e, he, hrefilled'⟩ := exists_of_rel_some_left hrel
  refine ⟨es ++ e, hrefilled', rfl, ?_, ?_⟩
  · have hlen := length_pending_of_walReplayEntry hmt hentry
    rw [hrefilled'.pending, hpending, hdisk] at hlen
    rwa [hlen, rest, Option.getD_some, Nat.add_assoc, ← ReplayState.restCount_cons]
  · rw [htotal, ReplayState.restReads_cons, Option.bind_map, rest, Option.getD_some]
    refine congrArg (Option.bind _) (funext fun rs => ?_)
    rw [Function.comp_apply, replayedEntries_cons, he, Option.bind_some, Option.map_map]
    exact congrArg (Option.map · _) (funext fun es' => (List.append_assoc ..).symm)

/-- **Each step** of such a replay. -/
theorem step (h : p.Refilling P cfg d w total) (hmoves : p.Moves P p') :
    p'.Refilling P cfg d w total := by
  cases hmoves with
  | idle lsns => exact h
  | entry hreplay hentry lsns => exact h.replayEntry hreplay hentry lsns
  | flush hmt =>
    obtain ⟨es, hrefilled, -, hroom, -⟩ := h
    rw [hrefilled.jobs ((Nat.le_add_right _ _).trans hroom)] at hmt
    cases hmt
  | segment hreplay hreads =>
    obtain ⟨es, hrefilled, hcheckpoint, hroom, htotal⟩ := h
    rw [hrefilled.disk] at hreads
    rw [rest_of_replay hreplay] at hcheckpoint hroom htotal
    rw [ReplayState.restCount_segment hreads] at hroom
    rw [ReplayState.restReads_segment hreads] at htotal
    exact ⟨es, hrefilled, hcheckpoint, hroom, htotal⟩
  | finish hreplay =>
    obtain ⟨es, hrefilled, hcheckpoint, hroom, htotal⟩ := h
    rw [rest_of_replay hreplay] at hcheckpoint hroom htotal
    exact ⟨es, hrefilled, rfl, hroom, htotal⟩

end Process.Refilling
/-- The entries that a replay of the whole log makes. -/
def logEntries (P : Platform) (d : Disk) (w : Wal) : Option (List MemtableEntry) :=
  ((d.wal.segments.map Segment.segno).mapM (segmentReads d)).bind fun rs =>
    replayedEntries P d.metadata (walCheckpointLsn d.wal) w.lsn rs.flatten

/-- **The run rule**: what holds after the start and is kept by each step holds everywhere in the
replay and behind it. -/
theorem Replays.induction {Q : Process → Prop} {disk : Disk} {p : Process}
    (h : Replays P cfg rebuild disk p) (hstart : Q (.start (Store.start cfg disk (rebuild disk))))
    (hmoves : ∀ p p' : Process, Q p → p.Moves P p' → Q p') : Q p := by
  obtain ⟨evs, hevs, hrun⟩ := h
  induction evs using List.reverseRecOn generalizing p with
  | nil =>
    obtain rfl := Option.some.inj hrun
    exact hstart
  | append_singleton evs ev ih =>
    rw [processRun_concat] at hrun
    obtain ⟨m, hm, hstep⟩ := Option.bind_eq_some_iff.mp hrun
    refine hmoves m p ?_ (Process.moves (hevs ev (by simp)) hstep)
    exact ih (fun ev' hev' => hevs ev' (List.mem_append_left _ hev')) hm

/-- A replay of a log whose entries fit in a memtable. -/
theorem Replays.refilling {disk : Disk} {p : Process} (h : Replays P cfg rebuild disk p)
    (hfew : reinsertedCount disk ≤ cfg.entries.toNat) (offsets : Offsets) :
    p.Refilling P cfg (Store.start cfg disk offsets).disk (Store.start cfg disk offsets).wal
      (logEntries P (Store.start cfg disk offsets).disk (Store.start cfg disk offsets).wal) := by
  refine h.induction ?_ fun _ _ => Process.Refilling.step
  refine ⟨[], Store.start_refilled cfg disk (rebuild disk), rfl, ?_, ?_⟩
  · rw [← @reinsertedCount_start cfg disk offsets] at hfew
    rw [List.length_nil, Nat.zero_add, Process.rest, Process.start, Option.getD_some,
      ReplayState.restCount, List.map_map]
    exact (Nat.zero_add _).trans_le hfew
  · rw [logEntries, Process.rest, Process.start, Option.getD_some, ReplayState.restReads,
      Option.bind_map]
    exact congrArg (Option.bind _) (funext fun rs => Option.map_id'.symm)

/-- What is found behind such a replay. -/
theorem Process.Refilling.recoveredEntries {p : Process} {d : Disk} {w : Wal}
    {total : Option (List MemtableEntry)} (h : p.Refilling P cfg d w total)
    (hreplay : p.replay = none) :
    total.map (d.sstables.storedEntries ++ ·) = some p.store.recoveredEntries := by
  obtain ⟨es, hrefilled, -, -, rfl⟩ := h
  rw [hrefilled.recoveredEntries, rest_of_replayed hreplay]
  exact congrArg (fun es => some (d.sstables.storedEntries ++ es)) (List.append_nil es)

/-- **A replay whose entries fit in a memtable can be repeated**: it changes nothing on the disk. -/
theorem repeatable_of_le {disk : Disk} (hfew : reinsertedCount disk ≤ cfg.entries.toNat) :
    Repeatable P cfg rebuild disk := by
  rintro p m q hp hpover hm - hq hqover block
  obtain ⟨es, hrefilled, -⟩ := hm.refilling hfew offsetsCreate
  have hfew' : reinsertedCount m.store.disk ≤ cfg.entries.toNat := by
    rwa [hrefilled.disk, reinsertedCount_start]
  have hagain : Store.start cfg m.store.disk offsetsCreate =
      Store.start cfg disk offsetsCreate := by
    rw [hrefilled.disk]
    simp only [Store.start, walCreate_walCreate]
  have hfirst := (hp.refilling hfew offsetsCreate).recoveredEntries hpover
  have hsecond := (hq.refilling hfew' offsetsCreate).recoveredEntries hqover
  rw [hagain, hfirst] at hsecond
  rw [Process.blocks, Process.blocks, Option.some.inj hsecond]

/-! ### Any log -/

/-- As long as nothing was flushed, the entries made so far and those that will be made are `n`.
A flush puts the number of the counter into the manifest, and then the last memtable is not
empty. -/
structure Process.Overflowing (cfg : Config) (d : Disk) (w : Wal) (n : ℕ) (mt : Memtable)
    (p : Process) : Prop where
  hasMemtable : p.store.HasMemtable cfg mt
  wal : p.store.wal = w
  metadata : p.store.disk.metadata = d.metadata
  checkpointLsn : (p.rest d).checkpointLsn = walCheckpointLsn d.wal
  stamped : ∀ e ∈ p.store.pending, e.lsn = w.lsn
  jobs : ∀ job ∈ p.store.jobs, job.entries ≠ [] ∧ mt.entries ≠ []
  segments : p.store.disk.wal.segments.Sublist d.wal.segments
  scanned : ∀ s ∈ p.store.disk.wal.segments, s.segno ∉ (p.rest d).segnos →
    (walScan (fun _ => true) s.data 0).isSome
  counted : p.store.disk = d ∧ p.store.pending.length + (p.rest d).restCount d = n ∨
    walCheckpointLsn p.store.disk.wal = w.lsn ∧ mt.entries ≠ []

namespace Process.Overflowing

variable {p p' : Process} {d : Disk} {w : Wal} {n : ℕ} {mt : Memtable}

/-- The replay of a record. -/
theorem replayEntry {checkpointLsn : UInt64} {segnos : List ℕ} {read : WalRead}
    {reads : List WalRead} (h : p.Overflowing cfg d w n mt)
    (hreplay : p.replay = some ⟨checkpointLsn, segnos, read :: reads⟩) {s : Store}
    (hentry : walReplayEntry P checkpointLsn p.store read = some s) (lsns : List UInt64) :
    ∃ mt', Overflowing cfg d w n mt' ⟨s, some ⟨checkpointLsn, segnos, reads⟩, lsns⟩ := by
  have hlen := length_pending_of_walReplayEntry h.hasMemtable hentry
  have hcheckpoint := h.checkpointLsn
  have hscanned := h.scanned
  have hcounted := h.counted
  rw [rest_of_replay hreplay] at hcheckpoint hscanned hcounted
  obtain rfl : checkpointLsn = walCheckpointLsn d.wal := hcheckpoint
  rw [h.metadata] at hlen
  rw [ReplayState.restCount_cons, ← Nat.add_assoc, ← hlen] at hcounted
  rcases walReplayEntry_cases h.hasMemtable hentry with ⟨rfl, -⟩ |
    ⟨entry, e, mt', -, -, hlsn, hpending, hmt', hdisk, hwal, hne, hjobs⟩
  · exact ⟨mt, h.hasMemtable, h.wal, h.metadata, rfl, h.stamped, h.jobs, h.segments, hscanned,
      hcounted⟩
  · refine ⟨mt', hmt', hwal.trans h.wal, ?_, rfl, ?_, ?_, ?_, ?_, ?_⟩
    · rw [hdisk]
      exact h.metadata
    · intro e' he'
      rw [hpending] at he'
      rcases List.mem_append.mp he' with he' | he'
      · exact h.stamped e' he'
      · rw [List.mem_singleton.mp he', hlsn, h.wal]
    · intro job hjob
      rcases hjobs job hjob with hjob | ⟨rfl, hfull⟩
      · exact ⟨(h.jobs job hjob).1, hne⟩
      · exact ⟨hfull, hne⟩
    · rw [hdisk]
      exact h.segments
    · rw [hdisk]
      exact hscanned
    · rw [hdisk]
      exact hcounted.imp_right fun hafter => ⟨hafter.1, hne⟩

/-- A flush. -/
theorem flush {i : ℕ} {job : Memtable} {disk : Disk} (h : p.Overflowing cfg d w n mt)
    (hjob : p.store.jobs[i]? = some job) (hflush : memtableFlush P p.store.disk job = some disk)
    (lsns : List UInt64) :
    Overflowing cfg d w n mt { p with
      store := { p.store with disk := disk, jobs := p.store.jobs.eraseIdx i }
      lsns := lsns } := by
  have hmem : job ∈ p.store.jobs := List.mem_of_getElem? hjob
  obtain ⟨hne, hlast⟩ := h.jobs job hmem
  have hmax : job.maxLsn = w.lsn := by
    rw [Memtable.maxLsn, List.getLast?_eq_some_getLast hne, Option.map_some, Option.getD_some]
    refine h.stamped _ (List.mem_flatMap.mpr ⟨job, List.mem_append_left _ hmem, ?_⟩)
    exact List.getLast_mem hne
  obtain rfl := eq_of_memtableFlush hne hflush
  refine ⟨h.hasMemtable, h.wal, h.metadata, h.checkpointLsn, ?_, ?_, ?_, ?_, .inr ⟨?_, hlast⟩⟩
  · intro e he
    obtain ⟨mt', hmt', he⟩ := List.mem_flatMap.mp he
    refine h.stamped e (List.mem_flatMap.mpr ⟨mt', ?_, he⟩)
    exact List.mem_append.mpr ((List.mem_append.mp hmt').imp_left List.mem_of_mem_eraseIdx)
  · exact fun job' hjob' => h.jobs job' (List.mem_of_mem_eraseIdx hjob')
  · exact List.filter_sublist.trans h.segments
  · exact fun s hs => h.scanned s (List.mem_of_mem_filter hs)
  · rw [← hmax]
    exact walCheckpointLsn_of_manifest rfl

/-- The replay goes on to the next segment. -/
theorem segment {checkpointLsn : UInt64} {segno : ℕ} {segnos : List ℕ} {reads : List WalRead}
    (h : p.Overflowing cfg d w n mt) (hnodup : (d.wal.segments.map Segment.segno).Nodup)
    (hreplay : p.replay = some ⟨checkpointLsn, segno :: segnos, []⟩)
    (hreads : segmentReads p.store.disk segno = some reads) :
    Overflowing cfg d w n mt { p with replay := some ⟨checkpointLsn, segnos, reads⟩ } := by
  have hcheckpoint := h.checkpointLsn
  have hscanned := h.scanned
  have hcounted := h.counted
  rw [rest_of_replay hreplay] at hcheckpoint hscanned hcounted
  refine ⟨h.hasMemtable, h.wal, h.metadata, hcheckpoint, h.stamped, h.jobs, h.segments, ?_, ?_⟩
  · intro s hs hlater
    by_cases hsegno : s.segno = segno
    · rw [← hsegno, segmentReads,
        WalDir.read_of_mem (hnodup.sublist (h.segments.map _)) hs] at hreads
      exact Option.isSome_of_eq_some hreads
    · exact hscanned s hs (List.not_mem_cons_of_ne_of_not_mem hsegno hlater)
  · refine hcounted.imp_left fun hbefore => ?_
    rw [hbefore.1] at hreads
    rw [ReplayState.restCount_segment hreads] at hbefore
    exact hbefore

/-- **Each step** of a replay. -/
theorem step (h : p.Overflowing cfg d w n mt) (hnodup : (d.wal.segments.map Segment.segno).Nodup)
    (hmoves : p.Moves P p') : ∃ mt', p'.Overflowing cfg d w n mt' := by
  cases hmoves with
  | idle lsns => exact ⟨mt, h.hasMemtable, h.wal, h.metadata, h.checkpointLsn, h.stamped, h.jobs,
      h.segments, h.scanned, h.counted⟩
  | entry hreplay hentry lsns => exact h.replayEntry hreplay hentry lsns
  | flush hjob hflush lsns => exact ⟨mt, h.flush hjob hflush lsns⟩
  | segment hreplay hreads => exact ⟨mt, h.segment hnodup hreplay hreads⟩
  | finish hreplay =>
    have hscanned := h.scanned
    have hcounted := h.counted
    rw [rest_of_replay hreplay] at hscanned hcounted
    exact ⟨mt, h.hasMemtable, h.wal, h.metadata, rfl, h.stamped, h.jobs, h.segments, hscanned,
      hcounted⟩

/-- When more entries were made than fit in a memtable, and all flushes have run, the last
memtable is not empty, and the checkpoint is behind every record. -/
theorem of_lt (h : p.Overflowing cfg d w n mt) (hreplay : p.replay = none)
    (hjobs : p.store.jobs = []) (hn : cfg.entries.toNat < n) :
    walCheckpointLsn p.store.disk.wal = w.lsn ∧ mt.entries ≠ [] := by
  refine h.counted.resolve_left fun hbefore => ?_
  have hrest : (p.rest d).restCount d = 0 := by
    rw [rest_of_replayed hreplay]
    rfl
  have hpending : p.store.pending = mt.entries := by
    rw [Store.pending, hjobs, h.hasMemtable.1]
    simp
  have hroom : mt.entries.length ≤ cfg.entries.toNat := h.hasMemtable.2 ▸ mt.length_le
  have hcount := hbefore.2
  rw [hrest, hpending] at hcount
  omega

end Process.Overflowing

/-- The whole replay of a log. -/
theorem Replays.overflowing {disk : Disk} {p : Process} (h : Replays P cfg rebuild disk p)
    (hnodup : (disk.wal.segments.map Segment.segno).Nodup) (offsets : Offsets) :
    ∃ mt, p.Overflowing cfg (Store.start cfg disk offsets).disk (Store.start cfg disk offsets).wal
      (reinsertedCount disk) mt := by
  let Q : Process → Prop := fun p => ∃ mt, p.Overflowing cfg (Store.start cfg disk offsets).disk
    (Store.start cfg disk offsets).wal (reinsertedCount disk) mt
  refine @Replays.induction P cfg rebuild Q disk p h ?_ fun p p' hp hmoves => ?_
  · refine ⟨memtableCreate cfg.entries, ⟨Store.start_mmt .., rfl⟩, rfl, rfl, rfl, ?_, ?_,
      List.Sublist.refl _, ?_, .inl ⟨rfl, ?_⟩⟩
    · intro e he
      rw [Process.start, Store.pending, Store.start_mmt] at he
      cases he
    · exact fun job hjob => absurd hjob List.not_mem_nil
    · exact fun s hs hlater => absurd (List.mem_map_of_mem hs) hlater
    · rw [Process.start, Store.pending, Store.start_mmt, Process.rest, Option.getD_some,
        ReplayState.restCount, List.map_map]
      exact ((Nat.zero_add _).trans (Nat.zero_add _)).trans (reinsertedCount_start disk offsets)
  · obtain ⟨mt, hp⟩ := hp
    exact hp.step (WalDir.nodup_openAppend hnodup _) hmoves

/-! ### The second replay -/

theorem walReplayEntry_of_skip {s : Store} {checkpointLsn : UInt64} {read : WalRead}
    (h : ∀ entry ∈ read.1, crc32c 0 entry.op = entry.checksum → entry.lsn ≤ checkpointLsn) :
    walReplayEntry P checkpointLsn s read = some s := by
  unfold walReplayEntry
  cases hread : read.1 with
  | none => rfl
  | some entry =>
    dsimp only
    rw [if_pos]
    by_cases hsum : crc32c 0 entry.op = entry.checksum
    · exact .inr (h entry hread hsum)
    · exact .inl hsum

/-- A replay that skips every record. -/
theorem walReplay_of_skip {s : Store}
    (h : ∀ segno, ∃ reads, segmentReads s.disk segno = some reads ∧ ∀ read ∈ reads,
      ∀ entry ∈ read.1, crc32c 0 entry.op = entry.checksum →
        entry.lsn ≤ walCheckpointLsn s.disk.wal) : walReplay P some s = some s := by
  refine foldlM_eq_self fun segno _ => ?_
  obtain ⟨reads, hreads, hskip⟩ := h segno
  rw [walReplaySegment]
  rw [segmentReads, WalDir.read] at hreads
  cases hfind : s.disk.wal.segments.find? (·.segno = segno) with
  | none => rfl
  | some segment =>
    rw [hfind, Option.map_some, Option.getD_some] at hreads
    dsimp only
    rw [hreads, Option.bind_some]
    refine foldlM_eq_self fun read hread => ?_
    rw [walReplayEntry_of_skip (hskip read hread), Option.bind_some]

/-- **The second replay**, behind a first one that caused a flush, finds what is in the SSTables
only. -/
theorem Process.Overflowing.replays_again {disk : Disk} {offsets : Offsets} {p : Process} {n : ℕ}
    {mt : Memtable} (h : p.Overflowing cfg (Store.start cfg disk offsets).disk
      (Store.start cfg disk offsets).wal n mt) (hreplay : p.replay = none)
    (hnodup : (disk.wal.segments.map Segment.segno).Nodup) (hcounter : CounterReached disk)
    (hafter : walCheckpointLsn p.store.disk.wal = (Store.start cfg disk offsets).wal.lsn) :
    ∃ q, Replays P cfg rebuild p.store.disk q ∧ q.replay = none ∧
      q.blocks = p.store.disk.sstables.storedEntries.map MemtableEntry.audio := by
  have hnodup' := WalDir.nodup_openAppend hnodup (walOpen disk.wal).2
  have hskip : ∀ segno, ∃ reads, segmentReads p.store.disk segno = some reads ∧ ∀ read ∈ reads,
      ∀ entry ∈ read.1, crc32c 0 entry.op = entry.checksum →
        entry.lsn ≤ walCheckpointLsn p.store.disk.wal := by
    intro segno
    cases hlookup : p.store.disk.wal.lookup segno with
    | none =>
      refine ⟨[], ?_, fun read hread => absurd hread List.not_mem_nil⟩
      rw [segmentReads, WalDir.read, ← WalDir.lookup, hlookup, Option.getD_none, walScan_nil]
    | some data =>
      have hmem : ⟨segno, data⟩ ∈ p.store.disk.wal.segments :=
        (WalDir.lookup_eq_some_iff (hnodup'.sublist (h.segments.map _))).mp hlookup
      have hrest : segno ∉ (p.rest (Store.start cfg disk offsets).disk).segnos := by
        rw [Process.rest_of_replayed hreplay]
        exact List.not_mem_nil
      obtain ⟨reads, hreads⟩ := Option.isSome_iff_exists.mp (h.scanned _ hmem hrest)
      refine ⟨reads, ?_, ?_⟩
      · rw [segmentReads, WalDir.read, ← WalDir.lookup, hlookup, Option.getD_some]
        exact hreads
      · rw [hafter]
        have hread : (Store.start cfg disk offsets).disk.wal.read segno = data :=
          WalDir.read_of_mem hnodup' (h.segments.subset hmem)
        refine hcounter segno reads ?_
        rw [← @segmentReads_start cfg disk offsets, segmentReads, hread]
        exact hreads
  have hstart : walReplay P some (Store.start cfg p.store.disk (rebuild p.store.disk)) =
      some (Store.start cfg p.store.disk (rebuild p.store.disk)) := by
    refine walReplay_of_skip fun segno => ?_
    rw [segmentReads_start]
    have hcheckpoint : walCheckpointLsn (walCreate p.store.disk.wal).1 =
        walCheckpointLsn p.store.disk.wal := walCheckpointLsn_congr (walCreate_manifest _)
    obtain ⟨reads, hreads, hread⟩ := hskip segno
    exact ⟨reads, hreads, hcheckpoint.symm ▸ hread⟩
  obtain ⟨k, lsns, hrun⟩ := processRun_replay hstart
  refine ⟨_, ⟨_, fun ev hev => ?_, hrun⟩, rfl, ?_⟩
  · rw [List.eq_of_mem_replicate hev]
    rfl
  · rw [Process.blocks, Store.recoveredEntries, Store.pending, Store.start_mmt]
    exact congrArg _ (List.append_nil _)

/-- **When recovery can be repeated.** It can if the replay makes entries of at most as many records
as a memtable holds. If the counter starts behind no record, and a replay of the whole log is
defined and finds no block twice, it can only then. -/
theorem repeatable_iff (P : Platform) (cfg : Config) (rebuild : Disk → Offsets) (disk : Disk) :
    (reinsertedCount disk ≤ cfg.entries.toNat → Repeatable P cfg rebuild disk) ∧
      ((disk.wal.segments.map Segment.segno).Nodup → CounterReached disk →
        (∃ p, Replays P cfg rebuild disk p ∧ p.replay = none ∧ p.store.jobs = [] ∧
          p.blocks.Nodup) →
        (Repeatable P cfg rebuild disk ↔ reinsertedCount disk ≤ cfg.entries.toNat)) := by
  refine ⟨repeatable_of_le, fun hnodup hcounter hreplay => ⟨?_, repeatable_of_le⟩⟩
  intro hrepeatable
  obtain ⟨p, hp, hover, hjobs, hblocks⟩ := hreplay
  by_contra hmany
  obtain ⟨mt, h⟩ := hp.overflowing hnodup offsetsCreate
  obtain ⟨hafter, hne⟩ := h.of_lt hover hjobs (not_le.mp hmany)
  obtain ⟨q, hq, hqover, hqblocks⟩ := h.replays_again hover hnodup hcounter hafter
  have hsplit : p.blocks = p.store.disk.sstables.storedEntries.map MemtableEntry.audio ++
      mt.entries.map MemtableEntry.audio := by
    rw [Process.blocks, Store.recoveredEntries, Store.pending, hjobs, h.hasMemtable.1]
    simp
  obtain ⟨e, he⟩ := List.exists_mem_of_ne_nil _ hne
  have hmem : e.audio ∈ mt.entries.map MemtableEntry.audio := List.mem_map_of_mem he
  have hfound := (hrepeatable p p q hp hover hp hjobs hq hqover e.audio).mpr
    (hsplit ▸ List.mem_append_right _ hmem)
  rw [hqblocks] at hfound
  rw [hsplit] at hblocks
  exact List.disjoint_of_nodup_append hblocks hfound hmem

/-- After three frames there are two records to replay, whose entries fit in a memtable. -/
theorem repeatable_three :
    ∃ s os, exec (step .rational) (Store.init (.small 2 (by decide))) (opened streamA ++
        [sent streamA 7 4, sent streamA 8 4, sent streamA 9 4]) = some (s, os) ∧
      Repeatable .rational (.small 2 (by decide)) (fun _ => offsetsCreate) s.disk := by
  have hcount : ((exec (step .rational) (Store.init (.small 2 (by decide))) (opened streamA ++
      [sent streamA 7 4, sent streamA 8 4, sent streamA 9 4])).map fun r =>
        reinsertedCount r.1.disk) = some 2 := by
    decide +kernel
  obtain ⟨⟨s, os⟩, hrun, hcount⟩ := Option.map_eq_some_iff.mp hcount
  have hle : reinsertedCount s.disk ≤ 2 := Nat.le_of_eq hcount
  exact ⟨s, os, hrun, (repeatable_iff _ (.small 2 (by decide)) _ s.disk).1 hle⟩

/-- Four frames are sent to memtables of two entries, and the server crashes before a flush runs.
The replay skips the record with the number zero and makes three entries, the first two of which
are flushed. After another crash the third one is not found. -/
theorem not_repeatable_unflushed :
    ∃ s os, exec (step .rational) (Store.init (.small 2 (by decide))) (opened streamA ++
        [sent streamA 7 4, sent streamA 8 4, sent streamA 9 4, sent streamA 10 4]) = some (s, os) ∧
      ¬ Repeatable .rational (.small 2 (by decide)) (fun _ => offsetsCreate) s.disk := by
  let evs : List ProcessEvent := List.replicate 6 .replayNext
  have hlost : ((exec (step .rational) (Store.init (.small 2 (by decide))) (opened streamA ++
        [sent streamA 7 4, sent streamA 8 4, sent streamA 9 4, sent streamA 10 4])).bind fun r =>
      (processRun .rational (.small 2 (by decide)) r.1.disk offsetsCreate
        (evs ++ [.serve (.flush 0)])).bind fun p =>
      (processRun .rational (.small 2 (by decide)) p.store.disk offsetsCreate evs).map fun q =>
        (decide (p.replay.isNone ∧ p.store.jobs.length = 0 ∧ q.replay.isNone) &&
          decide (∃ block ∈ p.blocks, block ∉ q.blocks))) = some true := by
    decide +kernel
  obtain ⟨⟨s, os⟩, hrun, hlost⟩ := Option.bind_eq_some_iff.mp hlost
  obtain ⟨p, hp, hlost⟩ := Option.bind_eq_some_iff.mp hlost
  obtain ⟨q, hq, hlost⟩ := Option.map_eq_some_iff.mp hlost
  rw [Bool.and_eq_true, decide_eq_true_eq, decide_eq_true_eq] at hlost
  obtain ⟨⟨hpover, hjobs, hqover⟩, block, hfound, hlost⟩ := hlost
  have hevs : ∀ ev ∈ evs, ev.replays = true := by decide
  have hreplays : Replays .rational (.small 2 (by decide)) (fun _ => offsetsCreate) s.disk p :=
    ⟨_, fun ev hev => (List.mem_append.mp hev).elim (hevs ev) fun hev => by
      rw [List.mem_singleton.mp hev]
      rfl, hp⟩
  refine ⟨s, os, hrun, fun h => hlost ?_⟩
  exact (h p p q hreplays (Option.isNone_iff_eq_none.mp hpover) hreplays
    (List.length_eq_zero_iff.mp hjobs) ⟨evs, hevs, hq⟩ (Option.isNone_iff_eq_none.mp hqover)
    block).mpr hfound

end Racs
