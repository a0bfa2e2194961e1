import Racs.Run

/-!
# Replaying the log

`racs_wal_replay` (`wal_replay.c`) reads the segments of the log in order and puts the frames of
records behind the checkpoint into the memtables again. The timestamp of a frame is computed from
the position in the segment behind its record, where the live append uses the offset into the audio
of its stream.

While a replay runs, flushes that it causes may run as well; `sched` is what they do between two
records. A replay in which none runs is described by the list of records it reads.

## Main definitions

* `Racs.walReplay` — `racs_wal_replay`.
* `Racs.replayedEntry` — the entry that the replay makes of a record, if any.

## Main results

* `Racs.walReplay_rel` — a replay in which no flush runs.
-/

namespace Racs

open PartialRun

/-- One round of the loop over a segment of `racs_wal_replay`, for what `racs_wal_entry_read`
returned and the position behind it. -/
def walReplayEntry (P : Platform) (checkpointLsn : UInt64) (s : Store) (read : WalRead) :
    Option Store :=
  match read.1 with
  | none => some s
  | some entry =>
    if crc32c 0 entry.op ≠ entry.checksum ∨ entry.lsn ≤ checkpointLsn then some s
    else (frameParse entry.op).bind fun (frame, _) =>
      match metadataGet s.disk.metadata frame.header.streamId with
      | none => some s
      | some md =>
        let offset := offsetsGet s.offsets frame.header.streamId
        (metadataTimestamp P md (UInt64.ofNat read.2)).bind fun timestamp =>
        (multiMemtableAppend s.mmt (frame.entry timestamp s.wal.lsn)).map fun (mmt, full) =>
          { s with
            mmt := mmt
            jobs := s.jobs ++ full.toList
            offsets := offsetsPut s.offsets frame.header.streamId (offset + frame.decodedSize P) }

/-- The loop of `racs_wal_replay` over one segment. A segment that is no longer there is skipped. -/
def walReplaySegment (P : Platform) (sched : Store → Option Store) (checkpointLsn : UInt64)
    (s : Store) (segno : ℕ) : Option Store :=
  match s.disk.wal.segments.find? (·.segno = segno) with
  | none => some s
  | some segment => (walScan (fun _ => true) segment.data 0).bind fun reads =>
      reads.foldlM (fun s read => (walReplayEntry P checkpointLsn s read).bind sched) s

/-- `racs_wal_replay`: the checkpoint and the list of files are read once, at the start. -/
def walReplay (P : Platform) (sched : Store → Option Store) (s : Store) : Option Store :=
  (s.disk.wal.segments.map Segment.segno).foldlM
    (walReplaySegment P sched (walCheckpointLsn s.disk.wal)) s

/-! ### A replay in which no flush runs -/

/-- The entry that the replay makes of a record, none for a record that it skips. -/
def replayedEntry (P : Platform) (md : MetadataDir) (checkpointLsn lsn : UInt64) (read : WalRead) :
    Option (List MemtableEntry) :=
  match read.1 with
  | none => some []
  | some entry =>
    if crc32c 0 entry.op ≠ entry.checksum ∨ entry.lsn ≤ checkpointLsn then some []
    else (frameParse entry.op).bind fun (frame, _) =>
      match metadataGet md frame.header.streamId with
      | none => some []
      | some m => (metadataTimestamp P m (UInt64.ofNat read.2)).map fun timestamp =>
          [frame.entry timestamp lsn]

/-- The entries that the replay makes of the records, in order. -/
def replayedEntries (P : Platform) (md : MetadataDir) (checkpointLsn lsn : UInt64)
    (reads : List WalRead) : Option (List MemtableEntry) :=
  (reads.mapM (replayedEntry P md checkpointLsn lsn)).map List.flatten

/-- The record is behind the checkpoint. -/
def behind (checkpointLsn : UInt64) (read : WalRead) : Bool :=
  read.1.any fun entry => checkpointLsn < entry.lsn

/-- The entries that were put into the memtables of a store and wait to be flushed or are in the
memtable, in order. -/
def Store.pending (s : Store) : List MemtableEntry := (s.jobs ++ s.mmt).flatMap Memtable.entries

/-- The store during a replay in which no flush runs: the entries are in the memtables, and the disk
and the log are those before the replay. -/
structure Store.Refilled (cfg : Config) (d : Disk) (w : Wal) (es : List MemtableEntry)
    (s : Store) : Prop where
  memtable : ∃ mt, s.HasMemtable cfg mt
  pending : s.pending = es
  jobs : es.length ≤ cfg.entries.toNat → s.jobs = []
  disk : s.disk = d
  wal : s.wal = w

variable {P : Platform} {cfg : Config} {d : Disk} {w : Wal} {checkpointLsn : UInt64}

theorem replayedEntries_cons (md : MetadataDir) (lsn : UInt64) (read : WalRead)
    (reads : List WalRead) :
    replayedEntries P md checkpointLsn lsn (read :: reads) =
      (replayedEntry P md checkpointLsn lsn read).bind fun es =>
        (replayedEntries P md checkpointLsn lsn reads).map (es ++ ·) := by
  unfold replayedEntries
  rw [List.mapM_cons]
  rcases replayedEntry P md checkpointLsn lsn read with - | es
  · rfl
  · rcases reads.mapM (replayedEntry P md checkpointLsn lsn) with - | es' <;> rfl

theorem replayedEntries_append (md : MetadataDir) (lsn : UInt64) (reads reads' : List WalRead) :
    replayedEntries P md checkpointLsn lsn (reads ++ reads') =
      (replayedEntries P md checkpointLsn lsn reads).bind fun es =>
        (replayedEntries P md checkpointLsn lsn reads').map (es ++ ·) := by
  unfold replayedEntries
  rw [List.mapM_append]
  rcases reads.mapM (replayedEntry P md checkpointLsn lsn) with - | es
  · rfl
  · rcases reads'.mapM (replayedEntry P md checkpointLsn lsn) with - | es'
    · rfl
    · exact congrArg some List.flatten_append

/-- At most one entry is made of a record, and none of one that is not behind the checkpoint. -/
theorem length_replayedEntry {md : MetadataDir} {lsn : UInt64} {read : WalRead}
    {es : List MemtableEntry} (h : replayedEntry P md checkpointLsn lsn read = some es) :
    es.length ≤ if behind checkpointLsn read then 1 else 0 := by
  unfold replayedEntry at h
  split at h
  · cases h
    exact Nat.zero_le _
  · rename_i entry hentry
    split_ifs at h with hskip
    · cases h
      exact Nat.zero_le _
    · have hlt : checkpointLsn < entry.lsn := UInt64.not_le.mp (not_or.mp hskip).2
      have hbehind : behind checkpointLsn read = true := by simp [behind, hentry, hlt]
      rw [hbehind, if_pos rfl]
      obtain ⟨⟨frame, valid⟩, -, h⟩ := Option.bind_eq_some_iff.mp h
      dsimp only at h
      split at h
      · cases h
        exact Nat.zero_le _
      · obtain ⟨timestamp, -, rfl⟩ := Option.map_eq_some_iff.mp h
        exact le_refl 1

/-- No more entries are made than records are behind the checkpoint. -/
theorem length_replayedEntries {md : MetadataDir} {lsn : UInt64} {reads : List WalRead}
    {es : List MemtableEntry} (h : replayedEntries P md checkpointLsn lsn reads = some es) :
    es.length ≤ reads.countP (behind checkpointLsn) := by
  induction reads generalizing es with
  | nil =>
    cases h
    exact Nat.zero_le _
  | cons read reads ih =>
    rw [replayedEntries_cons] at h
    obtain ⟨es₁, hread, h⟩ := Option.bind_eq_some_iff.mp h
    obtain ⟨es₂, hreads, rfl⟩ := Option.map_eq_some_iff.mp h
    have hlen := length_replayedEntry hread
    have hrest := ih hreads
    rw [List.length_append, List.countP_cons]
    omega

/-- A round of the loop. -/
theorem walReplayEntry_rel {s : Store} {es : List MemtableEntry} (read : WalRead)
    (h : s.Refilled cfg d w es) :
    Option.Rel (fun s' e => s'.Refilled cfg d w (es ++ e)) (walReplayEntry P checkpointLsn s read)
      (replayedEntry P d.metadata checkpointLsn w.lsn read) := by
  have hkeep : s.Refilled cfg d w (es ++ []) := (List.append_nil es).symm ▸ h
  obtain ⟨⟨mt, hmt⟩, hpending, hjobs, rfl, rfl⟩ := h
  unfold replayedEntry walReplayEntry
  rcases read.1 with - | entry
  · exact .some hkeep
  · dsimp only
    split_ifs with hskip
    · exact .some hkeep
    · rcases frameParse entry.op with - | ⟨frame, valid⟩
      · exact .none
      · rw [Option.bind_some, Option.bind_some]
        dsimp only
        rcases metadataGet s.disk.metadata frame.header.streamId with - | md
        · exact .some hkeep
        · dsimp only
          rcases metadataTimestamp P md (UInt64.ofNat read.2) with - | timestamp
          · exact .none
          · obtain ⟨mt', full, happend, hcap, hentries⟩ :=
              multiMemtableAppend_cases (frame.entry timestamp s.wal.lsn) (hmt.2 ▸ cfg.entries_pos)
            rw [Store.pending, hmt.1, List.flatMap_append, List.flatMap_singleton] at hpending
            rw [Option.map_some, Option.bind_some, hmt.1, happend, Option.map_some]
            refine .some ⟨⟨mt', rfl, hcap.trans hmt.2⟩, ?_, fun hlen => ?_, rfl, rfl⟩
            · rcases hentries with ⟨-, hentries, rfl⟩ | ⟨-, hentries, rfl⟩
              · simp [Store.pending, hentries, ← hpending]
              · simp [Store.pending, hentries, ← hpending]
            · rw [List.length_append, List.length_singleton] at hlen
              rcases hentries with ⟨-, -, rfl⟩ | ⟨hfull, -, -⟩
              · dsimp only
                rw [hjobs (by omega)]
                rfl
              · rw [← hpending, List.length_append, hfull, hmt.2] at hlen
                omega

variable {sched : Store → Option Store} {bounded : Prop}

/-- The loop over the records of a segment, with flushes that do not run while it lasts, or with
room in the memtable for what it makes of the records. -/
theorem foldlM_walReplayEntry_rel
    (hsched : ∀ s, (bounded → s.jobs = []) → sched s = some s) {s : Store}
    {es : List MemtableEntry} {reads : List WalRead} (h : s.Refilled cfg d w es)
    (hroom : bounded →
      es.length + reads.countP (behind checkpointLsn) ≤ cfg.entries.toNat) :
    Option.Rel (fun s' e => s'.Refilled cfg d w (es ++ e))
      (reads.foldlM (fun s read => (walReplayEntry P checkpointLsn s read).bind sched) s)
      (replayedEntries P d.metadata checkpointLsn w.lsn reads) := by
  let R : List WalRead → Store → List MemtableEntry → Prop := fun reads s es =>
    s.Refilled cfg d w es ∧
      (bounded → es.length + reads.countP (behind checkpointLsn) ≤ cfg.entries.toNat)
  have hstep : ∀ read reads s es, R (read :: reads) s es →
      Option.Rel (fun s' e => R reads s' (es ++ e))
        ((walReplayEntry P checkpointLsn s read).bind sched)
        (replayedEntry P d.metadata checkpointLsn w.lsn read) := by
    rintro read reads s es ⟨hs, hroom⟩
    rw [List.countP_cons] at hroom
    rw [← Option.bind_fun_some (replayedEntry P d.metadata checkpointLsn w.lsn read)]
    refine rel_bind (rel_and_right (walReplayEntry_rel read hs) fun e => length_replayedEntry) ?_
    rintro s' e ⟨hs', hlen⟩
    have hroom' : bounded →
        (es ++ e).length + reads.countP (behind checkpointLsn) ≤ cfg.entries.toNat := by
      intro hbounded
      have := hroom hbounded
      rw [List.length_append]
      omega
    rw [hsched s' fun hbounded => hs'.jobs ((Nat.le_add_right _ _).trans (hroom' hbounded))]
    exact .some ⟨hs', hroom'⟩
  exact rel_mono (foldlM_rel hstep ⟨h, hroom⟩) fun _ _ h => h.1

/-- The loop over segments of the directory. -/
theorem foldlM_walReplaySegment_rel
    (hsched : ∀ s, (bounded → s.jobs = []) → sched s = some s) {s : Store}
    {es : List MemtableEntry} {ss : List Segment} {reads : List WalRead}
    (h : s.Refilled cfg d w es)
    (hfind : ∀ seg ∈ ss, d.wal.segments.find? (·.segno = seg.segno) = some seg)
    (hreads : walReads ss = some reads)
    (hroom : bounded →
      es.length + reads.countP (behind checkpointLsn) ≤ cfg.entries.toNat) :
    Option.Rel (fun s' e => s'.Refilled cfg d w (es ++ e))
      ((ss.map Segment.segno).foldlM (walReplaySegment P sched checkpointLsn) s)
      (replayedEntries P d.metadata checkpointLsn w.lsn reads) := by
  induction ss generalizing s es reads with
  | nil =>
    cases hreads
    exact .some ((List.append_nil es).symm ▸ h)
  | cons seg ss ih =>
    obtain ⟨reads₁, hscan, hreads⟩ := Option.bind_eq_some_iff.mp hreads
    obtain ⟨reads₂, hreads₂, rfl⟩ := Option.map_eq_some_iff.mp hreads
    rw [List.countP_append] at hroom
    have hsegment : walReplaySegment P sched checkpointLsn s seg.segno =
        reads₁.foldlM (fun s read => (walReplayEntry P checkpointLsn s read).bind sched) s := by
      simp only [walReplaySegment, h.disk, hfind seg List.mem_cons_self, hscan, Option.bind_some]
    rw [List.map_cons, List.foldlM_cons, hsegment, replayedEntries_append]
    have hroom₁ : bounded →
        es.length + reads₁.countP (behind checkpointLsn) ≤ cfg.entries.toNat := by
      intro hbounded
      have := hroom hbounded
      omega
    have hfirst := @foldlM_walReplayEntry_rel P cfg d w checkpointLsn sched bounded hsched s es
      reads₁ h hroom₁
    refine rel_bind (rel_and_right hfirst fun e => length_replayedEntries) ?_
    rintro s' es₁ ⟨hs', hlen⟩
    have hroom₂ : bounded →
        (es ++ es₁).length + reads₂.countP (behind checkpointLsn) ≤ cfg.entries.toNat := by
      intro hbounded
      have := hroom hbounded
      rw [List.length_append]
      omega
    have hrest := ih hs' (fun seg hseg => hfind seg (List.mem_cons_of_mem _ hseg)) hreads₂ hroom₂
    exact rel_map_right (rel_mono hrest fun t es₂ ht => by rwa [← List.append_assoc])

/-- **A replay in which no flush runs** is undefined where making an entry of a record is, and puts
the entries of the records behind the ones that are there; nothing else changes. No flush runs if
flushes wait until the replay is over, or if the memtable has room for all entries. -/
theorem walReplay_rel (hsched : ∀ s, (bounded → s.jobs = []) → sched s = some s) {s : Store}
    {es : List MemtableEntry} {reads : List WalRead} (h : s.Refilled cfg d w es)
    (hnodup : (d.wal.segments.map Segment.segno).Nodup)
    (hreads : walReads d.wal.segments = some reads)
    (hroom : bounded →
      es.length + reads.countP (behind (walCheckpointLsn d.wal)) ≤ cfg.entries.toNat) :
    Option.Rel (fun s' e => s'.Refilled cfg d w (es ++ e)) (walReplay P sched s)
      (replayedEntries P d.metadata (walCheckpointLsn d.wal) w.lsn reads) := by
  have hfind : ∀ seg ∈ d.wal.segments, d.wal.segments.find? (·.segno = seg.segno) = some seg :=
    fun seg hseg => WalDir.find?_segno hnodup hseg
  rw [walReplay, h.disk]
  exact foldlM_walReplaySegment_rel hsched h hfind hreads hroom

/-- The start of the server leaves an empty memtable. -/
theorem Store.start_refilled (cfg : Config) (disk : Disk) (offsets : Offsets) :
    (Store.start cfg disk offsets).Refilled cfg (Store.start cfg disk offsets).disk
      (Store.start cfg disk offsets).wal [] :=
  ⟨⟨_, Store.start_mmt .., rfl⟩, by rw [Store.pending, Store.start_mmt]; rfl, fun _ => rfl, rfl,
    rfl⟩

end Racs
