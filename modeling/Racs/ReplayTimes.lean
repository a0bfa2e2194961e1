import Racs.WalReplay
import Mathlib.Data.List.Forall2
import Mathlib.Data.List.Induction
import Mathlib.Data.UInt

/-!
# The replay and the live path

What a replay inserts, compared with what the appends stored. Both take the frame apart in the same
way, but `racs_stream_append` computes the timestamp of a block from the offset into the audio of
its stream, and `racs_wal_replay` from the position in the segment behind its record. In a run
without flushes the two agree on a block exactly if these two give the same time.

## Main definitions

* `Racs.LoggedFrame`, `Racs.loggedFrames` — where the frames of a run lie in the log and in the
  audio of their streams.
* `Racs.ReplaysLive` — the replay inserts the entries that the appends stored.

## Main results

* `Racs.Store.Recorded.exec` — the log, the offsets and the entries after a run without flushes.
* `Racs.replaysLive_iff` — when the replay inserts what the appends stored.
-/

namespace Racs

open PartialRun ByteBuffer

/-! ### Positions and offsets of frames -/

/-- A frame in the log: the number of its record, the position behind the record in its segment,
and the offset into the audio of its stream at which the block begins. -/
structure LoggedFrame where
  lsn : UInt64
  frame : Frame
  position : ℕ
  offset : UInt64

/-- The size of the record of a frame. -/
def recordSize (frame : Frame) : ℕ := 24 + (34 + frame.header.blockSize.toNat)

/-- The position behind the record that was logged last. -/
def lastPosition (l : List LoggedFrame) : ℕ := (l.getLast?.map LoggedFrame.position).getD 0

/-- The position behind the next record: a record that would fill the segment starts a new one. -/
def nextPosition (l : List LoggedFrame) (frame : Frame) : ℕ :=
  if walSize64MB ≤ lastPosition l + recordSize frame then recordSize frame
  else lastPosition l + recordSize frame

/-- The audio of a stream so far, in bytes. -/
def streamOffset (P : Platform) (l : List LoggedFrame) (streamId : UInt64) : UInt64 :=
  ((l.filter (·.frame.header.streamId = streamId)).map fun r => r.frame.decodedSize P).sum

/-- The frames with one more behind them. -/
def logFrame (P : Platform) (l : List LoggedFrame) (frame : Frame) : List LoggedFrame :=
  l ++ [⟨UInt64.ofNat l.length, frame, nextPosition l frame,
    streamOffset P l frame.header.streamId⟩]

/-- Where the frames lie that are logged one after the other in an empty directory. -/
def loggedFrames (P : Platform) (frames : List Frame) : List LoggedFrame :=
  frames.foldl (logFrame P) []

/-! ### What is compared -/

/-- An entry without the number that it carries. -/
def MemtableEntry.payload (e : MemtableEntry) :
    (UInt64 × UInt64) × List UInt8 × UInt16 × UInt32 × UInt8 :=
  (e.key, e.block, e.blockSize, e.checksum, e.flags)

/-- The number of the record of an accepted append, and its entry. -/
def Output.append? : Output → Option (UInt64 × MemtableEntry)
  | .accepted lsn e => some (lsn, e)
  | _ => none

/-- The entries of the accepted appends whose records are behind the checkpoint. -/
def liveEntries (checkpointLsn : UInt64) (ps : List (UInt64 × MemtableEntry)) :
    List MemtableEntry :=
  (ps.filter (checkpointLsn < ·.1)).map Prod.snd

/-- A restart on the disk of the store and a replay of its log insert, of the records behind the
checkpoint, the entries that the appends stored, apart from their numbers and in the same order. The
flushes that the replay causes run later. -/
def ReplaysLive (P : Platform) (cfg : Config) (offsets : Offsets) (s : Store)
    (os : List Output) : Prop :=
  ∃ t, walReplay P some (Store.start cfg s.disk offsets) = some t ∧
    t.pending.map MemtableEntry.payload =
      (liveEntries (walCheckpointLsn s.disk.wal) (os.filterMap Output.append?)).map
        MemtableEntry.payload

/-- The position behind the record of a frame and the offset into the audio of its stream give the
same time. -/
def LoggedFrame.SameTime (P : Platform) (md : MetadataDir) (r : LoggedFrame) : Prop :=
  ∀ m ∈ metadataGet md r.frame.header.streamId,
    metadataTimestamp P m (UInt64.ofNat r.position) = metadataTimestamp P m r.offset

instance (P : Platform) (md : MetadataDir) (r : LoggedFrame) : Decidable (r.SameTime P md) :=
  inferInstanceAs (Decidable (∀ m ∈ metadataGet md r.frame.header.streamId, _))

variable {P : Platform} {cfg : Config}

/-! ### The log and the entries of a run -/

/-- A read of the log meets the record of the frame. -/
def ReadsFrame (read : WalRead) (r : LoggedFrame) : Prop :=
  ∃ entry valid, read = (some entry, r.position) ∧ entry.lsn = r.lsn ∧
    crc32c 0 entry.op = entry.checksum ∧ frameParse entry.op = some (r.frame, valid)

/-- The append of the frame stored the entry under the time of its offset. -/
def StoresFrame (P : Platform) (md : MetadataDir) (r : LoggedFrame)
    (p : UInt64 × MemtableEntry) : Prop :=
  p.1 = r.lsn ∧ ∃ m timestamp, metadataGet md r.frame.header.streamId = some m ∧
    metadataTimestamp P m r.offset = some timestamp ∧ p.2 = r.frame.entry timestamp (r.lsn + 1)

theorem StoresFrame.mono {md md' : MetadataDir} (hmd : MetadataExtends md md') {r : LoggedFrame}
    {p : UInt64 × MemtableEntry} (h : StoresFrame P md r p) : StoresFrame P md' r p := by
  obtain ⟨hlsn, m, timestamp, hm, htime, he⟩ := h
  exact ⟨hlsn, m, timestamp, hmd _ _ hm, htime, he⟩

/-- The store after a run without flushes that accepted the frames `l` as the entries `ps`. -/
structure Store.Recorded (P : Platform) (cfg : Config) (l : List LoggedFrame)
    (ps : List (UInt64 × MemtableEntry)) (s : Store) : Prop where
  hasMemtable : ∃ mt, s.HasMemtable cfg mt
  manifest : s.disk.wal.manifest = none
  counter : s.wal.lsn = UInt64.ofNat l.length
  size : s.wal.size = lastPosition l
  log : ∃ init last, WalLayout s.disk.wal s.wal init last ∧
    s.wal.size = last.segment.data.length ∧
    List.Forall₂ ReadsFrame ((init ++ [last]).flatMap fun g => readsOf 0 g.records) l
  exact_ops : s.offsets.ops.Exact
  offsets : ∀ streamId, offsetsGet s.offsets streamId = streamOffset P l streamId
  stored : List.Forall₂ (StoresFrame P s.disk.metadata) l ps

theorem Store.init_recorded (P : Platform) (cfg : Config) :
    (Store.init cfg).Recorded P cfg [] [] where
  hasMemtable := ⟨_, Store.init_hasMemtable cfg⟩
  manifest := rfl
  counter := (walLayout_create_empty none).2
  size := rfl
  log := ⟨[], ⟨0, []⟩, (walLayout_create_empty none).1, rfl, .nil⟩
  exact_ops := streamIdOps_exact
  offsets := fun _ => rfl
  stored := .nil

theorem length_appendOp {frame : Frame} {data : List UInt8}
    (h : 34 + frame.header.blockSize.toNat ≤ data.length) :
    (appendOp frame data).op.length = 34 + frame.header.blockSize.toNat := by
  rw [appendOp, List.length_take, min_eq_left h]

/-- The record of an accepted frame is read as the frame. -/
theorem readsFrame_of_stored {s s' : Store} {data : List UInt8} {frame : Frame} {md : Metadata}
    {timestamp : Int64} {mt mt' : Memtable} (h : Stored P s s' data frame md timestamp mt mt')
    (r : LoggedFrame) (hframe : r.frame = frame) (hlsn : r.lsn = s.wal.lsn) :
    ReadsFrame (some ((appendOp frame data).entry s.wal.lsn), r.position) r := by
  refine ⟨_, true, rfl, hlsn.symm, rfl, ?_⟩
  have hlen := length_of_frameParse h.parse
  dsimp only at hlen
  have hparse := h.parse
  rw [← List.take_append_drop (34 + frame.header.blockSize.toNat) data] at hparse
  rw [hframe]
  exact frameParse_of_append hparse (length_appendOp hlen).ge

theorem streamOffset_logFrame (l : List LoggedFrame) (frame : Frame) (streamId : UInt64) :
    streamOffset P (logFrame P l frame) streamId =
      if streamId = frame.header.streamId
      then streamOffset P l frame.header.streamId + frame.decodedSize P
      else streamOffset P l streamId := by
  unfold streamOffset logFrame
  rw [List.filter_append, List.map_append]
  split_ifs with h
  · subst h
    simp
  · simp [Ne.symm h]

theorem length_logFrame (l : List LoggedFrame) (frame : Frame) :
    (logFrame P l frame).length = l.length + 1 := by
  rw [logFrame, List.length_append, List.length_singleton]

theorem lastPosition_logFrame (l : List LoggedFrame) (frame : Frame) :
    lastPosition (logFrame P l frame) = nextPosition l frame := by
  rw [lastPosition, logFrame, List.getLast?_concat]
  rfl

/-- An accepted append adds its frame. -/
theorem Store.Recorded.append {s s' : Store} {l : List LoggedFrame}
    {ps : List (UInt64 × MemtableEntry)} {data : List UInt8} {frame : Frame} {md : Metadata}
    {timestamp : Int64} {mt mt' : Memtable} (h : s.Recorded P cfg l ps)
    (hmt : s.HasMemtable cfg mt) (hstored : Stored P s s' data frame md timestamp mt mt') :
    s'.Recorded P cfg (logFrame P l frame)
      (ps ++ [(s.wal.lsn, frame.entry timestamp (s.wal.lsn + 1))]) := by
  have hop := length_appendOp (length_of_frameParse hstored.parse)
  have hsize : (walAppend s.disk.wal s.wal (appendOp frame data)).2.size =
      nextPosition l frame := by
    rw [walAppend_size, hop, h.size]
    rfl
  obtain ⟨init, last, hlayout, hlast, hreads⟩ := h.log
  obtain ⟨init', last', hlayout', hlast', hreads'⟩ :=
    hlayout.append_reads hlast (appendOp frame data)
  refine ⟨⟨mt', hstored.mmt, hstored.capacity.trans hmt.2⟩, ?_, ?_, ?_, ?_, ?_, ?_, ?_⟩
  · rw [hstored.disk]
    exact (walAppend_manifest _ _ _).trans h.manifest
  · rw [hstored.wal, walAppend_lsn, h.counter, length_logFrame, UInt64.ofNat_add]
    rfl
  · rw [hstored.wal, hsize, lastPosition_logFrame]
  · rw [hstored.disk, hstored.wal]
    refine ⟨init', last', hlayout', hlast', ?_⟩
    rw [hreads', hsize]
    exact List.rel_append hreads
      (.cons (readsFrame_of_stored hstored ⟨_, frame, _, _⟩ rfl h.counter.symm) .nil)
  · rw [hstored.offsets]
    exact h.exact_ops
  · intro streamId
    rw [hstored.offsets, offsetsGet_put h.exact_ops, streamOffset_logFrame, h.offsets, h.offsets]
  · rw [hstored.disk]
    refine List.rel_append h.stored
      (.cons ⟨h.counter, md, timestamp, hstored.metadata, ?_, ?_⟩ .nil)
    · rw [← h.offsets]
      exact hstored.time
    · rw [h.counter]

/-- **The log, the offsets and the entries** after a run without flushes. -/
theorem Store.Recorded.exec {s : Store} {evs : List Event} {os : List Output}
    (hrun : exec (step P) (Store.init cfg) evs = some (s, os)) (hflush : flushedMemtables os = []) :
    s.Recorded P cfg (loggedFrames P (acceptedFrames evs os)) (os.filterMap Output.append?) := by
  induction evs using List.reverseRecOn generalizing s os with
  | nil =>
    obtain ⟨rfl, rfl⟩ : Store.init cfg = s ∧ [] = os := by simpa using hrun
    exact Store.init_recorded P cfg
  | append_singleton evs ev ih =>
    obtain ⟨m, os₁, o, hevs, hstep, rfl⟩ := exec_concat_eq_some.mp hrun
    rw [flushedMemtables_append, List.append_eq_nil_iff] at hflush
    have h := ih hevs hflush.1
    obtain ⟨mt, hmt⟩ := h.hasMemtable
    rw [acceptedFrames_concat (length_outputs hevs), List.filterMap_append, loggedFrames,
      List.foldl_append]
    rcases step_cases hmt hstep with ⟨rfl, md, kv, hmd, rfl⟩ |
      ⟨data, frame, md, timestamp, mt', rfl, rfl, hstored⟩ | ⟨i, full, disk, -, rfl, -, -, -⟩
    · have hnone : acceptedFrame (ev, Output.other) = none := by cases ev <;> rfl
      rw [hnone]
      exact ⟨h.hasMemtable, h.manifest, h.counter, h.size, h.log, h.exact_ops, h.offsets,
        (List.append_nil (os₁.filterMap Output.append?)).symm ▸
          h.stored.imp fun _ _ hp => hp.mono hmd⟩
    · have hframe : acceptedFrame (.append data,
          .accepted m.wal.lsn (frame.entry timestamp (m.wal.lsn + 1))) = some frame := by
        rw [acceptedFrame, hstored.parse, Option.map_some]
      rw [hframe]
      exact h.append hmt hstored
    · cases hflush.2

/-! ### What the replay makes of the log -/

section Compare

variable {md : MetadataDir} {checkpointLsn lsn : UInt64}

/-- The entry that the replay makes of the record of a frame. -/
theorem replayedEntry_of_readsFrame {read : WalRead} {r : LoggedFrame} {m : Metadata}
    (h : ReadsFrame read r) (hlt : checkpointLsn < r.lsn)
    (hm : metadataGet md r.frame.header.streamId = some m) :
    replayedEntry P md checkpointLsn lsn read =
      (metadataTimestamp P m (UInt64.ofNat r.position)).map fun timestamp =>
        [r.frame.entry timestamp lsn] := by
  obtain ⟨entry, valid, rfl, hlsn, hchecksum, hparse⟩ := h
  have hskip : ¬ (crc32c 0 entry.op ≠ entry.checksum ∨ entry.lsn ≤ checkpointLsn) := by
    rw [hlsn, not_or, not_not, UInt64.not_le]
    exact ⟨hchecksum, hlt⟩
  simp only [replayedEntry, if_neg hskip, hparse, Option.bind_some, hm]

/-- A frame that is not behind the checkpoint is skipped. -/
theorem replayedEntry_of_le {read : WalRead} {r : LoggedFrame} (h : ReadsFrame read r)
    (hle : r.lsn ≤ checkpointLsn) : replayedEntry P md checkpointLsn lsn read = some [] := by
  obtain ⟨entry, valid, rfl, hlsn, -, -⟩ := h
  exact if_pos (.inr (hlsn ▸ hle))

/-- Entries of one frame are the same exactly if their timestamps are. -/
theorem payload_entry_inj {frame : Frame} {timestamp timestamp' : Int64} {lsn lsn' : UInt64} :
    (frame.entry timestamp lsn).payload = (frame.entry timestamp' lsn').payload ↔
      timestamp = timestamp' := by
  constructor
  · intro h
    exact congrArg (fun p => p.1.2.toInt64) h
  · rintro rfl
    rfl

/-- **Comparing entry by entry**: the replay makes of the records what the appends stored exactly if
the positions in the log give the times of the offsets. -/
theorem replayedEntries_eq_live_iff {reads : List WalRead} {l : List LoggedFrame}
    {ps : List (UInt64 × MemtableEntry)} (hreads : List.Forall₂ ReadsFrame reads l)
    (hstored : List.Forall₂ (StoresFrame P md) l ps) :
    (∃ es, replayedEntries P md checkpointLsn lsn reads = some es ∧
        es.map MemtableEntry.payload =
          (liveEntries checkpointLsn ps).map MemtableEntry.payload) ↔
      ∀ r ∈ l, checkpointLsn < r.lsn → r.SameTime P md := by
  induction hreads generalizing ps with
  | nil =>
    cases hstored
    exact iff_of_true ⟨[], rfl, rfl⟩ fun r hr => absurd hr List.not_mem_nil
  | @cons read r reads l hread _ ih =>
    obtain - | ⟨⟨hlsn, m, timestamp, hm, htime, he⟩, hstored⟩ := hstored
    rename_i p ps
    rw [List.forall_mem_cons, ← ih hstored, replayedEntries_cons]
    by_cases hlt : checkpointLsn < r.lsn
    · have hlive : liveEntries checkpointLsn (p :: ps) =
          r.frame.entry timestamp (r.lsn + 1) :: liveEntries checkpointLsn ps := by
        rw [liveEntries, List.filter_cons_of_pos (by simpa [hlsn] using hlt), List.map_cons, he]
        rfl
      have hhead : (checkpointLsn < r.lsn → r.SameTime P md) ↔
          metadataTimestamp P m (UInt64.ofNat r.position) = some timestamp := by
        simp [LoggedFrame.SameTime, hlt, hm, htime]
      rw [hlive, hhead, replayedEntry_of_readsFrame hread hlt hm]
      rcases metadataTimestamp P m (UInt64.ofNat r.position) with - | timestamp'
      · simp
      · simp only [Option.map_some, Option.bind_some, Option.map_eq_some_iff, List.map_cons,
          Option.some.injEq]
        constructor
        · rintro ⟨_, ⟨es, hes, rfl⟩, heq⟩
          rw [List.singleton_append, List.map_cons, List.cons.injEq, payload_entry_inj] at heq
          exact ⟨heq.1, es, hes, heq.2⟩
        · rintro ⟨rfl, es, hes, heq⟩
          refine ⟨_, ⟨es, hes, rfl⟩, ?_⟩
          rw [List.singleton_append, List.map_cons, heq, payload_entry_inj.mpr rfl]
    · have hlive : liveEntries checkpointLsn (p :: ps) = liveEntries checkpointLsn ps := by
        rw [liveEntries, List.filter_cons_of_neg (by simpa [hlsn] using hlt)]
        rfl
      rw [hlive, replayedEntry_of_le hread (UInt64.not_lt.mp hlt)]
      simp [hlt]

end Compare

/-- A restart on the disk of the store reads the log that the run wrote. -/
theorem Store.Recorded.replay_iff {s : Store} {l : List LoggedFrame} {os : List Output}
    (h : s.Recorded P cfg l (os.filterMap Output.append?)) (offsets : Offsets) :
    ReplaysLive P cfg offsets s os ↔
      ∀ r ∈ l, 0 < r.lsn → r.SameTime P s.disk.metadata := by
  obtain ⟨init, last, hlayout, -, hreads⟩ := h.log
  obtain ⟨init', last', hlayout', -, -, hgroups⟩ := hlayout.create
  have hcheckpoint : walCheckpointLsn s.disk.wal = 0 := by
    rw [walCheckpointLsn, h.manifest]
  have hcheckpoint' : walCheckpointLsn (Store.start cfg s.disk offsets).disk.wal = 0 :=
    (walCheckpointLsn_congr (walCreate_manifest _)).trans hcheckpoint
  have hreads' : (init' ++ [last']).flatMap (fun g => readsOf 0 g.records) =
      (init ++ [last]).flatMap fun g => readsOf 0 g.records := by
    rcases hgroups with ⟨rfl, rfl⟩ | ⟨rfl, hnil⟩
    · rfl
    · rw [List.flatMap_append, List.flatMap_singleton, hnil, readsOf, List.append_nil]
  have hrel := @walReplay_rel P cfg _ _ some False (fun _ _ => rfl) _ _ _
    (Store.start_refilled cfg s.disk offsets) hlayout'.nodup_segno hlayout'.walReads_eq False.elim
  rw [hcheckpoint', hreads'] at hrel
  rw [ReplaysLive, hcheckpoint, ← replayedEntries_eq_live_iff hreads h.stored]
  constructor
  · rintro ⟨t, ht, hpayload⟩
    rw [ht] at hrel
    obtain ⟨es, hes, hfilled⟩ := exists_of_rel_some_left hrel
    rw [hfilled.pending, List.nil_append] at hpayload
    exact ⟨es, hes, hpayload⟩
  · rintro ⟨es, hes, hpayload⟩
    have hes' : replayedEntries P (Store.start cfg s.disk offsets).disk.metadata 0
        (Store.start cfg s.disk offsets).wal.lsn
        ((init ++ [last]).flatMap fun g => readsOf 0 g.records) = some es := hes
    rw [hes'] at hrel
    obtain ⟨t, ht, hfilled⟩ := exists_of_rel_some_right hrel
    refine ⟨t, ht, ?_⟩
    rw [hfilled.pending, List.nil_append, hpayload]

/-- **When the replay inserts what the appends stored.** After a run without flushes, a restart
inserts of every record behind the checkpoint the entry that the append stored exactly if, for each
of these frames, the position behind its record in the segment gives the same time as the offset
into the audio of its stream. -/
theorem replaysLive_iff (offsets : Offsets) {s : Store} {evs : List Event} {os : List Output}
    (hrun : exec (step P) (Store.init cfg) evs = some (s, os))
    (hflush : flushedMemtables os = []) :
    ReplaysLive P cfg offsets s os ↔
      ∀ r ∈ loggedFrames P (acceptedFrames evs os), 0 < r.lsn → r.SameTime P s.disk.metadata :=
  (Store.Recorded.exec hrun hflush).replay_iff offsets

/-- Short blocks of a stream at 48 kHz. -/
def fastStream : List Event := opened streamA ++ [sent streamA 1 4, sent streamA 2 4]

/-- Two short blocks at 48 kHz lie in the first millisecond both of the log and of the audio. -/
theorem replaysLive_fastStream : ∃ s os,
    exec (step .rational) (Store.init (.small 8 (by decide))) fastStream = some (s, os) ∧
      ReplaysLive .rational (.small 8 (by decide)) offsetsCreate s os := by
  have hrun : ((exec (step .rational) (Store.init (.small 8 (by decide))) fastStream).map
      fun r : Store × List Output => (flushedMemtables r.2,
        decide (∀ x ∈ loggedFrames .rational (acceptedFrames fastStream r.2),
          0 < x.lsn → x.SameTime .rational r.1.disk.metadata))) = some ([], true) := by
    decide +kernel
  obtain ⟨⟨s, os⟩, hrun, heq⟩ := Option.map_eq_some_iff.mp hrun
  obtain ⟨hflush, htimes⟩ := Prod.mk.inj heq
  exact ⟨s, os, hrun, (replaysLive_iff offsetsCreate hrun hflush).mpr (of_decide_eq_true htimes)⟩

/-- A stream of mono audio at 1 kHz. -/
def slowStream : List Event :=
  [.create streamA 1000 1 16 1000, .openStream (racsHash streamA), sent streamA 1 4,
    sent streamA 2 4]

/-- The second block of the slow stream begins at two milliseconds, and the position behind its
record is that of 62 milliseconds. -/
theorem not_replaysLive_slowStream : ∃ s os,
    exec (step .rational) (Store.init (.small 8 (by decide))) slowStream = some (s, os) ∧
      flushedMemtables os = [] ∧
      ¬ ReplaysLive .rational (.small 8 (by decide)) offsetsCreate s os := by
  have hrun : ((exec (step .rational) (Store.init (.small 8 (by decide))) slowStream).map
      fun r : Store × List Output => (flushedMemtables r.2,
        decide (∀ x ∈ loggedFrames .rational (acceptedFrames slowStream r.2),
          0 < x.lsn → x.SameTime .rational r.1.disk.metadata))) = some ([], false) := by
    decide +kernel
  obtain ⟨⟨s, os⟩, hrun, heq⟩ := Option.map_eq_some_iff.mp hrun
  obtain ⟨hflush, htimes⟩ := Prod.mk.inj heq
  refine ⟨s, os, hrun, hflush, fun hlive => ?_⟩
  exact of_decide_eq_false htimes (((Store.Recorded.exec hrun hflush).replay_iff _).mp hlive)

end Racs
