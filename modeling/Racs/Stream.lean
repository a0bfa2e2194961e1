import Racs.Flush
import Racs.KvStore

/-!
# Appending to streams

The running server keeps the data directory, the log, the list of memtables, the memtables that
were handed to detached flushes, the offset into the audio of each stream and the session of each
open stream. `streamAppend` is `racs_stream_append` (`stream.c`): a frame that is well formed,
belongs to the session of an open stream and to a stream with metadata is logged and put into the
memtable under the time of the current offset, and the offset moves forward by the size of the
audio.

## Main definitions

* `Racs.Store`, `Racs.Config`, `Racs.Store.init`.
* `Racs.streamCreate`, `Racs.streamOpen`, `Racs.streamClose`, `Racs.streamAppend`.

## Main results

* `Racs.stored_of_streamAppend`, `Racs.streamAppend_rejected` — what an accepted and a rejected
  frame change.
-/

namespace Racs

/-! ### The state of the server -/

/-- What the configuration fixes: the number of memtables, the capacity of each, which is stored in
16 bits, and the capacity of the session table. -/
structure Config where
  tables : ℕ
  entries : UInt16
  cacheEntries : ℕ
  tables_pos : 0 < tables
  entries_pos : 0 < entries.toNat
  cacheEntries_pos : 0 < cacheEntries

/-- `racs_offsets`. -/
abbrev Offsets := KvStore UInt64 UInt64

/-- `racs_streamkv`: the session id of every open stream. -/
abbrev StreamKv := KvStore UInt64 (List UInt8)

/-- The state of the server. -/
structure Store where
  disk : Disk
  wal : Wal
  mmt : MultiMemtable
  /-- The memtables handed to `racs_memtable_flush_async` whose flush has not run. -/
  jobs : List Memtable
  offsets : Offsets
  kv : StreamKv

/-- `racs_offsets_create`. -/
def offsetsCreate : Offsets := kvstoreCreate 1048576 (by decide) streamIdOps

/-- `racs_offsets_get`. -/
def offsetsGet (offsets : Offsets) (streamId : UInt64) : UInt64 :=
  (kvstoreGet offsets streamId).getD 0

/-- `racs_offsets_put`. -/
def offsetsPut (offsets : Offsets) (streamId offset : UInt64) : Offsets :=
  kvstorePut offsets streamId offset

/-- A kept offset after a put. -/
theorem offsetsGet_put {offsets : Offsets} (hops : offsets.ops.Exact)
    (streamId offset streamId' : UInt64) :
    offsetsGet (offsetsPut offsets streamId offset) streamId' =
      if streamId' = streamId then offset else offsetsGet offsets streamId' := by
  rw [offsetsGet, offsetsPut, kvstoreGet_put hops]
  split_ifs <;> rfl

/-- The start of the server on a data directory, with given offsets. -/
def Store.start (cfg : Config) (disk : Disk) (offsets : Offsets) : Store where
  disk := { disk with wal := (walCreate disk.wal).1 }
  wal := (walCreate disk.wal).2
  mmt := multiMemtableCreate cfg.tables cfg.entries
  jobs := []
  offsets := offsets
  kv := kvstoreCreate cfg.cacheEntries cfg.cacheEntries_pos streamIdOps

/-- The first start, on an empty data directory. -/
def Store.init (cfg : Config) : Store := Store.start cfg ⟨WalDir.empty, ∅, ∅⟩ offsetsCreate

theorem Store.start_mmt (cfg : Config) (disk : Disk) (offsets : Offsets) :
    (Store.start cfg disk offsets).mmt = [memtableCreate cfg.entries] := by
  obtain ⟨n, hn⟩ := Nat.exists_eq_succ_of_ne_zero cfg.tables_pos.ne'
  rw [Store.start, hn]
  exact multiMemtableCreate_succ n cfg.entries

/-! ### Streams -/

/-- `racs_stream_create`: the metadata of an existing stream stay as they are. -/
def streamCreate (md : MetadataDir) (streamId : { id : List UInt8 // 0 ∉ id })
    (sampleRate : UInt32) (channels bitDepth : UInt16) (now : Int64) : MetadataDir × Bool :=
  match metadataGet md (racsHash streamId) with
  | some _ => (md, false)
  | none =>
    (metadataPut md ⟨channels, bitDepth, sampleRate, now, -1, streamId, streamId.2⟩
      (racsHash streamId), true)

/-- `racs_stream_open`: a new session id of sixteen zeros. -/
def streamOpen (kv : StreamKv) (streamId : UInt64) : StreamKv × Bool :=
  match kvstoreGet kv streamId with
  | some _ => (kv, false)
  | none => (kvstorePut kv streamId (List.replicate 16 0), true)

/-- `racs_stream_close`. -/
def streamClose (kv : StreamKv) (streamId : UInt64) : StreamKv × Bool :=
  match kvstoreGet kv streamId with
  | none => (kv, false)
  | some _ => (kvstoreDelete kv streamId, true)

/-- `racs_session_cmp`. -/
def sessionCmp (src dest : List UInt8) : Bool := dest = List.replicate 16 0 ∨ src = dest

/-- `racs_stream_status`. -/
inductive StreamStatus
  | ok
  | malformed
  | conflict
  | notFound
  deriving DecidableEq

/-- The number of bytes of audio in a block: with `flags == 1` the size after decompression, or zero
when that fails, and the size of the block otherwise. -/
def decodedSize (P : Platform) (flags : UInt8) (blockSize : UInt16) (block : List UInt8) : UInt64 :=
  if flags = 1 then
    match P.zstdDecompress block with
    | some decompressed => UInt64.ofNat decompressed.length
    | none => 0
  else blockSize.toUInt64

/-- The number of bytes of audio in a frame. -/
def Frame.decodedSize (P : Platform) (frame : Frame) : UInt64 :=
  Racs.decodedSize P frame.header.flags frame.header.blockSize frame.pcmBlock

/-- The operation that `racs_stream_append` logs: the header and the block of the frame. -/
def appendOp (frame : Frame) (data : List UInt8) : WalOp where
  opCode := 0
  op := data.take (34 + frame.header.blockSize.toNat)
  size_lt := by
    have hle := List.length_take_le (34 + frame.header.blockSize.toNat) data
    have hlt := frame.header.blockSize.toNat_lt
    omega

/-- The part of `racs_stream_append` behind its checks. -/
def streamStore (P : Platform) (s : Store) (data : List UInt8) (frame : Frame) (md : Metadata) :
    Option Store :=
  let kv := kvstorePut s.kv frame.header.streamId frame.header.sessionId
  let offset := offsetsGet s.offsets frame.header.streamId
  (metadataTimestamp P md offset).bind fun timestamp =>
  let (walDir, wal) := walAppend s.disk.wal s.wal (appendOp frame data)
  (multiMemtableAppend s.mmt (frame.entry timestamp wal.lsn)).map fun (mmt, full) =>
    { disk := { s.disk with wal := walDir }
      wal := wal
      mmt := mmt
      jobs := s.jobs ++ full.toList
      offsets := offsetsPut s.offsets frame.header.streamId (offset + frame.decodedSize P)
      kv := kv }

/-- `racs_stream_append`. -/
def streamAppend (P : Platform) (s : Store) (data : List UInt8) : Option (Store × StreamStatus) :=
  (frameParse data).bind fun (frame, valid) =>
  if valid = false then some (s, .malformed)
  else match kvstoreGet s.kv frame.header.streamId with
  | none => some (s, .conflict)
  | some sessionId =>
    if sessionCmp frame.header.sessionId sessionId = false then some (s, .conflict)
    else match metadataGet s.disk.metadata frame.header.streamId with
    | none => some (s, .notFound)
    | some md => (streamStore P s data frame md).map (·, .ok)

variable {P : Platform} {s s' : Store} {data : List UInt8}

/-- **What appending a frame does**: it rejects the frame and changes nothing, or the frame is
valid, of an open stream with metadata and in the session of the stream, and it is stored. -/
theorem streamAppend_cases {status : StreamStatus} (h : streamAppend P s data = some (s', status)) :
    (status ≠ .ok ∧ s' = s) ∨
    (status = .ok ∧ ∃ frame session md, frameParse data = some (frame, true) ∧
      kvstoreGet s.kv frame.header.streamId = some session ∧
      sessionCmp frame.header.sessionId session = true ∧
      metadataGet s.disk.metadata frame.header.streamId = some md ∧
      streamStore P s data frame md = some s') := by
  have hrejected : ∀ {status'}, status' ≠ .ok → (s, status') = (s', status) →
      status ≠ .ok ∧ s' = s := by
    rintro status' hne ⟨⟩
    exact ⟨hne, rfl⟩
  simp only [streamAppend, Option.bind_eq_some_iff, Prod.exists] at h
  obtain ⟨frame, valid, hparse, h⟩ := h
  split_ifs at h with hvalid
  · exact .inl (hrejected StreamStatus.noConfusion (Option.some.inj h))
  · rw [Bool.not_eq_false] at hvalid
    split at h
    · exact .inl (hrejected StreamStatus.noConfusion (Option.some.inj h))
    · rename_i session hsession
      split_ifs at h with hcmp
      · exact .inl (hrejected StreamStatus.noConfusion (Option.some.inj h))
      · rw [Bool.not_eq_false] at hcmp
        split at h
        · exact .inl (hrejected StreamStatus.noConfusion (Option.some.inj h))
        · rename_i md hmd
          obtain ⟨t, ht, heq⟩ := Option.map_eq_some_iff.mp h
          obtain ⟨rfl, rfl⟩ := Prod.mk.inj heq
          exact .inr ⟨rfl, frame, session, md, hvalid ▸ hparse, hsession, hcmp, hmd, ht⟩

/-- An accepted frame is a valid frame of a stream with metadata, and it is stored. -/
theorem streamAppend_ok (h : streamAppend P s data = some (s', .ok)) :
    ∃ frame md, frameParse data = some (frame, true) ∧
      metadataGet s.disk.metadata frame.header.streamId = some md ∧
      streamStore P s data frame md = some s' := by
  obtain ⟨hne, -⟩ | ⟨-, frame, -, md, hparse, -, -, hmd, hstore⟩ := streamAppend_cases h
  · exact absurd rfl hne
  · exact ⟨frame, md, hparse, hmd, hstore⟩

/-- What an accepted frame changes, on a list with one memtable: the log grows by its operation,
the memtable by its entry, and the offset of its stream by its audio. -/
structure Stored (P : Platform) (s s' : Store) (data : List UInt8) (frame : Frame) (md : Metadata)
    (timestamp : Int64) (mt mt' : Memtable) : Prop where
  parse : frameParse data = some (frame, true)
  metadata : metadataGet s.disk.metadata frame.header.streamId = some md
  time : metadataTimestamp P md (offsetsGet s.offsets frame.header.streamId) = some timestamp
  disk : s'.disk = { s.disk with wal := (walAppend s.disk.wal s.wal (appendOp frame data)).1 }
  wal : s'.wal = (walAppend s.disk.wal s.wal (appendOp frame data)).2
  offsets : s'.offsets = offsetsPut s.offsets frame.header.streamId
    (offsetsGet s.offsets frame.header.streamId + frame.decodedSize P)
  mmt : s'.mmt = [mt']
  capacity : mt'.capacity = mt.capacity
  entries :
    mt.entries.length < mt.capacity.toNat ∧
        mt'.entries = mt.entries ++ [frame.entry timestamp (s.wal.lsn + 1)] ∧
        s'.jobs = s.jobs ∨
      mt.entries.length = mt.capacity.toNat ∧
        mt'.entries = [frame.entry timestamp (s.wal.lsn + 1)] ∧ s'.jobs = s.jobs ++ [mt]

/-- **An accepted frame** is valid and belongs to a stream with metadata, and it is stored. -/
theorem stored_of_streamAppend {mt : Memtable} (hmmt : s.mmt = [mt])
    (hpos : 0 < mt.capacity.toNat) (h : streamAppend P s data = some (s', .ok)) :
    ∃ frame md timestamp mt', Stored P s s' data frame md timestamp mt mt' := by
  obtain ⟨frame, md, hparse, hmd, hstore⟩ := streamAppend_ok h
  simp only [streamStore, Option.bind_eq_some_iff, Option.map_eq_some_iff, Prod.exists] at hstore
  obtain ⟨timestamp, htime, mmt, full, happend, rfl⟩ := hstore
  rw [walAppend_lsn, hmmt] at happend
  obtain ⟨mt', full', happend', hcap, hentries⟩ :=
    multiMemtableAppend_cases (frame.entry timestamp (s.wal.lsn + 1)) hpos
  obtain ⟨rfl, rfl⟩ : [mt'] = mmt ∧ full' = full := by
    simpa using happend'.symm.trans happend
  refine ⟨frame, md, timestamp, mt', hparse, hmd, htime, rfl, rfl, rfl, rfl, hcap, ?_⟩
  rcases hentries with ⟨hlt, hentries, rfl⟩ | ⟨hfull, hentries, rfl⟩
  · exact .inl ⟨hlt, hentries, List.append_nil _⟩
  · exact .inr ⟨hfull, hentries, rfl⟩

/-- A rejected frame changes nothing. -/
theorem streamAppend_rejected {status : StreamStatus} (hne : status ≠ .ok)
    (h : streamAppend P s data = some (s', status)) : s' = s := by
  obtain ⟨-, hsame⟩ | ⟨hok, -⟩ := streamAppend_cases h
  · exact hsame
  · exact absurd hok hne

end Racs
