import Racs.Foundation.PartialRun
import Racs.Stream

/-!
# Runs of the server

A run is a list of events: a request of a client, or the flush of a memtable that waits to be
written. A flush is one step, and any of the waiting flushes may be the next. Steps are undefined
where the behaviour of the code is; a run stops there.

In `syncStep` a flush that a request causes is complete before the next request.

## Main definitions

* `Racs.Event`, `Racs.Output`, `Racs.step` — one step of the server.
* `Racs.syncStep` — a request with the flush that it causes.
* `Racs.acceptedEntries`, `Racs.acceptedFrames` — the memtable entries and the frames of the
  accepted appends of a run.

## Main results

* `Racs.step_cases` — all that a step can do.
-/

namespace Racs

/-- What happens to the server. -/
inductive Event
  /-- `racs_stream_create`, at the time `now`. -/
  | create (streamId : { id : List UInt8 // 0 ∉ id }) (sampleRate : UInt32)
      (channels bitDepth : UInt16) (now : Int64)
  /-- `racs_stream_open`. -/
  | openStream (streamId : UInt64)
  /-- `racs_stream_close`. -/
  | closeStream (streamId : UInt64)
  /-- `racs_stream_append`. -/
  | append (data : List UInt8)
  /-- A detached `racs_memtable_flush` runs. -/
  | flush (i : ℕ)

/-- What a step shows: an accepted frame, with the number of its record in the log and the entry
that it put into the memtable, a memtable that was flushed, or neither. -/
inductive Output
  | other
  | accepted (lsn : UInt64) (e : MemtableEntry)
  | flushed (mt : Memtable)
  deriving DecidableEq

/-- The entry that was appended last. -/
def newestEntry (mmt : MultiMemtable) : Option MemtableEntry :=
  mmt.head?.bind fun mt => mt.entries.getLast?

/-- What `racs_stream_append` shows. -/
def appendOutput (s s' : Store) (status : StreamStatus) : Output :=
  match status, newestEntry s'.mmt with
  | .ok, some e => .accepted s.wal.lsn e
  | _, _ => .other

/-- One step of the server. -/
def step (P : Platform) (s : Store) : Event → Option (Store × Output)
  | .create streamId sampleRate channels bitDepth now =>
    let md := (streamCreate s.disk.metadata streamId sampleRate channels bitDepth now).1
    some ({ s with disk := { s.disk with metadata := md } }, .other)
  | .openStream streamId => some ({ s with kv := (streamOpen s.kv streamId).1 }, .other)
  | .closeStream streamId => some ({ s with kv := (streamClose s.kv streamId).1 }, .other)
  | .append data => (streamAppend P s data).map fun (s', status) => (s', appendOutput s s' status)
  | .flush i =>
    match s.jobs[i]? with
    | none => some (s, .other)
    | some mt => (memtableFlush P s.disk mt).map fun disk =>
        ({ s with disk := disk, jobs := s.jobs.eraseIdx i }, .flushed mt)

/-- The flushes that wait, one after the other. -/
def drain (P : Platform) (s : Store) : Option Store :=
  (s.jobs.foldlM (memtableFlush P) s.disk).map fun disk => { s with disk := disk, jobs := [] }

/-- A step, after which the flush it causes runs to completion. -/
def syncStep (P : Platform) (s : Store) (ev : Event) : Option (Store × Output) :=
  (step P s ev).bind fun (s', o) => (drain P s').map (·, o)

/-- The entry of an accepted append. -/
def Output.entry? : Output → Option MemtableEntry
  | .accepted _ e => some e
  | _ => none

/-- The memtable that a step flushed. -/
def Output.flushed? : Output → Option Memtable
  | .flushed mt => some mt
  | _ => none

/-- The entries of the accepted appends of a run, in order. -/
def acceptedEntries (os : List Output) : List MemtableEntry := os.filterMap Output.entry?

/-- The memtables that a run flushed, in order. -/
def flushedMemtables (os : List Output) : List Memtable := os.filterMap Output.flushed?

/-- The frame of an accepted append. -/
def acceptedFrame : Event × Output → Option Frame
  | (.append data, .accepted _ _) => (frameParse data).map Prod.fst
  | _ => none

/-- The frames of the accepted appends of a run. -/
def acceptedFrames (evs : List Event) (os : List Output) : List Frame :=
  (evs.zip os).filterMap acceptedFrame

@[simp] theorem acceptedEntries_append (os os' : List Output) :
    acceptedEntries (os ++ os') = acceptedEntries os ++ acceptedEntries os' :=
  List.filterMap_append

@[simp] theorem flushedMemtables_append (os os' : List Output) :
    flushedMemtables (os ++ os') = flushedMemtables os ++ flushedMemtables os' :=
  List.filterMap_append

theorem acceptedEntries_concat (os : List Output) (o : Output) :
    acceptedEntries (os ++ [o]) = acceptedEntries os ++ o.entry?.toList := by
  rw [acceptedEntries_append]
  rcases ho : o.entry? with - | e <;> simp [acceptedEntries, ho]

theorem acceptedFrames_concat {evs : List Event} {os : List Output} (hlen : os.length = evs.length)
    (ev : Event) (o : Output) :
    acceptedFrames (evs ++ [ev]) (os ++ [o]) =
      acceptedFrames evs os ++ (acceptedFrame (ev, o)).toList := by
  rw [acceptedFrames, List.zip_append hlen.symm, List.filterMap_append]
  rcases h : acceptedFrame (ev, o) with - | frame
  · simp [acceptedFrames, h]
  · simp [acceptedFrames, h]

/-- The list of memtables has one memtable, of the configured capacity. -/
def Store.HasMemtable (cfg : Config) (s : Store) (mt : Memtable) : Prop :=
  s.mmt = [mt] ∧ mt.capacity = cfg.entries

theorem Store.init_hasMemtable (cfg : Config) :
    (Store.init cfg).HasMemtable cfg (memtableCreate cfg.entries) :=
  ⟨Store.start_mmt .., rfl⟩

variable {P : Platform} {cfg : Config} {s s' : Store} {mt : Memtable} {ev : Event} {o : Output}

/-- The metadata of the second store are those of the first, and possibly more. -/
def MetadataExtends (md md' : MetadataDir) : Prop :=
  ∀ streamId m, metadataGet md streamId = some m → metadataGet md' streamId = some m

theorem metadataExtends_create (md : MetadataDir) (streamId : { id : List UInt8 // 0 ∉ id })
    (sampleRate : UInt32) (channels bitDepth : UInt16) (now : Int64) :
    MetadataExtends md (streamCreate md streamId sampleRate channels bitDepth now).1 := by
  intro id m hm
  unfold streamCreate
  split
  · exact hm
  · exact metadataGet_put hm _ _

/-- **All that a step can do**: change the metadata and the sessions; accept a frame; or flush one
of the waiting memtables. -/
theorem step_cases (hmt : s.HasMemtable cfg mt) (h : step P s ev = some (s', o)) :
    (o = .other ∧ ∃ md kv, MetadataExtends s.disk.metadata md ∧
      s' = { s with disk := { s.disk with metadata := md }, kv := kv }) ∨
    (∃ data frame md timestamp mt', ev = .append data ∧
      o = .accepted s.wal.lsn (frame.entry timestamp (s.wal.lsn + 1)) ∧
      Stored P s s' data frame md timestamp mt mt') ∨
    (∃ i full disk, ev = .flush i ∧ o = .flushed full ∧ s.jobs[i]? = some full ∧
      memtableFlush P s.disk full = some disk ∧
      s' = { s with disk := disk, jobs := s.jobs.eraseIdx i }) := by
  have hrefl : MetadataExtends s.disk.metadata s.disk.metadata := fun _ _ hm => hm
  cases ev with
  | create streamId sampleRate channels bitDepth now =>
    obtain ⟨rfl, rfl⟩ : _ = s' ∧ Output.other = o := by simpa [step] using h
    exact .inl ⟨rfl, _, s.kv,
      metadataExtends_create s.disk.metadata streamId sampleRate channels bitDepth now, rfl⟩
  | openStream streamId =>
    obtain ⟨rfl, rfl⟩ : _ = s' ∧ Output.other = o := by simpa [step] using h
    exact .inl ⟨rfl, s.disk.metadata, _, hrefl, rfl⟩
  | closeStream streamId =>
    obtain ⟨rfl, rfl⟩ : _ = s' ∧ Output.other = o := by simpa [step] using h
    exact .inl ⟨rfl, s.disk.metadata, _, hrefl, rfl⟩
  | append data =>
    obtain ⟨⟨t, status⟩, happend, heq⟩ := Option.map_eq_some_iff.mp h
    obtain ⟨rfl, rfl⟩ := Prod.mk.inj heq
    by_cases hstatus : status = .ok
    · subst hstatus
      have hpos : 0 < mt.capacity.toNat := hmt.2 ▸ cfg.entries_pos
      obtain ⟨frame, md, timestamp, mt', hstored⟩ := stored_of_streamAppend hmt.1 hpos happend
      refine .inr (.inl ⟨data, frame, md, timestamp, mt', rfl, ?_, hstored⟩)
      have hnewest : newestEntry t.mmt = some (frame.entry timestamp (s.wal.lsn + 1)) := by
        rw [newestEntry, hstored.mmt, List.head?_cons, Option.bind_some]
        rcases hstored.entries with ⟨-, hentries, -⟩ | ⟨-, hentries, -⟩
        · rw [hentries, List.getLast?_concat]
        · rw [hentries, List.getLast?_singleton]
      simp only [appendOutput, hnewest]
    · refine .inl ⟨?_, s.disk.metadata, s.kv, hrefl, streamAppend_rejected hstatus happend⟩
      unfold appendOutput
      split
      · exact absurd rfl hstatus
      · rfl
  | flush i =>
    rw [step] at h
    split at h
    · obtain ⟨rfl, rfl⟩ : s = s' ∧ Output.other = o := by simpa using h
      exact .inl ⟨rfl, s.disk.metadata, s.kv, hrefl, rfl⟩
    · rename_i full hfull
      obtain ⟨disk, hdisk, heq⟩ := Option.map_eq_some_iff.mp h
      obtain ⟨rfl, rfl⟩ := Prod.mk.inj heq
      exact .inr (.inr ⟨i, full, disk, rfl, rfl, hfull, hdisk, rfl⟩)

/-- Every step keeps one memtable of the configured capacity. -/
theorem step_hasMemtable (hmt : s.HasMemtable cfg mt) (h : step P s ev = some (s', o)) :
    ∃ mt', s'.HasMemtable cfg mt' := by
  rcases step_cases hmt h with ⟨-, md, kv, -, rfl⟩ |
    ⟨data, frame, md, timestamp, mt', -, -, hstored⟩ | ⟨i, full, disk, -, -, -, -, rfl⟩
  · exact ⟨mt, hmt⟩
  · exact ⟨mt', hstored.mmt, hstored.capacity.trans hmt.2⟩
  · exact ⟨mt, hmt⟩

/-- A step and the flush it causes. -/
theorem syncStep_eq_some : syncStep P s ev = some (s', o) ↔
    ∃ m, step P s ev = some (m, o) ∧ drain P m = some s' := by
  simp [syncStep, Option.bind_eq_some_iff]

/-- With nothing waiting, there is nothing to run. -/
theorem drain_of_jobs_nil (h : s.jobs = []) : drain P s = some s := by
  rcases s with ⟨disk, wal, mmt, jobs, offsets, kv⟩
  dsimp only at h
  subst h
  rfl

/-! ### Small runs -/

/-- A configuration with memtables of the given capacity. -/
def Config.small (entries : UInt16) (h : 0 < entries.toNat) : Config :=
  ⟨1, entries, 4, by decide, h, by decide⟩

/-- The stream `a`. -/
def streamA : { id : List UInt8 // 0 ∉ id } := ⟨[97], by decide⟩

/-- The stream `b`. -/
def streamB : { id : List UInt8 // 0 ∉ id } := ⟨[98], by decide⟩

/-- A stereo stream of 16 bits at 48 kHz is created one second after the epoch, and opened. -/
def opened (streamId : { id : List UInt8 // 0 ∉ id }) : List Event :=
  [.create streamId 48000 2 16 1000, .openStream (racsHash streamId)]

/-- A frame whose block holds `size` times the byte `b` is sent. -/
def sent (streamId : { id : List UInt8 // 0 ∉ id }) (b : UInt8) (size : UInt16) : Event :=
  .append (Frame.constant (racsHash streamId) b size).bytes

end Racs
