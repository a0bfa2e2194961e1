import Racs.Batch

/-!
# What the server holds

Behind the log, the memtables and the files stands a state that neither the clock nor the flushes
have a part in: which streams exist and in which format, which are open and in which session, how
much audio each has received, and the frames that were accepted, each at its offset in the audio of
its stream.

`Contents` is this state, with the requests of clients as operations on it. The server simulates it:
after any run, with any clock and with flushes at any time, it holds the contents that the requests
lead to, and the entry of an accepted frame is dated by the offset of the frame and the creation of
its stream.

## Main definitions

* `Racs.Contents`, `Racs.Contents.step` — the contents and the requests.
* `Racs.Reflects` — a store has these contents.
* `Racs.requestsOf` — the requests of a run, without their times.

## Main results

* `Racs.Reflects.step`, `Racs.reflects_exec` — the simulation.
* `Racs.sameContents` — two servers with the same requests hold the same.
-/

namespace Racs

open PartialRun

/-! ### Contents and requests -/

/-- The metadata of a stream without the time of its creation. -/
def Metadata.undated (md : Metadata) : Metadata := { md with ref := 0 }

/-- The format of every stream, the session of every open stream, the number of bytes of audio of
every stream, and the accepted frames in their order, each with the offset of its audio. -/
structure Contents where
  format : UInt64 → Option Metadata
  session : UInt64 → Option (List UInt8)
  offset : UInt64 → UInt64
  frames : List (Frame × UInt64)

/-- Nothing was created, opened or sent. -/
def Contents.empty : Contents := ⟨fun _ => none, fun _ => none, fun _ => 0, []⟩

/-- A stream is created, unless it exists. -/
def Contents.create (q : Contents) : { id : List UInt8 // 0 ∉ id } → UInt32 → UInt16 → UInt16 →
    Contents × Bool
  | ⟨streamId, hid⟩, sampleRate, channels, bitDepth =>
    match q.format (racsHash streamId) with
    | some _ => (q, false)
    | none =>
      let md : Metadata := ⟨channels, bitDepth, sampleRate, 0, -1, streamId, hid⟩
      ({ q with format := Function.update q.format (racsHash streamId) (some md) }, true)

/-- A stream is opened, unless it is open. -/
def Contents.openStream (q : Contents) (streamId : UInt64) : Contents × Bool :=
  match q.session streamId with
  | some _ => (q, false)
  | none => ({ q with session := Function.update q.session streamId (some noSession) }, true)

/-- An open stream is closed. -/
def Contents.closeStream (q : Contents) (streamId : UInt64) : Contents × Bool :=
  match q.session streamId with
  | none => (q, false)
  | some _ => ({ q with session := Function.update q.session streamId none }, true)

variable (P : Platform)

/-- A frame is accepted. -/
def Contents.accept (q : Contents) (frame : Frame) : Contents :=
  let streamId := frame.header.streamId
  { q with
    session := Function.update q.session streamId (some frame.header.sessionId)
    offset := Function.update q.offset streamId (q.offset streamId + frame.decodedSize P)
    frames := q.frames ++ [(frame, q.offset streamId)] }

/-- A frame is accepted if it is valid, belongs to an open stream that exists, and is sent in the
session of the stream. -/
def Contents.append (q : Contents) (data : List UInt8) : Contents :=
  match frameParse data with
  | some (frame, true) =>
    match q.session frame.header.streamId, q.format frame.header.streamId with
    | some session, some _ =>
      if sessionCmp frame.header.sessionId session then q.accept P frame else q
    | _, _ => q
  | _ => q

/-- What an event does to the contents; a flush does nothing. -/
def Contents.step (q : Contents) : Event → Contents
  | .create streamId sampleRate channels bitDepth _ =>
    (q.create streamId sampleRate channels bitDepth).1
  | .openStream streamId => (q.openStream streamId).1
  | .closeStream streamId => (q.closeStream streamId).1
  | .append data => q.append P data
  | .flush _ => q

/-- The request of a client without its time; a flush is none. -/
def Event.request? : Event → Option Event
  | .create streamId sampleRate channels bitDepth _ =>
    some (.create streamId sampleRate channels bitDepth 0)
  | .flush _ => none
  | ev => some ev

/-- The requests of clients, without their times. -/
def requestsOf (evs : List Event) : List Event := evs.filterMap Event.request?

/-- What the requests lead to, from given contents. -/
def Contents.run (q : Contents) (evs : List Event) : Contents := evs.foldl (Contents.step P) q

/-- Only the requests count. -/
theorem Contents.run_requestsOf (q : Contents) (evs : List Event) :
    q.run P (requestsOf evs) = q.run P evs := by
  induction evs generalizing q with
  | nil => rfl
  | cons ev evs ih => cases ev <;> exact ih _

/-! ### The simulation -/

variable {P}

/-- An entry of the memtable holds a frame whose audio starts at an offset: it is dated by the
metadata of the stream. -/
def Dated (P : Platform) (dir : MetadataDir) (e : MemtableEntry) (f : Frame × UInt64) : Prop :=
  ∃ md timestamp lsn, metadataGet dir f.1.header.streamId = some md ∧
    metadataTimestamp P md f.2 = some timestamp ∧ e = f.1.entry timestamp lsn

/-- A store has these contents, when the given entries were accepted. -/
structure Reflects (P : Platform) (q : Contents) (s : Store) (es : List MemtableEntry) : Prop where
  serves : ∃ mt, s.Serves mt
  distinct : s.kv.KeysDistinct
  format : ∀ streamId, (metadataGet s.disk.metadata streamId).map Metadata.undated =
    q.format streamId
  session : kvstoreGet s.kv = q.session
  offset : offsetsGet s.offsets = q.offset
  entries : List.Forall₂ (Dated P s.disk.metadata) es q.frames

/-- The first start. -/
theorem reflects_init (P : Platform) (cfg : Config) :
    Reflects P Contents.empty (Store.init cfg) [] where
  serves := ⟨_, Store.init_serves cfg⟩
  distinct := keysDistinct_create _ _ _
  format _ := rfl
  session := rfl
  offset := rfl
  entries := .nil

variable {q : Contents} {s s' : Store} {es : List MemtableEntry}

/-- A stream that exists keeps its metadata, and so the dates of its frames. -/
theorem Dated.mono {dir dir' : MetadataDir} {e : MemtableEntry} {f : Frame × UInt64}
    (h : Dated P dir e f) (hdir : MetadataExtends dir dir') : Dated P dir' e f := by
  obtain ⟨md, timestamp, lsn, hmd, htime, he⟩ := h
  exact ⟨md, timestamp, lsn, hdir _ _ hmd, htime, he⟩

/-- Creating a stream succeeds with the store if and only if it does with its contents. -/
theorem Reflects.create (h : Reflects P q s es) (streamId : { id : List UInt8 // 0 ∉ id })
    (sampleRate : UInt32) (channels bitDepth : UInt16) (now : Int64) :
    let r := streamCreate s.disk.metadata streamId sampleRate channels bitDepth now
    r.2 = (q.create streamId sampleRate channels bitDepth).2 ∧
      Reflects P (q.create streamId sampleRate channels bitDepth).1
        { s with disk := { s.disk with metadata := r.1 } } es := by
  intro r
  have hextends : MetadataExtends s.disk.metadata r.1 :=
    metadataExtends_create s.disk.metadata streamId sampleRate channels bitDepth now
  obtain ⟨mt, hserves⟩ := h.serves
  have hentries := h.entries.imp fun _ _ hdated => hdated.mono hextends
  have hformat := h.format (racsHash streamId)
  have hserves' : Store.Serves { s with disk := { s.disk with metadata := r.1 } } mt :=
    ⟨hserves.mmt, hserves.pos, hserves.kv_ops, hserves.offsets_ops⟩
  rcases hmd : metadataGet s.disk.metadata (racsHash streamId) with - | md
  · rw [hmd, Option.map_none] at hformat
    have hr : r = (metadataPut s.disk.metadata
        ⟨channels, bitDepth, sampleRate, now, -1, streamId, streamId.2⟩ (racsHash streamId),
          true) := by
      simp only [r, streamCreate, hmd]
    have hput : r.1 = s.disk.metadata.insert (racsHash streamId)
        ⟨channels, bitDepth, sampleRate, now, -1, streamId, streamId.2⟩ := by
      rw [hr]
      simp only [metadataPut, hmd]
    rw [Contents.create, ← hformat]
    refine ⟨by rw [hr], ⟨mt, hserves'⟩, h.distinct, fun id => ?_, h.session, h.offset, hentries⟩
    dsimp only
    rw [hput, metadataGet, Function.update_apply]
    split_ifs with hid
    · rw [hid, AList.lookup_insert]
      rfl
    · rw [AList.lookup_insert_ne hid]
      exact h.format id
  · rw [hmd, Option.map_some] at hformat
    have hr : r = (s.disk.metadata, false) := by
      simp only [r, streamCreate, hmd]
    rw [Contents.create, ← hformat]
    refine ⟨by rw [hr], ⟨mt, hserves'⟩, h.distinct, fun id => ?_, h.session, h.offset, hentries⟩
    rw [hr]
    exact h.format id

theorem Reflects.openStream (h : Reflects P q s es) (streamId : UInt64) :
    (streamOpen s.kv streamId).2 = (q.openStream streamId).2 ∧
      Reflects P (q.openStream streamId).1 { s with kv := (streamOpen s.kv streamId).1 } es := by
  obtain ⟨mt, hserves⟩ := h.serves
  have hsession := congrFun h.session streamId
  rw [streamOpen, Contents.openStream, ← hsession]
  rcases kvstoreGet s.kv streamId with - | session
  · refine ⟨rfl, ⟨mt, hserves.mmt, hserves.pos, hserves.kv_ops, hserves.offsets_ops⟩,
      keysDistinct_put hserves.kv_ops h.distinct _ _, h.format, ?_, h.offset, h.entries⟩
    funext id
    dsimp only
    rw [kvstoreGet_put hserves.kv_ops, Function.update_apply, h.session]
    rfl
  · exact ⟨rfl, h⟩

theorem Reflects.closeStream (h : Reflects P q s es) (streamId : UInt64) :
    (streamClose s.kv streamId).2 = (q.closeStream streamId).2 ∧
      Reflects P (q.closeStream streamId).1 { s with kv := (streamClose s.kv streamId).1 } es := by
  obtain ⟨mt, hserves⟩ := h.serves
  have hsession := congrFun h.session streamId
  rw [streamClose, Contents.closeStream, ← hsession]
  rcases kvstoreGet s.kv streamId with - | session
  · exact ⟨rfl, h⟩
  · refine ⟨rfl, ⟨mt, hserves.mmt, hserves.pos, hserves.kv_ops, hserves.offsets_ops⟩,
      keysDistinct_delete h.distinct _, h.format, ?_, h.offset, h.entries⟩
    funext id
    dsimp only
    rw [kvstoreGet_delete hserves.kv_ops h.distinct, Function.update_apply, h.session]

/-- What the step shows of a frame that it stored. -/
theorem Stored.appendOutput {data : List UInt8} {frame : Frame} {md : Metadata} {timestamp : Int64}
    {mt mt' : Memtable} (h : Stored P s s' data frame md timestamp mt mt') :
    appendOutput s s' .ok = .accepted s.wal.lsn (frame.entry timestamp (s.wal.lsn + 1)) := by
  have hnewest : newestEntry s'.mmt = some (frame.entry timestamp (s.wal.lsn + 1)) := by
    rw [newestEntry, h.mmt, List.head?_cons, Option.bind_some]
    rcases h.entries with ⟨-, hentries, -⟩ | ⟨-, hentries, -⟩
    · rw [hentries, List.getLast?_concat]
    · rw [hentries, List.getLast?_singleton]
  simp only [Racs.appendOutput, hnewest]

theorem entry?_appendOutput_of_ne {status : StreamStatus} (hne : status ≠ .ok) :
    Output.entry? (appendOutput s s' status) = none := by
  unfold appendOutput
  split
  · exact absurd rfl hne
  · rfl

/-- The frames that the contents accept are those that a store with these contents accepts. -/
theorem Reflects.append_of_rejected (h : Reflects P q s es) {data : List UInt8}
    {status : StreamStatus} (hne : status ≠ .ok)
    (happend : streamAppend P s data = some (s', status)) : q.append P data = q := by
  obtain rfl := streamAppend_rejected hne happend
  simp only [streamAppend, Option.bind_eq_some_iff, Prod.exists] at happend
  obtain ⟨frame, valid, hparse, happend⟩ := happend
  rw [Contents.append, hparse]
  cases valid with
  | false => rfl
  | true =>
    dsimp only
    rw [if_neg (Bool.noConfusion)] at happend
    rw [← h.session, ← h.format]
    split at happend
    · rename_i hclosed
      rw [hclosed]
    · rename_i session hopen
      rw [hopen]
      split_ifs at happend with hcmp
      · rcases metadataGet s'.disk.metadata frame.header.streamId with - | md
        · rfl
        · exact if_neg (by rw [hcmp]; exact Bool.false_ne_true)
      · split at happend
        · rename_i hmd
          rw [hmd]
          rfl
        · obtain ⟨t, -, heq⟩ := Option.map_eq_some_iff.mp happend
          exact absurd (Prod.mk.inj heq).2.symm hne

/-- What an append adds to the accepted entries. -/
theorem Reflects.append (h : Reflects P q s es) {data : List UInt8} {status : StreamStatus}
    (happend : streamAppend P s data = some (s', status)) :
    Reflects P (q.append P data) s' (es ++ (Output.entry? (appendOutput s s' status)).toList) := by
  by_cases hok : status = .ok
  · subst hok
    obtain ⟨mt, hserves⟩ := h.serves
    obtain ⟨frame, md, timestamp, mt', hstored⟩ :=
      stored_of_streamAppend hserves.mmt hserves.pos happend
    obtain ⟨frame', md', session, mt₁, hparse, hopen, hcmp, hmd, -, hserves', hsame, hkv, hoffset,
      -⟩ := hserves.append happend
    obtain rfl : frame' = frame :=
      congrArg Prod.fst (Option.some.inj (hparse.symm.trans hstored.parse))
    have hformat := h.format frame'.header.streamId
    rw [hmd, Option.map_some] at hformat
    have hq : q.append P data = q.accept P frame' := by
      rw [Contents.append, hparse]
      dsimp only
      rw [← h.session, ← hformat, hopen]
      exact if_pos hcmp
    obtain ⟨_, _, -, -, -, hput⟩ := streamAppend_session happend
    rw [hq, hstored.appendOutput]
    refine ⟨⟨_, hserves'⟩, ?_, fun id => ?_, ?_, ?_, ?_⟩
    · rw [hput]
      exact keysDistinct_put hserves.kv_ops h.distinct _ _
    · rw [hsame]
      exact h.format id
    · rw [hkv, h.session]
      rfl
    · rw [hoffset, h.offset]
      rfl
    · rw [hsame]
      refine List.rel_append h.entries (.cons ?_ .nil)
      refine ⟨md, timestamp, _, hstored.metadata, ?_, rfl⟩
      rw [← h.offset]
      exact hstored.time
  · rw [h.append_of_rejected hok happend, streamAppend_rejected hok happend,
      entry?_appendOutput_of_ne hok, Option.toList_none, List.append_nil]
    exact h

/-- **One step**: what the request does to the contents, with any clock; a flush does nothing. -/
theorem Reflects.step (h : Reflects P q s es) {ev : Event} {o : Output}
    (hstep : step P s ev = some (s', o)) :
    Reflects P (q.step P ev) s' (es ++ o.entry?.toList) := by
  cases ev with
  | create streamId sampleRate channels bitDepth now =>
    obtain ⟨rfl, rfl⟩ := Prod.mk.inj (Option.some.inj hstep)
    rw [show Output.other.entry? = none from rfl, Option.toList_none, List.append_nil]
    exact (h.create streamId sampleRate channels bitDepth now).2
  | openStream streamId =>
    obtain ⟨rfl, rfl⟩ := Prod.mk.inj (Option.some.inj hstep)
    rw [show Output.other.entry? = none from rfl, Option.toList_none, List.append_nil]
    exact (h.openStream streamId).2
  | closeStream streamId =>
    obtain ⟨rfl, rfl⟩ := Prod.mk.inj (Option.some.inj hstep)
    rw [show Output.other.entry? = none from rfl, Option.toList_none, List.append_nil]
    exact (h.closeStream streamId).2
  | append data =>
    obtain ⟨⟨t, status⟩, happend, heq⟩ := Option.map_eq_some_iff.mp hstep
    obtain ⟨rfl, rfl⟩ := Prod.mk.inj heq
    exact h.append happend
  | flush i =>
    obtain ⟨mt, hserves⟩ := h.serves
    rw [Racs.step] at hstep
    split at hstep
    · obtain ⟨rfl, rfl⟩ := Prod.mk.inj (Option.some.inj hstep)
      rw [show Output.other.entry? = none from rfl, Option.toList_none, List.append_nil]
      exact h
    · rename_i full hfull
      obtain ⟨disk, hdisk, heq⟩ := Option.map_eq_some_iff.mp hstep
      obtain ⟨rfl, rfl⟩ := Prod.mk.inj heq
      have hmetadata : disk.metadata = s.disk.metadata := memtableFlush_metadata hdisk
      rw [show Output.entry? (.flushed full) = none from rfl, Option.toList_none, List.append_nil]
      refine ⟨⟨mt, hserves.mmt, hserves.pos, hserves.kv_ops, hserves.offsets_ops⟩, h.distinct,
        fun id => ?_, h.session, h.offset, ?_⟩
      · rw [hmetadata]
        exact h.format id
      · rw [hmetadata]
        exact h.entries

/-- **The server simulates its contents**: after any run, it holds what the requests lead to. -/
theorem reflects_exec {cfg : Config} {evs : List Event} {os : List Output}
    (hrun : exec (Racs.step P) (Store.init cfg) evs = some (s, os)) :
    Reflects P (Contents.empty.run P evs) s (acceptedEntries os) := by
  induction evs using List.reverseRecOn generalizing s os with
  | nil =>
    obtain ⟨rfl, rfl⟩ : Store.init cfg = s ∧ [] = os := by simpa using hrun
    exact reflects_init P cfg
  | append_singleton evs ev ih =>
    obtain ⟨m, os, o, hbefore, hstep, rfl⟩ := exec_concat_eq_some.mp hrun
    rw [Contents.run, List.foldl_append, acceptedEntries_concat]
    exact (ih hbefore).step hstep

/-! ### Two servers -/

/-- Two entries of one frame, at the same time after the creation of its stream, which has one
format. -/
def SameAudio (dir dir' : MetadataDir) (e e' : MemtableEntry) : Prop :=
  ∃ (frame : Frame) (md md' : Metadata) (ms timestamp timestamp' : Int64) (lsn lsn' : UInt64),
    metadataGet dir frame.header.streamId = some md ∧
    metadataGet dir' frame.header.streamId = some md' ∧ md.undated = md'.undated ∧
    addInt64 ms md.ref = some timestamp ∧ addInt64 ms md'.ref = some timestamp' ∧
    e = frame.entry timestamp lsn ∧ e' = frame.entry timestamp' lsn'

/-- What the time at an offset has to do with the creation of the stream. -/
theorem metadataTimestamp_undated {md md' : Metadata} (hmd : md.undated = md'.undated)
    {offset : UInt64} {timestamp timestamp' : Int64}
    (htime : metadataTimestamp P md offset = some timestamp)
    (htime' : metadataTimestamp P md' offset = some timestamp') :
    ∃ ms, addInt64 ms md.ref = some timestamp ∧ addInt64 ms md'.ref = some timestamp' := by
  obtain ⟨hchannels, hdepth, hrate, -⟩ := Metadata.mk.inj hmd
  rw [metadataTimestamp] at htime htime'
  rw [← hchannels, ← hdepth, ← hrate] at htime'
  obtain ⟨ms, hms, htime⟩ := Option.bind_eq_some_iff.mp htime
  obtain ⟨ms', hms', htime'⟩ := Option.bind_eq_some_iff.mp htime'
  obtain rfl := Option.some.inj (hms.symm.trans hms')
  exact ⟨ms, htime, htime'⟩

/-- Entries of one frame at one offset, on servers with the same contents. -/
theorem Dated.sameAudio {dir dir' : MetadataDir} {e e' : MemtableEntry} {f : Frame × UInt64}
    (h : Dated P dir e f) (h' : Dated P dir' e' f)
    (hformat : ∀ id, (metadataGet dir id).map Metadata.undated =
      (metadataGet dir' id).map Metadata.undated) : SameAudio dir dir' e e' := by
  obtain ⟨md, timestamp, lsn, hmd, htime, rfl⟩ := h
  obtain ⟨md', timestamp', lsn', hmd', htime', rfl⟩ := h'
  have hundated : md.undated = md'.undated := by
    have hid := hformat f.1.header.streamId
    rw [hmd, hmd'] at hid
    exact Option.some.inj hid
  obtain ⟨ms, hms, hms'⟩ := metadataTimestamp_undated hundated htime htime'
  exact ⟨f.1, md, md', ms, timestamp, timestamp', lsn, lsn', hmd, hmd', hundated, hms, hms', rfl,
    rfl⟩

/-- The stores of two servers, with the entries that each accepted, have the same streams, sessions
and offsets, and the same audio. -/
structure SameContents (s s' : Store) (es es' : List MemtableEntry) : Prop where
  format : ∀ streamId, (metadataGet s.disk.metadata streamId).map Metadata.undated =
    (metadataGet s'.disk.metadata streamId).map Metadata.undated
  session : kvstoreGet s.kv = kvstoreGet s'.kv
  offset : offsetsGet s.offsets = offsetsGet s'.offsets
  entries : List.Forall₂ (SameAudio s.disk.metadata s'.disk.metadata) es es'

/-- Lists whose elements are related to those of one list. -/
theorem forall₂_of_common {α β γ : Type} {R : α → γ → Prop} {S : β → γ → Prop} {T : α → β → Prop}
    (hT : ∀ a b c, R a c → S b c → T a b) {as : List α} {bs : List β} {cs : List γ}
    (h : List.Forall₂ R as cs) (h' : List.Forall₂ S bs cs) : List.Forall₂ T as bs := by
  induction h generalizing bs with
  | nil =>
    cases h'
    exact .nil
  | cons hac _ ih =>
    cases h' with
    | cons hbc hrest => exact .cons (hT _ _ _ hac hbc) (ih hrest)

theorem Reflects.same {es' : List MemtableEntry} (h : Reflects P q s es)
    (h' : Reflects P q s' es') : SameContents s s' es es' := by
  have hformat := fun id => (h.format id).trans (h'.format id).symm
  exact ⟨hformat, h.session.trans h'.session.symm, h.offset.trans h'.offset.symm,
    forall₂_of_common (fun _ _ _ hdated hdated' => hdated.sameAudio hdated' hformat) h.entries
      h'.entries⟩

/-- **Two servers with the same requests hold the same**, whatever their clocks and configurations
are and whenever they flush their memtables: the streams, the sessions and the offsets are the same,
and the accepted entries are, one by one, of the same frame at the same time after the creation of
its stream. -/
theorem sameContents {cfg cfg' : Config} {evs evs' : List Event} {os os' : List Output}
    (hrequests : requestsOf evs = requestsOf evs')
    (hrun : exec (Racs.step P) (Store.init cfg) evs = some (s, os))
    (hrun' : exec (Racs.step P) (Store.init cfg') evs' = some (s', os')) :
    SameContents s s' (acceptedEntries os) (acceptedEntries os') := by
  have h := reflects_exec hrun
  have h' := reflects_exec hrun'
  rw [← Contents.run_requestsOf] at h h'
  rw [← hrequests] at h'
  exact h.same h'

/-- The block of four bytes, on a server that is started four seconds later. -/
def sentLater : List Event :=
  [.create streamA 48000 2 16 5000, .flush 0, .openStream (racsHash streamA), sent streamA 1 4]

theorem sameContents_sentLater :
    ∃ s os s' os', exec (Racs.step .rational) (Store.init (.small 4 (by decide)))
        (opened streamA ++ [sent streamA 1 4]) = some (s, os) ∧
      exec (Racs.step .rational) (Store.init (.small 2 (by decide))) sentLater = some (s', os') ∧
      SameContents s s' (acceptedEntries os) (acceptedEntries os') := by
  have hsome : (exec (Racs.step .rational) (Store.init (.small 4 (by decide)))
      (opened streamA ++ [sent streamA 1 4])).isSome := by
    decide +kernel
  have hsome' : (exec (Racs.step .rational) (Store.init (.small 2 (by decide)))
      sentLater).isSome := by
    decide +kernel
  obtain ⟨⟨s, os⟩, hrun⟩ := Option.isSome_iff_exists.mp hsome
  obtain ⟨⟨s', os'⟩, hrun'⟩ := Option.isSome_iff_exists.mp hsome'
  have hrequests : requestsOf (opened streamA ++ [sent streamA 1 4]) = requestsOf sentLater := by
    simp [requestsOf, List.filterMap_cons, Event.request?, opened, sentLater, sent]
  exact ⟨s, os, s', os', hrun, hrun', sameContents hrequests hrun hrun'⟩

end Racs
