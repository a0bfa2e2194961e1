import Racs.Run
import Mathlib.Algebra.BigOperators.Group.List.Basic
import Mathlib.Data.List.Induction
import Mathlib.Data.UInt

/-!
# The time index of a stream

The timestamp of a block is computed from the offset of its stream, which `racs_stream_append`
reads before it stores the block and moves forward behind it. Over a run of one server process the
offset is the size of the decoded audio that the stream has received, so each block is stored under
the time at which its audio begins.

## Main definitions

* `Racs.audioSize` — the decoded size of frames.
* `Racs.Indexed` — blocks of one stream are stored under the times of their audio.

## Main results

* `Racs.FollowsAudio.step` — every step keeps the index.
* `Racs.followsAudio_exec`, `Racs.timeIndex_exec` — the index after every run.
-/

namespace Racs

open PartialRun

/-- The decoded size of the frames, in bytes modulo `2 ^ 64`. -/
def audioSize (P : Platform) (frames : List Frame) : UInt64 :=
  (frames.map (Frame.decodedSize P)).sum

/-- The frames of one stream. -/
def framesOf (streamId : UInt64) (frames : List Frame) : List Frame :=
  frames.filter (·.header.streamId = streamId)

/-- The entries of one stream. -/
def entriesOf (streamId : UInt64) (es : List MemtableEntry) : List MemtableEntry :=
  es.filter (·.key.1 = streamId)

/-- The entries hold the blocks of the frames, all of the stream with this metadata, each under the
time of the audio in front of it. -/
structure Indexed (P : Platform) (md : MetadataDir) (streamId : UInt64) (frames : List Frame)
    (es : List MemtableEntry) : Prop where
  length_eq : es.length = frames.length
  stored : ∀ k frame, frames[k]? = some frame → ∃ m timestamp e,
    metadataGet md streamId = some m ∧
    metadataTimestamp P m (audioSize P (frames.take k)) = some timestamp ∧
    es[k]? = some e ∧ e.key = (streamId, timestamp.toUInt64) ∧ e.block = frame.pcmBlock

variable {P : Platform} {cfg : Config}

theorem audioSize_concat (frames : List Frame) (frame : Frame) :
    audioSize P (frames ++ [frame]) = audioSize P frames + frame.decodedSize P := by
  rw [audioSize, List.map_append, List.sum_append, List.map_singleton, List.sum_singleton,
    audioSize]

namespace Indexed

variable {md md' : MetadataDir} {streamId : UInt64} {frames : List Frame} {es : List MemtableEntry}

theorem nil : Indexed P md streamId [] [] := ⟨rfl, fun _ _ h => by cases h⟩

theorem mono (hmd : MetadataExtends md md') (h : Indexed P md streamId frames es) :
    Indexed P md' streamId frames es := by
  refine ⟨h.length_eq, fun k frame hk => ?_⟩
  obtain ⟨m, timestamp, e, hm, htime, hrest⟩ := h.stored k frame hk
  exact ⟨m, timestamp, e, hmd _ _ hm, htime, hrest⟩

/-- One more block, under the time of the audio so far. -/
theorem concat (h : Indexed P md streamId frames es) {frame : Frame} {m : Metadata}
    {timestamp : Int64} (hm : metadataGet md streamId = some m)
    (htime : metadataTimestamp P m (audioSize P frames) = some timestamp) {e : MemtableEntry}
    (hkey : e.key = (streamId, timestamp.toUInt64)) (hblock : e.block = frame.pcmBlock) :
    Indexed P md streamId (frames ++ [frame]) (es ++ [e]) := by
  refine ⟨by simp [h.length_eq], fun k frame' hk => ?_⟩
  rcases Nat.lt_or_ge k frames.length with hlt | hge
  · rw [List.getElem?_append_left hlt] at hk
    rw [List.getElem?_append_left (h.length_eq ▸ hlt), List.take_append_of_le_length hlt.le]
    exact h.stored k frame' hk
  · have hk' : k < (frames ++ [frame]).length := (List.getElem?_eq_some_iff.mp hk).1
    rw [List.length_append, List.length_singleton] at hk'
    obtain rfl : k = frames.length := by omega
    rw [List.getElem?_concat_length] at hk
    obtain rfl := Option.some.inj hk
    refine ⟨m, timestamp, e, hm, ?_, ?_, hkey, hblock⟩
    · rwa [List.take_left]
    · rw [← h.length_eq, List.getElem?_concat_length]

end Indexed

/-- The offsets are the sizes of the audio of the streams, and the entries follow it. -/
structure FollowsAudio (P : Platform) (cfg : Config) (frames : List Frame)
    (es : List MemtableEntry) (s : Store) : Prop where
  hasMemtable : ∃ mt, s.HasMemtable cfg mt
  exact_ops : s.offsets.ops.Exact
  offsets : ∀ streamId, offsetsGet s.offsets streamId = audioSize P (framesOf streamId frames)
  indexed : ∀ streamId,
    Indexed P s.disk.metadata streamId (framesOf streamId frames) (entriesOf streamId es)

theorem followsAudio_init (cfg : Config) : FollowsAudio P cfg [] [] (Store.init cfg) where
  hasMemtable := ⟨_, Store.init_hasMemtable cfg⟩
  exact_ops := streamIdOps_exact
  offsets _ := rfl
  indexed _ := Indexed.nil

/-- **An accepted frame** is stored under the time of the audio of its stream, and adds to it. -/
theorem FollowsAudio.append {s s' : Store} {frames : List Frame} {es : List MemtableEntry}
    {data : List UInt8} {frame : Frame} {md : Metadata} {timestamp : Int64} {mt mt' : Memtable}
    (h : FollowsAudio P cfg frames es s) (hmt : s.HasMemtable cfg mt)
    (hstored : Stored P s s' data frame md timestamp mt mt') (lsn : UInt64) :
    FollowsAudio P cfg (frames ++ [frame]) (es ++ [frame.entry timestamp lsn]) s' := by
  refine ⟨⟨mt', hstored.mmt, hstored.capacity.trans hmt.2⟩, ?_, fun streamId => ?_,
    fun streamId => ?_⟩
  · rw [hstored.offsets]
    exact h.exact_ops
  · rw [hstored.offsets, offsetsGet_put h.exact_ops, framesOf, List.filter_append]
    split_ifs with heq
    · rw [List.filter_cons_of_pos (by simpa using heq.symm), List.filter_nil, audioSize_concat,
        heq, h.offsets, framesOf]
    · rw [List.filter_cons_of_neg (by simpa using Ne.symm heq), List.filter_nil, List.append_nil,
        h.offsets, framesOf]
  · have hdisk : s'.disk.metadata = s.disk.metadata := by rw [hstored.disk]
    rw [hdisk, framesOf, entriesOf, List.filter_append, List.filter_append]
    by_cases heq : frame.header.streamId = streamId
    · subst heq
      rw [List.filter_cons_of_pos (by simp), List.filter_nil,
        List.filter_cons_of_pos (by simp [Frame.entry]), List.filter_nil]
      refine (h.indexed frame.header.streamId).concat hstored.metadata ?_ rfl rfl
      rw [← h.offsets]
      exact hstored.time
    · have hframe : [frame].filter (·.header.streamId = streamId) = [] := by simp [heq]
      have hentry : [frame.entry timestamp lsn].filter (·.key.1 = streamId) = [] := by
        simp [Frame.entry, heq]
      rw [hframe, hentry, List.append_nil, List.append_nil]
      exact h.indexed streamId

/-- **Every step** keeps the index. -/
theorem FollowsAudio.step {s s' : Store} {frames : List Frame} {es : List MemtableEntry}
    {ev : Event} {o : Output} (h : FollowsAudio P cfg frames es s)
    (hstep : Racs.step P s ev = some (s', o)) :
    FollowsAudio P cfg (frames ++ (acceptedFrame (ev, o)).toList) (es ++ acceptedEntries [o])
      s' := by
  obtain ⟨mt, hmt⟩ := h.hasMemtable
  rcases step_cases hmt hstep with ⟨rfl, md, kv, hmd, rfl⟩ |
    ⟨data, frame, md, timestamp, mt', rfl, rfl, hstored⟩ | ⟨i, full, disk, rfl, rfl, -, hdisk, rfl⟩
  · have hnone : acceptedFrame (ev, Output.other) = none := by cases ev <;> rfl
    rw [hnone]
    simp only [acceptedEntries, Option.toList_none, List.append_nil, List.filterMap_cons,
      Output.entry?, List.filterMap_nil]
    exact ⟨h.hasMemtable, h.exact_ops, h.offsets, fun streamId => (h.indexed streamId).mono hmd⟩
  · have hframe : acceptedFrame (.append data,
        .accepted s.wal.lsn (frame.entry timestamp (s.wal.lsn + 1))) = some frame := by
      rw [acceptedFrame, hstored.parse, Option.map_some]
    rw [hframe]
    exact h.append hmt hstored _
  · simp only [acceptedFrame, acceptedEntries, Option.toList_none, List.append_nil,
      List.filterMap_cons, Output.entry?, List.filterMap_nil]
    refine ⟨h.hasMemtable, h.exact_ops, h.offsets, fun streamId => ?_⟩
    exact (memtableFlush_metadata hdisk).symm ▸ h.indexed streamId

/-- The index after every run. -/
theorem followsAudio_exec {s : Store} {evs : List Event} {os : List Output}
    (hrun : exec (step P) (Store.init cfg) evs = some (s, os)) :
    FollowsAudio P cfg (acceptedFrames evs os) (acceptedEntries os) s := by
  induction evs using List.reverseRecOn generalizing s os with
  | nil =>
    obtain ⟨rfl, rfl⟩ : Store.init cfg = s ∧ [] = os := by simpa using hrun
    exact followsAudio_init cfg
  | append_singleton evs ev ih =>
    obtain ⟨m, os₁, o, hevs, hstep, rfl⟩ := exec_concat_eq_some.mp hrun
    rw [acceptedFrames_concat (length_outputs hevs), acceptedEntries_append]
    exact (ih hevs).step hstep

/-- **The time index follows the audio.** After every run of one server process from an empty
store, with any interleaving of creations, openings, closings, appends and flushes, the offset of
each stream is the decoded size of its accepted frames modulo `2 ^ 64`, and the `k`-th accepted
block of a stream was stored under the stream and the time of the decoded size of the accepted
frames in front of it. -/
theorem timeIndex_exec {s : Store} {evs : List Event} {os : List Output}
    (hrun : exec (step P) (Store.init cfg) evs = some (s, os)) (streamId : UInt64) :
    offsetsGet s.offsets streamId =
        audioSize P (framesOf streamId (acceptedFrames evs os)) ∧
      Indexed P s.disk.metadata streamId (framesOf streamId (acceptedFrames evs os))
        (entriesOf streamId (acceptedEntries os)) :=
  ⟨(followsAudio_exec hrun).offsets streamId, (followsAudio_exec hrun).indexed streamId⟩

/-- Two blocks of a stereo stream, with a block of another stream between them. -/
def mixedRun : List Event :=
  opened streamA ++ opened streamB ++ [sent streamA 1 4, sent streamB 2 8, sent streamA 3 4]

theorem timeIndex_mixedRun : ∃ s os,
    exec (step .rational) (Store.init (.small 2 (by decide))) mixedRun = some (s, os) ∧
      (acceptedEntries os).length = 3 ∧
      offsetsGet s.offsets (racsHash streamA) =
        audioSize .rational (framesOf (racsHash streamA) (acceptedFrames mixedRun os)) ∧
      Indexed .rational s.disk.metadata (racsHash streamA)
        (framesOf (racsHash streamA) (acceptedFrames mixedRun os))
        (entriesOf (racsHash streamA) (acceptedEntries os)) := by
  have hrun : ((exec (step .rational) (Store.init (.small 2 (by decide))) mixedRun).map
      fun r : Store × List Output => (acceptedEntries r.2).length) = some 3 := by
    decide +kernel
  obtain ⟨⟨s, os⟩, hrun, hlen⟩ := Option.map_eq_some_iff.mp hrun
  exact ⟨s, os, hrun, hlen, timeIndex_exec hrun (racsHash streamA)⟩

end Racs
