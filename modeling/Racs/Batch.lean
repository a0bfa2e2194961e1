import Racs.Sessions
import Racs.Pack
import Racs.Wal.TornWrite

/-!
# Streaming batches

A batch message is an array of frames. `racs_stream_batch_append` hands them to `racs_stream_append`
one after the other and drops the status of each, and `racs_stream` replies OK to every batch.

What `racs_stream_append` gets of a frame is a pointer into the message, without a size. So the
frames of the model are what is in memory from these pointers on: the element, and what is behind it
(`Racs.pointers`).

## Main definitions

* `Racs.BinElement`, `Racs.elementBytes` — binary elements of a message, and their bytes.
* `Racs.pointers` — what is in memory from each element on.
* `Racs.streamBatchAppend`, `Racs.stream`, `Racs.batchMessage`.
* `Racs.Acceptable` — the frames that are accepted one after the other, said of the metadata, the
  sessions and the offsets.
* `Racs.TruthfulBatch` — the reply to a batch is OK exactly if every frame was stored.

## Main results

* `Racs.streamBatchAppend_pointers` — the loop goes through the pointers to the elements.
* `Racs.serves_exec` — what the results ask of a store, every reachable store has.
* `Racs.acceptable_iff` — the acceptable batches are those whose frames are all accepted.
* `Racs.truthfulBatch_iff` — the batches with a truthful reply.
-/

namespace Racs

open ByteBuffer MessagePack PartialRun

variable {δ : Type}

/-! ### Elements in memory -/

/-- The formats of binary data in a message, by the width of the length in bits. -/
inductive BinFormat
  | bin8
  | bin16
  | bin32
  deriving DecidableEq

/-- The byte that the format begins with. -/
def BinFormat.tag : BinFormat → UInt8
  | .bin8 => 0xc4
  | .bin16 => 0xc5
  | .bin32 => 0xc6

/-- The number of bytes of the length. -/
def BinFormat.width : BinFormat → ℕ
  | .bin8 => 1
  | .bin16 => 2
  | .bin32 => 4

/-- A binary element of a message, in one of the formats for its length. -/
structure BinElement where
  format : BinFormat
  data : List UInt8
  length_lt : data.length < 256 ^ format.width

/-- The bytes of the element in the message: the tag, the length in network order and the data. -/
def BinElement.bytes (x : BinElement) : List UInt8 :=
  x.format.tag :: (encode x.format.width x.data.length).reverse ++ x.data

/-- The bytes of elements one behind the other. -/
def elementBytes (xs : List BinElement) : List UInt8 := xs.flatMap BinElement.bytes

/-- What is in memory from the pointer to each element on, if `after` is behind the message. -/
def pointers (after : List UInt8) : List BinElement → List (List UInt8)
  | [] => []
  | x :: xs => (x.data ++ (elementBytes xs ++ after)) :: pointers after xs

/-! ### The batch -/

/-- `racs_stream_batch_append`; undefined when the message is an object other than an array. What
is no complete object is read as an array without elements. -/
def streamBatchAppend (P : Platform) (s : Store) (data : Buffer δ) : Option Store :=
  match unpackNext data with
  | .array items =>
    (List.range items.length).foldlM (fun s i =>
      (unpackU8v items i).bind fun frame => (streamAppend P s frame).map Prod.fst) s
  | .nil => some s
  | .scalar _ => none

/-- `racs_stream`, with the reply. -/
def stream (P : Platform) (s : Store) (data : Buffer δ) : Option (Store × Reply δ) :=
  (streamBatchAppend P s data).map fun s => (s, packNullWithStatusOk [])

/-- The message for a batch of frames, each with what is behind it in memory. -/
def batchMessage (frames : List (List UInt8)) : Buffer δ :=
  .array frames.length :: frames.map .bin

/-! ### The loop over the frames -/

theorem foldlM_range {σ α : Type} (f : σ → α → Option σ) (l : List α) (s : σ) :
    (List.range l.length).foldlM (fun s i => (l[i]?).bind (f s)) s = l.foldlM f s := by
  induction l generalizing s with
  | nil => rfl
  | cons a l ih =>
    rw [List.length_cons, List.range_succ_eq_map, List.foldlM_cons, List.foldlM_cons]
    simp only [List.getElem?_cons_zero, Option.bind_some, List.foldlM_map,
      List.getElem?_cons_succ, ih]

theorem exec_map_fst {σ ι ω : Type} (step : σ → ι → Option (σ × ω)) (s : σ) (is : List ι) :
    (exec step s is).map Prod.fst = is.foldlM (fun s i => (step s i).map Prod.fst) s := by
  induction is generalizing s with
  | nil => rfl
  | cons i is ih =>
    rw [exec_cons, List.foldlM_cons]
    cases step s i with
    | none => rfl
    | some r => exact (Option.map_map ..).trans (ih r.1)

theorem streamBatchAppend_eq (P : Platform) (s : Store) (frames : List (List UInt8)) :
    streamBatchAppend P s (batchMessage frames : Buffer δ) =
      (exec (streamAppend P) s frames).map Prod.fst := by
  have hunpack : ∀ i, unpackU8v (frames.map (.bin : List UInt8 → Item δ)) i = frames[i]? := by
    intro i
    rw [unpackU8v, List.getElem?_map]
    cases frames[i]? <;> rfl
  have hlength : (frames.map (.bin : List UInt8 → Item δ)).length = frames.length :=
    List.length_map _
  have hmessage : unpackNext (batchMessage frames : Buffer δ) = .array (frames.map .bin) := by
    rw [batchMessage, ← hlength, ← List.append_nil (frames.map _), List.append_nil,
      ← List.append_nil (Item.array _ :: _)]
    exact unpackNext_array _ []
  rw [streamBatchAppend, hmessage, exec_map_fst]
  simp only [hunpack, hlength]
  exact foldlM_range _ frames s

/-- The loop over the frames of a message goes through the pointers to its elements. -/
theorem streamBatchAppend_pointers (P : Platform) (after : List UInt8) (s : Store)
    (xs : List BinElement) :
    streamBatchAppend P s (batchMessage (pointers after xs) : Buffer δ) =
      (exec (streamAppend P) s (pointers after xs)).map Prod.fst :=
  streamBatchAppend_eq P s (pointers after xs)

/-! ### Frames that are accepted -/

/-- What a serving store keeps: one memtable that takes entries, and tables that compare stream
ids. -/
structure Store.Serves (s : Store) (mt : Memtable) : Prop where
  mmt : s.mmt = [mt]
  pos : 0 < mt.capacity.toNat
  kv_ops : s.kv.ops.Exact
  offsets_ops : s.offsets.ops.Exact

theorem Store.init_serves (cfg : Config) :
    (Store.init cfg).Serves (memtableCreate cfg.entries) where
  mmt := Store.start_mmt ..
  pos := cfg.entries_pos
  kv_ops := streamIdOps_exact
  offsets_ops := streamIdOps_exact

theorem streamOpen_ops (kv : StreamKv) (streamId : UInt64) :
    (streamOpen kv streamId).1.ops = kv.ops := by
  rw [streamOpen]
  cases kvstoreGet kv streamId <;> rfl

theorem streamClose_ops (kv : StreamKv) (streamId : UInt64) :
    (streamClose kv streamId).1.ops = kv.ops := by
  rw [streamClose]
  cases kvstoreGet kv streamId <;> rfl

/-- The frames are valid, of open streams with metadata, in the session of their stream and at a
time that can be computed. The sessions and the offsets are those that the frames before a frame
leave. -/
def Acceptable (P : Platform) (md : MetadataDir) :
    (UInt64 → Option (List UInt8)) → (UInt64 → UInt64) → List (List UInt8) → Prop
  | _, _, [] => True
  | session, offset, data :: rest =>
    ∃ frame m old, frameParse data = some (frame, true) ∧
      session frame.header.streamId = some old ∧ sessionCmp frame.header.sessionId old ∧
      metadataGet md frame.header.streamId = some m ∧
      (metadataTimestamp P m (offset frame.header.streamId)).isSome ∧
      Acceptable P md
        (Function.update session frame.header.streamId (some frame.header.sessionId))
        (Function.update offset frame.header.streamId
          (offset frame.header.streamId + frame.decodedSize P)) rest

/-- The operation of every frame is in the log, in this order, and its entry is in the memtable, or
in one that the frames behind it handed to a flush. -/
def StoresAll (s s' : Store) (frames : List (List UInt8)) : Prop :=
  ∃ ops es,
    List.Forall₂ (fun data op => ∃ frame, frameParse data = some (frame, true) ∧
      op = appendOp frame data) frames ops ∧
    List.Forall₂ (fun data e => ∃ frame timestamp lsn, frameParse data = some (frame, true) ∧
      e = frame.entry timestamp lsn) frames es ∧
    (s'.disk.wal, s'.wal) = walAppends s.disk.wal s.wal ops ∧
    (s'.jobs ++ s'.mmt).flatMap Memtable.entries =
      (s.jobs ++ s.mmt).flatMap Memtable.entries ++ es

variable {P : Platform} {s s' : Store} {mt : Memtable} {data : List UInt8}

/-- An accepted frame, with what it changes. -/
theorem Store.Serves.append (h : s.Serves mt) (happend : streamAppend P s data = some (s', .ok)) :
    ∃ frame m old mt', frameParse data = some (frame, true) ∧
      kvstoreGet s.kv frame.header.streamId = some old ∧
      sessionCmp frame.header.sessionId old ∧
      metadataGet s.disk.metadata frame.header.streamId = some m ∧
      (metadataTimestamp P m (offsetsGet s.offsets frame.header.streamId)).isSome ∧
      s'.Serves mt' ∧ s'.disk.metadata = s.disk.metadata ∧
      kvstoreGet s'.kv =
        Function.update (kvstoreGet s.kv) frame.header.streamId (some frame.header.sessionId) ∧
      offsetsGet s'.offsets = Function.update (offsetsGet s.offsets) frame.header.streamId
        (offsetsGet s.offsets frame.header.streamId + frame.decodedSize P) ∧
      StoresAll s s' [data] := by
  obtain ⟨frame, m, timestamp, mt', hstored⟩ := stored_of_streamAppend h.mmt h.pos happend
  obtain ⟨frame', old, hparse, hold, hcmp, hkv⟩ := streamAppend_session happend
  obtain rfl : frame' = frame :=
    congrArg Prod.fst (Option.some.inj (hparse.symm.trans hstored.parse))
  refine ⟨frame', m, old, mt', hparse, hold, hcmp, hstored.metadata,
    Option.isSome_iff_exists.mpr ⟨_, hstored.time⟩,
    ⟨hstored.mmt, hstored.capacity ▸ h.pos, hkv ▸ h.kv_ops, hstored.offsets ▸ h.offsets_ops⟩,
    by rw [hstored.disk], ?_, ?_, [appendOp frame' data], [frame'.entry timestamp (s.wal.lsn + 1)],
    List.forall₂_cons.mpr ⟨⟨frame', hparse, rfl⟩, .nil⟩,
    List.forall₂_cons.mpr ⟨⟨frame', _, _, hparse, rfl⟩, .nil⟩, ?_, ?_⟩
  · funext id
    rw [hkv, kvstoreGet_put h.kv_ops, Function.update_apply]
  · funext id
    rw [hstored.offsets, offsetsGet_put h.offsets_ops, Function.update_apply]
  · rw [hstored.disk, hstored.wal]
    rfl
  · rw [hstored.mmt, h.mmt]
    rcases hstored.entries with ⟨-, hentries, hjobs⟩ | ⟨-, hentries, hjobs⟩
    · rw [hjobs, List.flatMap_append, List.flatMap_append, List.flatMap_singleton,
        List.flatMap_singleton, hentries, List.append_assoc]
    · rw [hjobs, List.flatMap_append, List.flatMap_singleton, hentries]

/-- Every step of the server keeps it serving. -/
theorem Store.Serves.step (h : s.Serves mt) {ev : Event} {o : Output}
    (hstep : step P s ev = some (s', o)) : ∃ mt', s'.Serves mt' := by
  cases ev with
  | create streamId sampleRate channels bitDepth now =>
    obtain ⟨rfl, -⟩ : _ = s' ∧ Output.other = o := by simpa [Racs.step] using hstep
    exact ⟨mt, h.mmt, h.pos, h.kv_ops, h.offsets_ops⟩
  | openStream streamId =>
    obtain ⟨rfl, -⟩ : _ = s' ∧ Output.other = o := by simpa [Racs.step] using hstep
    exact ⟨mt, h.mmt, h.pos, (streamOpen_ops s.kv streamId).symm ▸ h.kv_ops, h.offsets_ops⟩
  | closeStream streamId =>
    obtain ⟨rfl, -⟩ : _ = s' ∧ Output.other = o := by simpa [Racs.step] using hstep
    exact ⟨mt, h.mmt, h.pos, (streamClose_ops s.kv streamId).symm ▸ h.kv_ops, h.offsets_ops⟩
  | append data =>
    obtain ⟨⟨t, status⟩, happend, heq⟩ := Option.map_eq_some_iff.mp hstep
    obtain ⟨rfl, -⟩ := Prod.mk.inj heq
    by_cases hstatus : status = .ok
    · subst hstatus
      obtain ⟨frame, m, old, mt', -, -, -, -, -, hserves, -⟩ := h.append happend
      exact ⟨mt', hserves⟩
    · exact ⟨mt, streamAppend_rejected hstatus happend ▸ h⟩
  | flush i =>
    rw [Racs.step] at hstep
    split at hstep
    · obtain ⟨rfl, -⟩ : s = s' ∧ Output.other = o := by simpa using hstep
      exact ⟨mt, h⟩
    · obtain ⟨disk, -, heq⟩ := Option.map_eq_some_iff.mp hstep
      obtain ⟨rfl, -⟩ := Prod.mk.inj heq
      exact ⟨mt, h.mmt, h.pos, h.kv_ops, h.offsets_ops⟩

/-- **Every reachable store serves.** -/
theorem serves_exec {cfg : Config} {evs : List Event} {t : Store} {os : List Output}
    (hrun : exec (step P) (Store.init cfg) evs = some (t, os)) : ∃ mt, t.Serves mt :=
  exec_induction (P := fun _ s => ∃ mt, s.Serves mt)
    (fun _ _ _ _ _ ⟨_, h⟩ hstep => h.step hstep) ⟨_, Store.init_serves cfg⟩ hrun

/-- **A frame is accepted** if it meets the checks and its time can be computed. -/
theorem Store.Serves.exists_append (h : s.Serves mt) {frame : Frame} {m : Metadata}
    {old : List UInt8} (hparse : frameParse data = some (frame, true))
    (hold : kvstoreGet s.kv frame.header.streamId = some old)
    (hcmp : sessionCmp frame.header.sessionId old)
    (hmd : metadataGet s.disk.metadata frame.header.streamId = some m)
    (htime : (metadataTimestamp P m (offsetsGet s.offsets frame.header.streamId)).isSome) :
    ∃ s', streamAppend P s data = some (s', .ok) := by
  obtain ⟨timestamp, htime⟩ := Option.isSome_iff_exists.mp htime
  obtain ⟨mt', full, happend, -⟩ := multiMemtableAppend_cases (frame.entry timestamp
    (walAppend s.disk.wal s.wal (appendOp frame data)).2.lsn) h.pos
  rw [streamAppend, hparse, Option.bind_some]
  simp only [hold, hcmp, hmd, streamStore, htime, Option.bind_some, h.mmt, happend]
  exact ⟨_, rfl⟩

theorem walAppends_append (d : WalDir) (w : Wal) (ops ops' : List WalOp) :
    walAppends d w (ops ++ ops') =
      walAppends (walAppends d w ops).1 (walAppends d w ops).2 ops' := List.foldl_append

theorem StoresAll.nil (s : Store) : StoresAll s s [] :=
  ⟨[], [], .nil, .nil, rfl, (List.append_nil _).symm⟩

/-- The frames of two parts of a batch are stored one after the other. -/
theorem StoresAll.trans {t : Store} {frames frames' : List (List UInt8)}
    (h : StoresAll s s' frames) (h' : StoresAll s' t frames') :
    StoresAll s t (frames ++ frames') := by
  obtain ⟨ops, es, hops, hes, hwal, hentries⟩ := h
  obtain ⟨ops', es', hops', hes', hwal', hentries'⟩ := h'
  refine ⟨ops ++ ops', es ++ es', List.rel_append hops hops', List.rel_append hes hes', ?_, ?_⟩
  · rw [hwal', walAppends_append, ← hwal]
  · rw [hentries', hentries, List.append_assoc]

/-- **Accepted frames are stored.** -/
theorem storesAll_exec (h : s.Serves mt) {frames : List (List UInt8)}
    {statuses : List StreamStatus} (hrun : exec (streamAppend P) s frames = some (s', statuses))
    (hok : ∀ status ∈ statuses, status = .ok) : StoresAll s s' frames := by
  induction frames generalizing s mt statuses with
  | nil =>
    obtain ⟨rfl, -⟩ : s = s' ∧ [] = statuses := by simpa using hrun
    exact .nil s
  | cons data frames ih =>
    obtain ⟨s₁, status, statuses', happend, hrun', rfl⟩ := exec_cons_eq_some.mp hrun
    obtain ⟨rfl, hok'⟩ := List.forall_mem_cons.mp hok
    obtain ⟨frame, m, old, mt', -, -, -, -, -, hserves, -, -, -, hstores⟩ := h.append happend
    exact hstores.trans (ih hserves hrun' hok')

/-- **A batch is acceptable** if and only if all of its frames are accepted, one after the other. -/
theorem acceptable_iff (h : s.Serves mt) (frames : List (List UInt8)) :
    Acceptable P s.disk.metadata (kvstoreGet s.kv) (offsetsGet s.offsets) frames ↔
      ∃ s' statuses, exec (streamAppend P) s frames = some (s', statuses) ∧
        ∀ status ∈ statuses, status = .ok := by
  induction frames generalizing s mt with
  | nil => exact iff_of_true trivial ⟨s, [], rfl, fun _ hmem => absurd hmem List.not_mem_nil⟩
  | cons data frames ih =>
    constructor
    · rintro ⟨frame, m, old, hparse, hold, hcmp, hmd, htime, hrest⟩
      obtain ⟨s₁, happend⟩ := h.exists_append hparse hold hcmp hmd htime
      obtain ⟨frame', -, -, mt', hparse', -, -, -, -, hserves, hmetadata, hkv, hoffsets, -⟩ :=
        h.append happend
      obtain rfl : frame' = frame := congrArg Prod.fst (Option.some.inj (hparse'.symm.trans hparse))
      rw [← hmetadata, ← hkv, ← hoffsets, ih hserves] at hrest
      obtain ⟨s', statuses, hrun, hok⟩ := hrest
      exact ⟨s', .ok :: statuses, exec_cons_eq_some.mpr ⟨s₁, _, _, happend, hrun, rfl⟩,
        List.forall_mem_cons.mpr ⟨rfl, hok⟩⟩
    · rintro ⟨s', statuses, hrun, hok⟩
      obtain ⟨s₁, status, statuses', happend, hrun', rfl⟩ := exec_cons_eq_some.mp hrun
      obtain ⟨rfl, hok'⟩ := List.forall_mem_cons.mp hok
      obtain ⟨frame, m, old, mt', hparse, hold, hcmp, hmd, htime, hserves, hmetadata, hkv, hoffsets,
        -⟩ := h.append happend
      refine ⟨frame, m, old, hparse, hold, hcmp, hmd, htime, ?_⟩
      rw [← hmetadata, ← hkv, ← hoffsets, ih hserves]
      exact ⟨s', statuses', hrun', hok'⟩

/-! ### The reply -/

/-- The frames of a batch are appended one after the other; the reply to the batch is OK if all
were accepted, and then they are in the log and in the memtable, and it is an error otherwise. -/
def TruthfulBatch (P : Platform) (δ : Type) (s : Store) (frames : List (List UInt8)) : Prop :=
  ∃ s' statuses reply, exec (streamAppend P) s frames = some (s', statuses) ∧
    stream P s (batchMessage frames : Buffer δ) = some (s', reply) ∧
    ((∀ status ∈ statuses, status = .ok) →
      reply = packNullWithStatusOk [] ∧ StoresAll s s' frames) ∧
    ((∃ status ∈ statuses, status ≠ .ok) → reply.1 ≠ .ok ∧ IsErrorObject reply.2)

/-- The reply to every batch is OK. -/
theorem stream_reply {data : Buffer δ} {reply : Reply δ} (h : stream P s data = some (s', reply)) :
    reply = packNullWithStatusOk [] := by
  obtain ⟨_, -, heq⟩ := Option.map_eq_some_iff.mp h
  exact (Prod.mk.inj heq).2.symm

/-- **Which batches have a truthful reply**: those whose frames are all accepted. -/
theorem truthfulBatch_iff (h : s.Serves mt) (frames : List (List UInt8)) :
    TruthfulBatch P δ s frames ↔
      Acceptable P s.disk.metadata (kvstoreGet s.kv) (offsetsGet s.offsets) frames := by
  rw [acceptable_iff h]
  constructor
  · rintro ⟨s', statuses, reply, hrun, hreply, hok, herror⟩
    have hall : ∀ status ∈ statuses, status = .ok := by
      intro status hmem
      by_contra hne
      obtain ⟨hstatus, -⟩ := herror ⟨status, hmem, hne⟩
      rw [stream_reply hreply] at hstatus
      exact hstatus rfl
    exact ⟨s', statuses, hrun, hall⟩
  · rintro ⟨s', statuses, hrun, hok⟩
    refine ⟨s', statuses, packNullWithStatusOk [], hrun, ?_,
      fun _ => ⟨rfl, storesAll_exec h hrun hok⟩, ?_⟩
    · rw [stream, streamBatchAppend_eq, hrun]
      rfl
    · rintro ⟨status, hmem, hne⟩
      exact absurd (hok status hmem) hne

/-- The server with the stream `a`, open. -/
def openedStore : Store :=
  let s := Store.init (.small 4 (by decide))
  { s with
    disk := { s.disk with metadata := (streamCreate s.disk.metadata streamA 48000 2 16 1000).1 }
    kv := (streamOpen s.kv (racsHash streamA)).1 }

theorem openedStore_serves : openedStore.Serves (memtableCreate 4) where
  mmt := (Store.init_serves (.small 4 (by decide))).mmt
  pos := by decide
  kv_ops := (streamOpen_ops _ _ : openedStore.kv.ops = streamIdOps).symm ▸ streamIdOps_exact
  offsets_ops := streamIdOps_exact

/-- Two frames of the open stream. -/
theorem truthfulBatch_opened : TruthfulBatch .rational ℚ openedStore
    [(Frame.constant (racsHash streamA) 1 4).bytes,
      (Frame.constant (racsHash streamA) 2 8).bytes] := by
  refine (truthfulBatch_iff openedStore_serves _).mpr ((acceptable_iff openedStore_serves _).mpr ?_)
  have hrun : (exec (streamAppend .rational) openedStore
      [(Frame.constant (racsHash streamA) 1 4).bytes,
        (Frame.constant (racsHash streamA) 2 8).bytes]).map Prod.snd = some [.ok, .ok] := by
    decide +kernel
  obtain ⟨⟨s', statuses⟩, hrun, rfl⟩ := Option.map_eq_some_iff.mp hrun
  exact ⟨s', _, hrun, by simp⟩

/-- A frame of a stream that is not open is rejected, and the reply is OK. -/
theorem not_truthfulBatch_closed :
    ¬ TruthfulBatch .rational ℚ (Store.init (.small 4 (by decide))) [List.replicate 34 0] := by
  rintro ⟨s', statuses, reply, hrun, hreply, -, herror⟩
  have hstatuses : (exec (streamAppend .rational) (Store.init (.small 4 (by decide)))
      [List.replicate 34 0]).map Prod.snd = some [.conflict] := by
    decide +kernel
  rw [hrun, Option.map_some, Option.some.injEq] at hstatuses
  subst hstatuses
  obtain ⟨hstatus, -⟩ := herror ⟨.conflict, List.mem_singleton_self _, StreamStatus.noConfusion⟩
  rw [stream_reply hreply] at hstatus
  exact hstatus rfl

end Racs
