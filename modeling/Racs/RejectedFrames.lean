import Racs.FrameConfinement

/-!
# Frames that are rejected

A frame that is rejected changes nothing, and the elements behind it in its batch do not notice
whether it is there. The elements in front of it may: `racs_stream_append` does not know where an
element ends, and a short element is completed to a frame by the bytes behind it, which are other
bytes when the rejected element is not there.

## Main definitions

* `Racs.LeavesNoTrace` — nothing is changed, and the other elements are appended as they would be
  without the rejected one.
* `Racs.ReadAlike` — the parser finds the same frames in two memories, or frames that fail the
  checks of `racs_stream_append` in both.

## Main results

* `Racs.frameParse_eq_of_streamAppend` — frames that are appended alike are the same.
* `Racs.appendAlike_iff` — the elements in front of a rejected one, with it and without it.
* `Racs.leavesNoTrace_iff` — the rejected frames that leave no trace.
* `Racs.has_fd_exec` — the segment that a reachable store appends to is there.
-/

namespace Racs

open ByteBuffer PartialRun

variable {P : Platform} {s s' s₁ m m' : Store} {mt : Memtable} {a b data : List UInt8}
  {r r' : Frame × Bool} {status : StreamStatus} {x : BinElement} {before behind : List BinElement}
  {after : List UInt8} {as bs : List (List UInt8)} {statuses : List StreamStatus}
  {md : MetadataDir} {session : UInt64 → Option (List UInt8)}

/-! ### Without a trace -/

/-- An append, with whether the frame is accepted. -/
def appendAccepted (P : Platform) (s : Store) (data : List UInt8) : Option (Store × Bool) :=
  (streamAppend P s data).map fun r => (r.1, decide (r.2 = .ok))

/-- The frames on the left and the frames on the right are accepted or rejected alike, and each
leaves the same behind in the log, the memtables, the offsets and the sessions. -/
def AppendAlike (P : Platform) : Store → List (List UInt8) → List (List UInt8) → Prop
  | _, [], [] => True
  | s, a :: as, b :: bs => ∃ s₁ accepted, appendAccepted P s a = some (s₁, accepted) ∧
      appendAccepted P s b = some (s₁, accepted) ∧ AppendAlike P s₁ as bs
  | _, _, _ => False

/-- The element `x` of a batch, which takes the server from `m` to `m'`, leaves no trace: nothing is
changed, the elements in front of it are accepted or rejected, logged and stored as without it, and
so is the whole batch. The batch begins in `s`, and the bytes `after` are behind the message. -/
structure LeavesNoTrace (P : Platform) (s m m' : Store) (after : List UInt8)
    (before : List BinElement) (x : BinElement) (behind : List BinElement) : Prop where
  unchanged : m' = m
  alike : AppendAlike P s (pointers (elementBytes (x :: behind) ++ after) before)
    (pointers (elementBytes behind ++ after) before)
  batch : exec (appendAccepted P) s (pointers after (before ++ x :: behind)) =
    (exec (appendAccepted P) s (pointers after (before ++ behind))).map
      (Prod.map id (·.insertIdx before.length false))

/-- The checks of `racs_stream_append` on a parsed frame: the checksum, the session of the stream
and its metadata. -/
def admits (md : MetadataDir) (session : UInt64 → Option (List UInt8)) (r : Frame × Bool) : Bool :=
  r.2 && (session r.1.header.streamId).any (sessionCmp r.1.header.sessionId) &&
    (metadataGet md r.1.header.streamId).isSome

/-- The sessions after a parsed frame, which claims that of its stream if it passes the checks. -/
def sessionsAfter (md : MetadataDir) (session : UInt64 → Option (List UInt8)) (r : Frame × Bool) :
    UInt64 → Option (List UInt8) :=
  if admits md session r then
    Function.update session r.1.header.streamId (some r.1.header.sessionId)
  else session

/-- In the memory on the left and in the memory on the right the parser finds the same frames, or
frames that both fail the checks. The sessions are those that the frames before a frame leave. -/
def ReadAlike (md : MetadataDir) :
    (UInt64 → Option (List UInt8)) → List (List UInt8) → List (List UInt8) → Prop
  | _, [], [] => True
  | session, a :: as, b :: bs => ∃ r r', frameParse a = some r ∧ frameParse b = some r' ∧
      (r' = r ∨ admits md session r = false ∧ admits md session r' = false) ∧
      ReadAlike md (sessionsAfter md session r) as bs
  | _, _, _ => False

/-! ### Pointers -/

/-- The memory from the elements of the front part of a message on. -/
theorem pointers_append (after : List UInt8) (xs ys : List BinElement) :
    pointers after (xs ++ ys) = pointers (elementBytes ys ++ after) xs ++ pointers after ys := by
  induction xs with
  | nil => rfl
  | cons x xs ih =>
    rw [List.cons_append, pointers, pointers, ih, List.cons_append, elementBytes,
      List.flatMap_append, List.append_assoc]
    rfl

theorem length_pointers (after : List UInt8) (xs : List BinElement) :
    (pointers after xs).length = xs.length := by
  induction xs with
  | nil => rfl
  | cons x xs ih => rw [pointers, List.length_cons, List.length_cons, ih]

/-! ### The checks -/

/-- A frame that fails a check is rejected. -/
theorem streamAppend_of_not_admits (hparse : frameParse data = some r)
    (hno : admits s.disk.metadata (kvstoreGet s.kv) r = false) :
    ∃ status, status ≠ .ok ∧ streamAppend P s data = some (s, status) := by
  obtain ⟨frame, valid⟩ := r
  rw [streamAppend, hparse, Option.bind_some]
  cases valid with
  | false => exact ⟨.malformed, StreamStatus.noConfusion, rfl⟩
  | true =>
    simp only [Bool.true_eq_false, if_false]
    cases hsession : kvstoreGet s.kv frame.header.streamId with
    | none => exact ⟨.conflict, StreamStatus.noConfusion, rfl⟩
    | some old =>
      cases hcmp : sessionCmp frame.header.sessionId old with
      | false => exact ⟨.conflict, StreamStatus.noConfusion, if_pos hcmp⟩
      | true =>
        cases hmd : metadataGet s.disk.metadata frame.header.streamId with
        | none => exact ⟨.notFound, StreamStatus.noConfusion, by simp only [hcmp]; rfl⟩
        | some md => simp [admits, hsession, hcmp, hmd] at hno

/-- A frame that is accepted passes the checks. -/
theorem admits_of_streamAppend (hparse : frameParse data = some r)
    (happend : streamAppend P s data = some (s', .ok)) :
    admits s.disk.metadata (kvstoreGet s.kv) r = true := by
  by_contra hno
  obtain ⟨status, hne, hrejected⟩ :=
    @streamAppend_of_not_admits P s data r hparse (Bool.not_eq_true _ ▸ hno)
  exact hne (Prod.mk.inj (Option.some.inj (hrejected.symm.trans happend))).2

/-- A frame that passes the checks is not rejected. -/
theorem ok_of_admits (hparse : frameParse data = some r)
    (hadmits : admits s.disk.metadata (kvstoreGet s.kv) r = true)
    (happend : streamAppend P s data = some (s', status)) : status = .ok := by
  obtain ⟨frame, valid⟩ := r
  simp only [admits, Bool.and_eq_true, Option.any_eq_true] at hadmits
  obtain ⟨⟨rfl, old, hold, hcmp⟩, hmd⟩ := hadmits
  obtain ⟨md, hmd⟩ := Option.isSome_iff_exists.mp hmd
  simp only [streamAppend, hparse, Option.bind_some, hold, hcmp, hmd, Bool.true_eq_false,
    if_false] at happend
  obtain ⟨t, -, heq⟩ := Option.map_eq_some_iff.mp happend
  exact (Prod.mk.inj heq).2.symm

/-- Places in memory where the parser finds the same frame are appended alike. -/
theorem streamAppend_congr (hparse : frameParse a = some r) (hparse' : frameParse b = some r) :
    streamAppend P s a = streamAppend P s b := by
  have hop : appendOp r.1 a = appendOp r.1 b := by
    simp only [appendOp, take_of_frameParse hparse, take_of_frameParse hparse']
  rw [streamAppend, streamAppend, hparse, hparse', Option.bind_some, Option.bind_some]
  simp only [streamStore, hop]

/-- Operations that are logged alike are the same. -/
theorem op_eq_of_walAppend {d : WalDir} {w : Wal} (hfd : d.Has w.fd) {o o' : WalOp}
    (h : walAppend d w o = walAppend d w o') : o.op = o'.op := by
  have hread := (@read_walAppend d w (walAppend d w o).2.fd hfd o).1
  have hread' := (@read_walAppend d w (walAppend d w o).2.fd hfd o').1
  rw [if_pos rfl] at hread
  rw [← h, if_pos rfl, hread] at hread'
  have hbytes := List.append_cancel_left hread'
  have hlen := congrArg List.length hbytes
  rw [WalEntry.length_bytes, WalEntry.length_bytes, WalOp.entry_op, WalOp.entry_op] at hlen
  simp only [WalEntry.bytes, List.append_assoc] at hbytes
  have hbytes := (List.append_inj hbytes (by rw [length_writeUint32, length_writeUint32])).2
  have hbytes := (List.append_inj hbytes (by rw [length_writeUint32, length_writeUint32])).2
  have hbytes := (List.append_inj hbytes (by rw [length_writeUint64, length_writeUint64])).2
  exact (List.append_inj hbytes (Nat.add_left_cancel hlen)).1

/-- Frames that are accepted alike are the same. -/
theorem frameParse_eq_of_streamAppend (h : s.Serves mt) (hfd : s.disk.wal.Has s.wal.fd)
    (ha : streamAppend P s a = some (s', .ok)) (hb : streamAppend P s b = some (s', .ok)) :
    frameParse a = frameParse b := by
  obtain ⟨f, _, _, _, hf⟩ := stored_of_streamAppend h.mmt h.pos ha
  obtain ⟨g, _, _, _, hg⟩ := stored_of_streamAppend h.mmt h.pos hb
  have hwal : walAppend s.disk.wal s.wal (appendOp f a) =
      walAppend s.disk.wal s.wal (appendOp g b) :=
    Prod.ext (congrArg Disk.wal (hf.disk.symm.trans hg.disk)) (hf.wal.symm.trans hg.wal)
  have htake : a.take (34 + f.header.blockSize.toNat) = b.take (34 + g.header.blockSize.toNat) :=
    op_eq_of_walAppend hfd hwal
  have hlen := length_of_frameParse hf.parse
  have hlen' := length_of_frameParse hg.parse
  have hf' : frameParse (a.take (34 + f.header.blockSize.toNat)) = some (f, true) := by
    refine @frameParse_of_append _ (a.drop (34 + f.header.blockSize.toNat)) _ ?_ ?_
    · rw [List.take_append_drop, hf.parse]
    · rw [List.length_take, min_eq_left hlen]
  have hg' : frameParse (b.take (34 + g.header.blockSize.toNat)) = some (g, true) := by
    refine @frameParse_of_append _ (b.drop (34 + g.header.blockSize.toNat)) _ ?_ ?_
    · rw [List.take_append_drop, hg.parse]
    · rw [List.length_take, min_eq_left hlen']
  rw [hf.parse, hg.parse, ← hf', ← hg', htake]

/-- What an append leaves to the frames behind it. -/
theorem Store.Serves.sessionsAfter (h : s.Serves mt) (hfd : s.disk.wal.Has s.wal.fd)
    (hparse : frameParse data = some r) (happend : streamAppend P s data = some (s', status)) :
    (∃ mt', s'.Serves mt') ∧ s'.disk.wal.Has s'.wal.fd ∧ s'.disk.metadata = s.disk.metadata ∧
      kvstoreGet s'.kv = Racs.sessionsAfter s.disk.metadata (kvstoreGet s.kv) r := by
  by_cases hstatus : status = .ok
  · subst hstatus
    obtain ⟨frame, m, old, mt', hframe, -, -, -, -, hserves, hmd, hkv, -⟩ := h.append happend
    obtain ⟨frame', _, _, _, hstored⟩ := stored_of_streamAppend h.mmt h.pos happend
    have hadmits := admits_of_streamAppend hparse happend
    obtain rfl : (frame, true) = r := Option.some.inj (hframe.symm.trans hparse)
    refine ⟨⟨mt', hserves⟩, ?_, hmd, ?_⟩
    · rw [hstored.disk, hstored.wal]
      exact (@read_walAppend _ _ 0 hfd _).2
    · rw [Racs.sessionsAfter, if_pos hadmits, hkv]
  · obtain rfl := streamAppend_rejected hstatus happend
    have hno : ¬ admits s'.disk.metadata (kvstoreGet s'.kv) r = true :=
      fun hadmits => hstatus (ok_of_admits hparse hadmits happend)
    exact ⟨⟨mt, h⟩, hfd, rfl, by rw [Racs.sessionsAfter, if_neg hno]⟩

/-! ### The elements in front -/

theorem appendAccepted_of (h : streamAppend P s data = some (s', status)) :
    appendAccepted P s data = some (s', decide (status = .ok)) := by
  rw [appendAccepted, h]
  rfl

theorem of_appendAccepted {accepted : Bool} (h : appendAccepted P s data = some (s', accepted)) :
    ∃ status r, streamAppend P s data = some (s', status) ∧ frameParse data = some r ∧
      accepted = decide (status = .ok) := by
  obtain ⟨⟨t, status⟩, happend, heq⟩ := Option.map_eq_some_iff.mp h
  obtain ⟨rfl, rfl⟩ := Prod.mk.inj heq
  obtain ⟨r, hr, -⟩ := Option.bind_eq_some_iff.mp happend
  exact ⟨status, r, happend, hr, rfl⟩

/-- **One element**, with and without the rejected element. -/
theorem appendAccepted_alike_iff (h : s.Serves mt) (hfd : s.disk.wal.Has s.wal.fd)
    (hparse : frameParse a = some r) (happend : streamAppend P s a = some (s₁, status)) :
    appendAccepted P s b = some (s₁, decide (status = .ok)) ↔
      ∃ r', frameParse b = some r' ∧ (r' = r ∨
        admits s.disk.metadata (kvstoreGet s.kv) r = false ∧
          admits s.disk.metadata (kvstoreGet s.kv) r' = false) := by
  constructor
  · intro hb
    obtain ⟨status', r', happend', hparse', hstatus⟩ := of_appendAccepted hb
    refine ⟨r', hparse', ?_⟩
    by_cases hok : status = .ok
    · subst hok
      obtain rfl : status' = .ok := by simpa using hstatus
      have heq := frameParse_eq_of_streamAppend h hfd happend happend'
      exact .inl (Option.some.inj (hparse'.symm.trans (heq.symm.trans hparse)))
    · have hok' : status' ≠ .ok := by simpa [hok] using hstatus
      refine .inr ⟨?_, ?_⟩
      · exact Bool.not_eq_true _ ▸ fun hadmits => hok (ok_of_admits hparse hadmits happend)
      · exact Bool.not_eq_true _ ▸ fun hadmits => hok' (ok_of_admits hparse' hadmits happend')
  · rintro ⟨r', hparse', rfl | ⟨hno, hno'⟩⟩
    · exact appendAccepted_of ((streamAppend_congr hparse' hparse).trans happend)
    · obtain ⟨status₁, hne₁, h₁⟩ := @streamAppend_of_not_admits P s a r hparse hno
      obtain ⟨status', hne', h'⟩ := @streamAppend_of_not_admits P s b r' hparse' hno'
      obtain ⟨rfl, rfl⟩ := Prod.mk.inj (Option.some.inj (h₁.symm.trans happend))
      rw [appendAccepted_of h', decide_eq_false hne₁, decide_eq_false hne']

/-- **The elements in front** of a rejected element are appended alike with it and without it if and
only if they are read alike. -/
theorem appendAlike_iff (h : s.Serves mt) (hfd : s.disk.wal.Has s.wal.fd)
    (hrun : exec (streamAppend P) s as = some (m, statuses)) :
    AppendAlike P s as bs ↔ ReadAlike s.disk.metadata (kvstoreGet s.kv) as bs := by
  induction as generalizing s mt statuses bs with
  | nil => cases bs <;> rfl
  | cons a as ih =>
    cases bs with
    | nil => rfl
    | cons b bs =>
      obtain ⟨s₁, status, statuses', happend, hrun', rfl⟩ := exec_cons_eq_some.mp hrun
      obtain ⟨r, hparse, -⟩ := Option.bind_eq_some_iff.mp happend
      obtain ⟨⟨mt', hserves⟩, hfd', hmd, hkv⟩ := h.sessionsAfter hfd hparse happend
      have hrest := @ih s₁ mt' bs statuses' hserves hfd' hrun'
      rw [hmd, hkv] at hrest
      have hone := @appendAccepted_alike_iff P s s₁ mt a b r status h hfd hparse happend
      constructor
      · rintro ⟨t, accepted, ha, hb, hsame⟩
        rw [appendAccepted_of happend, Option.some.injEq, Prod.mk.injEq] at ha
        obtain ⟨rfl, rfl⟩ := ha
        obtain ⟨r', hparse', hor⟩ := hone.mp hb
        exact ⟨r, r', hparse, hparse', hor, hrest.mp hsame⟩
      · rintro ⟨r₁, r', hparse₁, hparse', hor, hsame⟩
        obtain rfl : r = r₁ := Option.some.inj (hparse.symm.trans hparse₁)
        exact ⟨s₁, _, appendAccepted_of happend, hone.mpr ⟨r', hparse', hor⟩, hrest.mpr hsame⟩

/-- Frames that are appended alike leave the same server behind. -/
theorem AppendAlike.exec_append (h : AppendAlike P s as bs) (xs : List (List UInt8)) :
    exec (appendAccepted P) s (as ++ xs) = exec (appendAccepted P) s (bs ++ xs) := by
  induction as generalizing s bs with
  | nil =>
    cases bs with
    | nil => rfl
    | cons b bs => exact h.elim
  | cons a as ih =>
    cases bs with
    | nil => exact h.elim
    | cons b bs =>
      obtain ⟨s₁, accepted, ha, hb, hrest⟩ := h
      rw [List.cons_append, List.cons_append, exec_cons, exec_cons, ha, hb, Option.bind_some,
        Option.bind_some, ih hrest]

/-! ### Batches -/

theorem exec_appendAccepted (h : exec (streamAppend P) s as = some (m, statuses)) :
    exec (appendAccepted P) s as = some (m, statuses.map fun status => decide (status = .ok)) := by
  induction as generalizing s statuses with
  | nil =>
    obtain ⟨rfl, rfl⟩ : s = m ∧ [] = statuses := by simpa using h
    rfl
  | cons a as ih =>
    obtain ⟨s₁, status, statuses', happend, hrun, rfl⟩ := exec_cons_eq_some.mp h
    exact exec_cons_eq_some.mpr ⟨s₁, _, _, appendAccepted_of happend, ih hrun, rfl⟩

/-- Complete elements are read alike, whatever is behind them. -/
theorem readAlike_of_complete (h : ∀ y ∈ before, y.complete) (a b : List UInt8) :
    ReadAlike md session (pointers a before) (pointers b before) := by
  induction before generalizing session with
  | nil => trivial
  | cons y ys ih =>
    obtain ⟨hy, hys⟩ := List.forall_mem_cons.mp h
    obtain ⟨hsome, hparse⟩ := y.frameParse_of_complete hy
    obtain ⟨r, hr⟩ := Option.isSome_iff_exists.mp hsome
    exact ⟨r, r, (hparse _).trans hr, (hparse _).trans hr, .inl rfl, ih hys⟩

theorem exec_appendAccepted_fst (P : Platform) (s : Store) (as : List (List UInt8)) :
    (exec (appendAccepted P) s as).map Prod.fst = (exec (streamAppend P) s as).map Prod.fst := by
  rw [exec_map_fst, exec_map_fst]
  simp only [appendAccepted, Option.map_map]
  rfl

/-- A batch with an element that leaves no trace ends like the batch without it. -/
theorem LeavesNoTrace.streamBatchAppend_eq {δ : Type}
    (h : LeavesNoTrace P s m m' after before x behind) :
    streamBatchAppend P s (batchMessage (pointers after (before ++ x :: behind)) : Buffer δ) =
      streamBatchAppend P s (batchMessage (pointers after (before ++ behind)) : Buffer δ) := by
  rw [streamBatchAppend_pointers, streamBatchAppend_pointers, ← exec_appendAccepted_fst,
    ← exec_appendAccepted_fst, h.batch, Option.map_map]
  rfl

/-! ### The open segment -/

/-- A complete flush keeps the layout of the log. -/
theorem walLayout_memtableFlush {d d' : Disk} {w : Wal} {full : Memtable}
    {init : List RecordGroup} {last : RecordGroup} (h : WalLayout d.wal w init last)
    (hflush : memtableFlush P d full = some d') :
    ∃ init', WalLayout d'.wal w init' last := by
  by_cases hne : full.entries = []
  · rw [memtableFlush, if_pos (.inl hne), memtableFlushSteps, if_pos hne] at hflush
    obtain rfl := Option.some.inj hflush
    exact ⟨init, h⟩
  · obtain rfl := eq_of_memtableFlush hne hflush
    have h' : WalLayout { d.wal with manifest := some (writeUint64 full.maxLsn) } w init last :=
      h.congr rfl rfl
    exact ⟨_, h'.truncate⟩

theorem walLayout_step {cfg : Config} {ev : Event} {o : Output} {init : List RecordGroup}
    {last : RecordGroup} (hmt : s.HasMemtable cfg mt) (h : WalLayout s.disk.wal s.wal init last)
    (hstep : step P s ev = some (s', o)) :
    ∃ mt' init' last', s'.HasMemtable cfg mt' ∧ WalLayout s'.disk.wal s'.wal init' last' := by
  obtain ⟨mt', hmt'⟩ := step_hasMemtable hmt hstep
  rcases step_cases hmt hstep with ⟨-, md, kv, -, rfl⟩ |
    ⟨data, frame, md, timestamp, _, -, -, hstored⟩ | ⟨i, full, disk, -, -, -, hflush, rfl⟩
  · exact ⟨mt', init, last, hmt', h⟩
  · obtain ⟨init', last', hlayout, -⟩ := h.append (appendOp frame data)
    refine ⟨mt', init', last', hmt', ?_⟩
    rw [hstored.disk, hstored.wal]
    exact hlayout
  · obtain ⟨init', hlayout⟩ := walLayout_memtableFlush h hflush
    exact ⟨mt', init', last, hmt', hlayout⟩

/-- **The segment that a reachable store appends to** is there. -/
theorem has_fd_exec {cfg : Config} {evs : List Event} {t : Store} {os : List Output}
    (hrun : exec (step P) (Store.init cfg) evs = some (t, os)) : t.disk.wal.Has t.wal.fd := by
  obtain ⟨_, _, _, -, hlayout⟩ := exec_induction
    (P := fun _ s => ∃ mt init last, s.HasMemtable cfg mt ∧ WalLayout s.disk.wal s.wal init last)
    (fun _ _ _ _ _ ⟨_, _, _, hmt, h⟩ hstep => walLayout_step hmt h hstep)
    ⟨_, _, _, Store.init_hasMemtable cfg, (walLayout_create_empty none).1⟩ hrun
  exact hlayout.has_fd

/-! ### A header in front -/

/-- A frame of a stream that is not open, as an element. -/
def zeroFrame : BinElement := ⟨.bin8, List.replicate 34 0, by decide⟩

/-- The header of a frame whose block would be the element of the stream that is not open. -/
def headerInFront : BinElement where
  format := .bin8
  data := ascii "rsp" ++ List.replicate 16 1 ++ writeUint64 (racsHash streamA) ++
    writeUint32 (crc32c 0 zeroFrame.bytes) ++ writeUint16 36 ++ [0]
  length_lt := by decide

end Racs
