import Racs.Wal.Layout

/-!
# A write cut off by a crash

A crash inside the `write` of `racs_wal_append_` leaves the first bytes of a record at the end of
the open segment. The restart opens this segment with `O_APPEND`, so the next record goes behind
the cut-off one, and no byte of a segment says where a record begins. The scan of the replay takes
its lengths from the cut-off record.

## Main definitions

* `Racs.walAppends`, `Racs.walWritten` — calls of `racs_wal_append_` and what they write to a
  segment.
* `Racs.tornWrite` — the write that a crash cuts off.
* `Racs.ScansAs` — the scan of a segment meets exactly the records of a list.

## Main results

* `Racs.walScan_length` — a scan that returns accounts for every byte of the segment.
* `Racs.scansAs_tornWrite_iff` — the scan after a crash and a restart meets the complete records
  exactly if no byte of the cut-off record was written.
* `Racs.header_eq_of_accepted` — counting only the records with a matching checksum, the scan is
  right behind a cut-off record at most if the first record after the restart repeats its header.
-/

namespace Racs

open ByteBuffer

/-! ### Calls of `racs_wal_append_` -/

/-- The calls of `racs_wal_append_` for the operations of the list. -/
def walAppends (d : WalDir) (w : Wal) (os : List WalOp) : WalDir × Wal :=
  os.foldl (fun s o => walAppend s.1 s.2 o) (d, w)

/-- The records that these calls write to the segment `segno`. -/
def walWritten (segno : ℕ) : WalDir → Wal → List WalOp → List WalEntry
  | _, _, [] => []
  | d, w, o :: os =>
    (if (walAppend d w o).2.fd = segno then [o.entry w.lsn] else []) ++
      walWritten segno (walAppend d w o).1 (walAppend d w o).2 os

variable {d : WalDir} {w : Wal} {segno : ℕ}

/-- A call of `racs_wal_append_` writes its record to the segment that is open after it. -/
theorem read_walAppend (h : d.Has w.fd) (o : WalOp) :
    (walAppend d w o).1.read segno = d.read segno ++
        (if (walAppend d w o).2.fd = segno then (o.entry w.lsn).bytes else []) ∧
      (walAppend d w o).1.Has (walAppend d w o).2.fd := by
  by_cases hfull : walSize64MB ≤ w.size + (o.entry w.lsn).bytes.length
  · have hopen := d.has_openAppend (walSegno d + 1)
    simp only [walAppend, walRotate, hfull, if_true]
    exact ⟨by rw [WalDir.read_write hopen, WalDir.read_openAppend], WalDir.has_write hopen _⟩
  · simp only [walAppend, hfull, if_false]
    exact ⟨WalDir.read_write h _ segno, WalDir.has_write h _⟩

/-- Calls of `racs_wal_append_` put the records they write behind the content of a segment. -/
theorem read_walAppends (h : d.Has w.fd) (os : List WalOp) :
    (walAppends d w os).1.read segno =
      d.read segno ++ (walWritten segno d w os).flatMap WalEntry.bytes := by
  induction os generalizing d w with
  | nil => simp [walAppends, walWritten]
  | cons o os ih =>
    obtain ⟨hread, hhas⟩ := @read_walAppend d w segno h o
    have hrest := ih hhas
    rw [walAppends, List.foldl_cons, ← walAppends, hrest, hread, walWritten, List.flatMap_append,
      List.append_assoc]
    split_ifs <;> simp

/-! ### The crash and the restart -/

/-- The `write` of a record of which only the first `n` bytes reach the open segment. -/
def tornWrite (d : WalDir) (w : Wal) (e : WalEntry) (n : ℕ) : WalDir :=
  d.write w.fd (e.bytes.take n)

theorem has_walCreate (d : WalDir) : (walCreate d).1.Has (walCreate d).2.fd :=
  d.has_openAppend _

theorem read_walCreate (d : WalDir) : (walCreate d).1.read segno = d.read segno :=
  d.read_openAppend _ segno

theorem WalLayout.has_fd {init : List RecordGroup} {last : RecordGroup}
    (h : WalLayout d w init last) : d.Has w.fd :=
  Option.isSome_iff_exists.mpr ⟨_, by rw [WalDir.lookup, h.fd_eq, h.find_last, Option.map_some]⟩

/-- The open segment after a crash, a restart and further appends. -/
theorem WalLayout.read_tornWrite {init : List RecordGroup} {last : RecordGroup}
    (h : WalLayout d w init last) (e : WalEntry) (n : ℕ) {d' : WalDir} {w' : Wal}
    (hrestart : walCreate (tornWrite d w e n) = (d', w')) (os : List WalOp) :
    (walAppends d' w' os).1.read last.segno = last.records.flatMap WalEntry.bytes ++
      (e.bytes.take n ++ (walWritten last.segno d' w' os).flatMap WalEntry.bytes) := by
  have hhas : d'.Has w'.fd := by
    have := has_walCreate (tornWrite d w e n)
    rwa [hrestart] at this
  have hread : d'.read last.segno = d.read last.segno ++ e.bytes.take n := by
    have := @read_walCreate last.segno (tornWrite d w e n)
    rwa [hrestart, tornWrite, WalDir.read_write h.has_fd, if_pos h.fd_eq] at this
  rw [read_walAppends hhas, hread, h.read_last, RecordGroup.segment, List.append_assoc]

/-! ### The scan accounts for every byte -/

/-- **The scan accounts for every byte.** A scan that returns has read up to the end of the
segment, record by record and header by header. -/
theorem walScan_length {alloc : UInt64 → Bool} {data : List UInt8} {offset : ℕ}
    {reads : List WalRead} (h : walScan alloc data offset = some reads)
    (hoffset : offset ≤ data.length) :
    data.length = offset + (reads.map fun r => walReadLength r.1).sum := by
  induction reads generalizing offset with
  | nil =>
    rcases Nat.lt_or_ge offset data.length with hlt | hle
    · rw [walScan_of_lt hlt] at h
      obtain ⟨r, -, h⟩ := Option.bind_eq_some_iff.mp h
      obtain ⟨_, -, hnil⟩ := Option.map_eq_some_iff.mp h
      cases hnil
    · exact Nat.le_antisymm hle hoffset
  | cons r reads ih =>
    obtain ⟨hread, hscan⟩ := walScan_eq_cons h
    obtain ⟨hnext, hinside⟩ := walEntryRead_length hread
    rw [ih hscan hinside, hnext, List.map_cons, List.sum_cons, Nat.add_assoc]

/-- The scan of a segment meets exactly the records of the list, in order: these are the values that
the calls of `racs_wal_entry_read` in the loop return, and no call returns `NULL`. -/
def ScansAs (alloc : UInt64 → Bool) (data : List UInt8) (es : List WalEntry) : Prop :=
  (walScan alloc data 0).map (List.map Prod.fst) = some (es.map some)

/-- A segment that scans as the records of a list has the length of these records. -/
theorem ScansAs.length_eq {alloc : UInt64 → Bool} {data : List UInt8} {es : List WalEntry}
    (h : ScansAs alloc data es) : data.length = (es.flatMap WalEntry.bytes).length := by
  obtain ⟨reads, hscan, hreads⟩ := Option.map_eq_some_iff.mp h
  have hsum : (reads.map fun r => walReadLength r.1) = es.map fun e => e.bytes.length := by
    have := congrArg (List.map walReadLength) hreads
    simpa only [List.map_map, Function.comp_def, walReadLength] using this
  rw [walScan_length hscan (Nat.zero_le _), hsum, Nat.zero_add, List.length_flatMap]

theorem scansAs_bytes {alloc : UInt64 → Bool} {es : List WalEntry}
    (h : ∀ e ∈ es, alloc e.size = true) : ScansAs alloc (es.flatMap WalEntry.bytes) es := by
  rw [ScansAs, walScan_bytes es h (holds_zero _), Option.map_some, map_fst_readsOf]

/-! ### What the scan meets after the crash -/

/-- **A torn write.** A crash writes the first `n` bytes of a record `e` behind the complete
records of the open segment, the log is restarted and appended to. The scan of that segment then
meets exactly the complete records and the records written after the restart if and only if no
byte of `e` was written. The buffers of these records are allocated. -/
theorem scansAs_tornWrite_iff {init : List RecordGroup} {last : RecordGroup}
    (h : WalLayout d w init last) {e : WalEntry} {n : ℕ} (hn : n < e.bytes.length)
    {d' : WalDir} {w' : Wal} (hrestart : walCreate (tornWrite d w e n) = (d', w'))
    (os : List WalOp) {alloc : UInt64 → Bool}
    (halloc : ∀ e' ∈ last.records ++ walWritten last.segno d' w' os, alloc e'.size = true) :
    ScansAs alloc ((walAppends d' w' os).1.read last.segno)
      (last.records ++ walWritten last.segno d' w' os) ↔ n = 0 := by
  rw [h.read_tornWrite e n hrestart os]
  constructor
  · intro hscan
    have hlen := hscan.length_eq
    simp only [List.flatMap_append, List.length_append, List.length_take] at hlen
    omega
  · rintro rfl
    rw [List.take_zero, List.nil_append, ← List.flatMap_append]
    exact scansAs_bytes halloc

/-- The first record of the log is cut off behind its header. -/
def tornHeader : WalDir :=
  tornWrite (walCreate WalDir.empty).1 (walCreate WalDir.empty).2
    ((⟨0, [], by decide⟩ : WalOp).entry 0) 16

/-- An operation of eight zero bytes. -/
def zeroOp : WalOp := ⟨0, List.replicate 8 0, by decide⟩

theorem scansAs_tornHeader_iff :
    ScansAs (fun _ => true)
      ((walAppends (walCreate tornHeader).1 (walCreate tornHeader).2 [zeroOp]).1.read 0)
      ([] ++ walWritten 0 (walCreate tornHeader).1 (walCreate tornHeader).2 [zeroOp]) ↔ 16 = 0 :=
  scansAs_tornWrite_iff (walLayout_create_empty none).1 (by decide) rfl [zeroOp] (fun _ _ => rfl)

/-- A record written behind a cut-off header is lost: the scan meets two records instead, with
matching checksums, that were never written. -/
theorem not_scansAs_tornHeader :
    walWritten 0 (walCreate tornHeader).1 (walCreate tornHeader).2 [zeroOp] = [zeroOp.entry 0] ∧
      ¬ ScansAs (fun _ => true)
        ((walAppends (walCreate tornHeader).1 (walCreate tornHeader).2 [zeroOp]).1.read 0)
        [zeroOp.entry 0] ∧
      ScansAs (fun _ => true)
        ((walAppends (walCreate tornHeader).1 (walCreate tornHeader).2 [zeroOp]).1.read 0)
        [⟨0, crc32c 0 [], 0, [], (zeroOp.entry 0).checksum.toUInt64 <<< 32, rfl⟩,
          ⟨8, crc32c 0 [], 0, [], 0, rfl⟩] := by
  unfold ScansAs
  decide +kernel

/-! ### The records with a matching checksum -/

/-- The record that a call returns, if its checksum matches. -/
def WalRead.checked (r : WalRead) : Option WalEntry :=
  r.1.filter fun e => crc32c 0 e.op = e.checksum

theorem filterMap_checked_readsOf {es : List WalEntry}
    (h : ∀ e ∈ es, crc32c 0 e.op = e.checksum) {offset : ℕ} :
    (readsOf offset es).filterMap WalRead.checked = es := by
  induction es generalizing offset with
  | nil => rfl
  | cons e es ih =>
    have hchecked : WalRead.checked (some e, offset + e.bytes.length) = some e := by
      simp [WalRead.checked, Option.filter, h e List.mem_cons_self]
    rw [readsOf, List.filterMap_cons_some hchecked,
      ih fun e' he' => h e' (List.mem_cons_of_mem _ he')]

/-- The bytes of the calls that return no checked record: none, or at least a header. -/
theorem sum_walReadLength (reads : List WalRead) :
    (reads.map fun r => walReadLength r.1).sum =
        ((reads.filterMap WalRead.checked).map fun e => e.bytes.length).sum ∨
      ((reads.filterMap WalRead.checked).map fun e => e.bytes.length).sum + 16 ≤
        (reads.map fun r => walReadLength r.1).sum := by
  induction reads with
  | nil => exact .inl rfl
  | cons r reads ih =>
    rw [List.map_cons, List.sum_cons]
    obtain ⟨e?, next⟩ := r
    cases e? with
    | none =>
      rw [List.filterMap_cons_none rfl, walReadLength]
      omega
    | some e =>
      have hlen : 16 ≤ e.bytes.length := by rw [e.length_bytes]; omega
      by_cases he : crc32c 0 e.op = e.checksum
      · have hchecked : WalRead.checked (some e, next) = some e := by
          simp [WalRead.checked, Option.filter, he]
        rw [List.filterMap_cons_some hchecked, List.map_cons, List.sum_cons, walReadLength]
        omega
      · have hchecked : WalRead.checked (some e, next) = none := by
          simp [WalRead.checked, Option.filter, he]
        rw [List.filterMap_cons_none hchecked, walReadLength]
        omega

/-- The scan of records followed by other bytes meets the records first. -/
theorem walScan_bytes_append {alloc : UInt64 → Bool} {data c : List UInt8} (es : List WalEntry)
    (halloc : ∀ e ∈ es, alloc e.size = true) {offset : ℕ}
    (h : Holds data offset (es.flatMap WalEntry.bytes ++ c)) :
    walScan alloc data offset =
      (walScan alloc data (offset + (es.flatMap WalEntry.bytes).length)).map
        (readsOf offset es ++ ·) := by
  induction es generalizing offset with
  | nil => simp [readsOf]
  | cons e es ih =>
    rw [List.flatMap_cons, List.append_assoc] at h
    have hlt : offset < data.length := by
      rw [h.length_eq, List.length_append, e.length_bytes]
      omega
    obtain ⟨hread, hrest⟩ := walEntryRead_bytes e (halloc e List.mem_cons_self) h
    rw [walScan_of_lt hlt, hread, Option.bind_some,
      ih (fun e' he' => halloc e' (List.mem_cons_of_mem _ he')) hrest, Option.map_map, readsOf,
      List.flatMap_cons, List.length_append, ← Nat.add_assoc]
    rfl

/-- The header of a record, read where the record or its first part was written. -/
theorem walEntryRead_header {alloc : UInt64 → Bool} {data c : List UInt8} {offset : ℕ}
    {e : WalEntry} (halloc : alloc e.size = true) {r : WalRead}
    (h : Holds data offset
      (writeUint32 e.opCode ++ (writeUint32 e.checksum ++ (writeUint64 e.size ++ c))))
    (hread : walEntryRead alloc data offset = some r) :
    ∃ e', r.1 = some e' ∧ e'.opCode = e.opCode ∧ e'.checksum = e.checksum ∧ e'.size = e.size := by
  obtain ⟨hop, h⟩ := readUint32_write h
  obtain ⟨hchecksum, h⟩ := readUint32_write h
  obtain ⟨hsize, -⟩ := readUint64_write h
  simp only [walEntryRead, hop, hchecksum, hsize, halloc, Option.bind_some, if_true,
    Option.bind_eq_some_iff, Option.map_eq_some_iff] at hread
  obtain ⟨op, -, lsn, -, rfl⟩ := hread
  exact ⟨_, rfl, rfl, rfl, rfl⟩

/-- The scan from a cut-off record on: if what it accepts is as long as the bytes behind the
cut-off record, it accepts first a record with the header of that one. -/
theorem header_eq_of_checked {alloc : UInt64 → Bool} {data c : List UInt8} {offset n : ℕ}
    {e : WalEntry} (h : Holds data offset (e.bytes.take n ++ c)) (hpos : 0 < n)
    (hn : n < e.bytes.length) (halloc : alloc e.size = true) {reads : List WalRead}
    (hscan : walScan alloc data offset = some reads)
    (hlen : ((reads.filterMap WalRead.checked).map fun e => e.bytes.length).sum = c.length) :
    ∃ r rs, reads.filterMap WalRead.checked = r :: rs ∧ r.opCode = e.opCode ∧
      r.checksum = e.checksum ∧ r.size = e.size := by
  have hdata : data.length = offset + (n + c.length) := by
    rw [h.length_eq, List.length_append, List.length_take, min_eq_left hn.le]
  have hbytes := walScan_length hscan (by omega)
  have h16 : 16 ≤ n := by
    rcases sum_walReadLength reads with heq | hle <;> omega
  cases reads with
  | nil =>
    rw [List.map_nil, List.sum_nil] at hbytes
    omega
  | cons r reads =>
    obtain ⟨hread, -⟩ := walScan_eq_cons hscan
    -- the whole header of `e` is in front of what follows
    have hheader : e.bytes.take n = writeUint32 e.opCode ++ (writeUint32 e.checksum ++
        (writeUint64 e.size ++ (e.op ++ writeUint64 e.lsn).take (n - 16))) := by
      simp only [WalEntry.bytes, List.append_assoc]
      rw [List.take_append, List.take_append, List.take_append,
        List.take_of_length_le (by rw [length_writeUint32]; omega),
        List.take_of_length_le (by simp only [length_writeUint32]; omega),
        List.take_of_length_le (by simp only [length_writeUint32, length_writeUint64]; omega)]
      simp only [length_writeUint32, length_writeUint64]
      congr 4
    rw [hheader, List.append_assoc, List.append_assoc, List.append_assoc] at h
    obtain ⟨e', he', hop, hchecksum, hsize⟩ := walEntryRead_header halloc h hread
    -- a first record that is not accepted takes more bytes than there are to spare
    have hlong : e'.bytes.length = e.bytes.length := by
      rw [e'.length_bytes, e.length_bytes, e'.length_op, e.length_op, hsize]
    cases hchecked : WalRead.checked r with
    | none =>
      rw [List.filterMap_cons_none hchecked] at hlen
      rw [List.map_cons, List.sum_cons, he', walReadLength, hlong] at hbytes
      rcases sum_walReadLength reads with heq | hle <;> omega
    | some e'' =>
      have heq : e'' = e' := by
        rw [WalRead.checked, he', Option.filter_eq_some_iff] at hchecked
        exact (Option.some.inj hchecked.1).symm
      exact ⟨e'', _, List.filterMap_cons_some hchecked, heq ▸ hop, heq ▸ hchecksum, heq ▸ hsize⟩

/-- **Counting only records with a matching checksum**, the scan behind a cut-off record is right
at most if the first record written after the restart repeats the header of the cut-off one. -/
theorem header_eq_of_accepted {init : List RecordGroup} {last : RecordGroup}
    (h : WalLayout d w init last) {e : WalEntry} {n : ℕ} (hpos : 0 < n) (hn : n < e.bytes.length)
    {d' : WalDir} {w' : Wal} (hrestart : walCreate (tornWrite d w e n) = (d', w'))
    (os : List WalOp) {alloc : UInt64 → Bool}
    (halloc : ∀ e' ∈ e :: last.records, alloc e'.size = true)
    (hsound : ∀ e' ∈ last.records, crc32c 0 e'.op = e'.checksum) {reads : List WalRead}
    (hscan : walScan alloc ((walAppends d' w' os).1.read last.segno) 0 = some reads)
    (haccepted : reads.filterMap WalRead.checked =
      last.records ++ walWritten last.segno d' w' os) :
    ∃ r rs, walWritten last.segno d' w' os = r :: rs ∧ r.opCode = e.opCode ∧
      r.checksum = e.checksum ∧ r.size = e.size := by
  have hholds := holds_of_eq (h.read_tornWrite e n hrestart os)
  rw [walScan_bytes_append _ (fun e' he' => halloc e' (List.mem_cons_of_mem _ he')) hholds] at hscan
  obtain ⟨reads', hscan', rfl⟩ := Option.map_eq_some_iff.mp hscan
  rw [List.filterMap_append, filterMap_checked_readsOf hsound] at haccepted
  have hrest := List.append_cancel_left haccepted
  obtain ⟨r, rs, hcons, heq⟩ := header_eq_of_checked hholds.skip hpos hn
    (halloc e List.mem_cons_self) hscan' (by rw [hrest, List.length_flatMap])
  exact ⟨r, rs, hrest ▸ hcons, heq⟩

end Racs
