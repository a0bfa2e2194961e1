import Racs.Bytes
import Racs.Hash

/-!
# Records of the write-ahead log

A record of a segment is `op_code`, the CRC-32C of the operation, its size, the operation itself
and the log sequence number, as `racs_wal_append_` lays them out (`wal.c`) and
`racs_wal_entry_read` takes them apart (`wal_replay.c`). The replay reads a segment record by
record while the offset is inside it.

## Main definitions

* `Racs.WalEntry`, `Racs.WalEntry.bytes` — a record and its bytes in a segment.
* `Racs.walEntryRead` — one call of `racs_wal_entry_read`.
* `Racs.walScan` — the records that the loop over a segment meets, with the offset behind each.

## Main results

* `Racs.walEntryRead_bytes` — reading where a record was written returns the record.
* `Racs.walScan_bytes` — the scan of a concatenation of records returns these records.
-/

namespace Racs

open ByteBuffer

/-- `racs_wal_entry`; the buffer `op` holds `size` bytes. -/
structure WalEntry where
  opCode : UInt32
  checksum : UInt32
  size : UInt64
  op : List UInt8
  lsn : UInt64
  length_op : op.length = size.toNat
  deriving DecidableEq

namespace WalEntry

/-- The buffer that `racs_wal_append_` fills for a record. -/
def bytes (e : WalEntry) : List UInt8 :=
  writeUint32 e.opCode ++ writeUint32 e.checksum ++ writeUint64 e.size ++ e.op ++ writeUint64 e.lsn

theorem length_bytes (e : WalEntry) : e.bytes.length = 24 + e.op.length := by
  simp only [bytes, List.length_append, length_writeUint32, length_writeUint64]
  omega

/-- The last eight bytes of a record are its sequence number. -/
theorem bytes_eq_append_lsn (e : WalEntry) : ∃ body, body.length = 16 + e.op.length ∧
    e.bytes = body ++ writeUint64 e.lsn :=
  ⟨writeUint32 e.opCode ++ writeUint32 e.checksum ++ writeUint64 e.size ++ e.op,
    by simp only [List.length_append, length_writeUint32, length_writeUint64], rfl⟩

end WalEntry

/-- What one call of `racs_wal_entry_read` returns besides the new offset: a record, or the null
pointer when the buffer for the operation could not be allocated. -/
abbrev WalRead := Option WalEntry × ℕ

/-- `racs_wal_entry_read`; undefined when it reads outside the segment. The function `alloc` says
for which sizes `malloc` returns a buffer. -/
def walEntryRead (alloc : UInt64 → Bool) (buf : List UInt8) (offset : ℕ) : Option WalRead :=
  (readUint32 buf offset).bind fun (opCode, offset) =>
  (readUint32 buf offset).bind fun (checksum, offset) =>
  (readUint64 buf offset).bind fun (size, offset) =>
  if alloc size then
    (readBin buf offset size.toNat).bind fun (op, offset) =>
    (readUint64 buf offset).map fun (lsn, offset) =>
      (some ⟨opCode, checksum, size, op.1, lsn, op.2⟩, offset)
  else some (none, offset)

/-- The bytes that a call of `racs_wal_entry_read` consumes: a record, or its header. -/
def walReadLength : Option WalEntry → ℕ
  | some e => e.bytes.length
  | none => 16

/-- A call that returns stays inside the segment and consumes a record or a header. -/
theorem walEntryRead_length {alloc : UInt64 → Bool} {buf : List UInt8} {offset : ℕ} {r : WalRead}
    (h : walEntryRead alloc buf offset = some r) :
    r.2 = offset + walReadLength r.1 ∧ r.2 ≤ buf.length := by
  simp only [walEntryRead, Option.bind_eq_some_iff] at h
  obtain ⟨a, ha, b, hb, c, hc, h⟩ := h
  obtain ⟨_, hslice, -⟩ := Option.map_eq_some_iff.mp hc
  have hinside := le_length_of_slice hslice
  have ha := offset_of_readUint32 ha
  have hb := offset_of_readUint32 hb
  have hc := offset_of_readUint64 hc
  split_ifs at h
  · simp only [Option.map_eq_some_iff, Option.bind_eq_some_iff] at h
    obtain ⟨d, hd, e, he, rfl⟩ := h
    obtain ⟨_, hslice', -⟩ := Option.map_eq_some_iff.mp he
    have hinside' := le_length_of_slice hslice'
    have hd := offset_of_readBin hd
    have he := offset_of_readUint64 he
    simp only [walReadLength, WalEntry.length_bytes, d.1.2]
    omega
  · obtain rfl := Option.some.inj h
    simp only [walReadLength]
    omega

/-- A call that returns has moved the offset forward, past the header of a record at least. -/
theorem le_of_walEntryRead {alloc : UInt64 → Bool} {buf : List UInt8} {offset : ℕ} {r : WalRead}
    (h : walEntryRead alloc buf offset = some r) : offset + 16 ≤ r.2 := by
  have hlength : 16 ≤ walReadLength r.1 := by
    cases r.1 with
    | none => exact le_rfl
    | some e =>
      rw [walReadLength, e.length_bytes]
      omega
  rw [(walEntryRead_length h).1]
  exact Nat.add_le_add_left hlength offset

/-- Reading at the place where a record was written returns it, if its buffer is allocated. -/
theorem walEntryRead_bytes {alloc : UInt64 → Bool} {buf c : List UInt8} {offset : ℕ}
    (e : WalEntry) (halloc : alloc e.size = true) (h : Holds buf offset (e.bytes ++ c)) :
    walEntryRead alloc buf offset = some (some e, offset + e.bytes.length) ∧
      Holds buf (offset + e.bytes.length) c := by
  refine ⟨?_, h.skip⟩
  simp only [WalEntry.bytes, List.append_assoc] at h
  obtain ⟨hop, h⟩ := readUint32_write h
  obtain ⟨hchecksum, h⟩ := readUint32_write h
  obtain ⟨hsize, h⟩ := readUint64_write h
  obtain ⟨hbin, h⟩ := readBin_write h e.length_op
  obtain ⟨hlsn, -⟩ := readUint64_write h
  simp only [walEntryRead, hop, hchecksum, hsize, halloc, hbin, hlsn, Option.bind_some,
    Option.map_some, if_true, e.length_bytes, e.length_op]
  congr 2
  omega

/-- The loop `while (offset < segment->size)` of `racs_wal_replay`, as the list of what the calls of
`racs_wal_entry_read` return. A segment is read into memory before the loop, so what the calls
return does not depend on what the loop does with the records. -/
def walScan (alloc : UInt64 → Bool) (data : List UInt8) (offset : ℕ) : Option (List WalRead) :=
  if offset < data.length then
    match _h : walEntryRead alloc data offset with
    | none => none
    | some r => (walScan alloc data r.2).map (r :: ·)
  else some []
termination_by data.length - offset
decreasing_by
  have := le_of_walEntryRead _h
  omega

theorem walScan_of_lt {alloc : UInt64 → Bool} {data : List UInt8} {offset : ℕ}
    (h : offset < data.length) :
    walScan alloc data offset = (walEntryRead alloc data offset).bind fun r =>
      (walScan alloc data r.2).map (r :: ·) := by
  rw [walScan, if_pos h]
  split
  · rename_i hread
    rw [hread, Option.bind_none]
  · rename_i r hread
    rw [hread, Option.bind_some]

theorem walScan_of_le {alloc : UInt64 → Bool} {data : List UInt8} {offset : ℕ}
    (h : data.length ≤ offset) : walScan alloc data offset = some [] := by
  rw [walScan, if_neg (not_lt.mpr h)]

/-- The first read of a scan, and the scan behind it. -/
theorem walScan_eq_cons {alloc : UInt64 → Bool} {data : List UInt8} {offset : ℕ} {r : WalRead}
    {reads : List WalRead} (h : walScan alloc data offset = some (r :: reads)) :
    walEntryRead alloc data offset = some r ∧ walScan alloc data r.2 = some reads := by
  rcases Nat.lt_or_ge offset data.length with hlt | hle
  · rw [walScan_of_lt hlt] at h
    obtain ⟨r', hread, h⟩ := Option.bind_eq_some_iff.mp h
    obtain ⟨reads', hscan, hcons⟩ := Option.map_eq_some_iff.mp h
    obtain ⟨rfl, rfl⟩ := List.cons.inj hcons
    exact ⟨hread, hscan⟩
  · rw [walScan_of_le hle] at h
    cases Option.some.inj h

/-- The reads of a scan that meets exactly the records of the list, from an offset on. -/
def readsOf : ℕ → List WalEntry → List WalRead
  | _, [] => []
  | offset, e :: es => (some e, offset + e.bytes.length) :: readsOf (offset + e.bytes.length) es

/-- The scan of a concatenation of records meets exactly these records, in order. -/
theorem walScan_bytes {alloc : UInt64 → Bool} {data : List UInt8} (es : List WalEntry)
    (halloc : ∀ e ∈ es, alloc e.size = true) {offset : ℕ}
    (h : Holds data offset (es.flatMap WalEntry.bytes)) :
    walScan alloc data offset = some (readsOf offset es) := by
  induction es generalizing offset with
  | nil =>
    have hlen : data.length = offset := h.length_eq
    rw [walScan_of_le hlen.le, readsOf]
  | cons e es ih =>
    rw [List.flatMap_cons] at h
    have hlt : offset < data.length := by
      rw [h.length_eq, List.length_append, e.length_bytes]
      omega
    obtain ⟨hread, hrest⟩ := walEntryRead_bytes e (halloc e List.mem_cons_self) h
    rw [walScan_of_lt hlt, hread, Option.bind_some,
      ih (fun e' he' => halloc e' (List.mem_cons_of_mem _ he')) hrest, Option.map_some, readsOf]

theorem readsOf_concat (offset : ℕ) (es : List WalEntry) (e : WalEntry) :
    readsOf offset (es ++ [e]) = readsOf offset es ++
      [(some e, offset + (es.flatMap WalEntry.bytes).length + e.bytes.length)] := by
  induction es generalizing offset with
  | nil => rfl
  | cons e' es ih =>
    simp only [List.cons_append, readsOf, ih, List.flatMap_cons, List.length_append, Nat.add_assoc]

theorem map_fst_readsOf (offset : ℕ) (es : List WalEntry) :
    (readsOf offset es).map Prod.fst = es.map some := by
  induction es generalizing offset with
  | nil => rfl
  | cons e es ih => simp only [readsOf, List.map_cons, ih]

theorem filterMap_readsOf (offset : ℕ) (es : List WalEntry) :
    (readsOf offset es).filterMap Prod.fst = es := by
  induction es generalizing offset with
  | nil => rfl
  | cons e es ih => simp only [readsOf, List.filterMap_cons, ih]

end Racs
