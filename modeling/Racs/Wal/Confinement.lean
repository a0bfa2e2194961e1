import Racs.Wal.TornWrite

/-!
# Segments that a scan does not leave

`racs_wal_entry_read` takes the size of an operation from the bytes that it reads, and the loop of
`racs_wal_replay` only checks that a record begins inside of the segment. A scan stays inside of a
segment when the segment consists of whole records and of headers for whose sizes there is no
memory: behind such a header the loop reads on as if a record began there.

## Main definitions

* `Racs.WalUnit` — a whole record, or a header for whose size there is no memory.
* `Racs.ScanConfined` — a scan stays inside, and meets the records in front of a torn one and
  nothing else.

## Main results

* `Racs.walScan_isSome_iff` — when a scan stays inside.
* `Racs.scanConfined_iff` — for which segments a scan is confined.
-/

namespace Racs

open ByteBuffer

/-! ### Units -/

/-- What one call of `racs_wal_entry_read` goes past: a whole record, or a header for whose size
there is no memory. -/
inductive WalUnit
  | record (e : WalEntry)
  | refused (opCode checksum : UInt32) (size : UInt64)

/-- The first sixteen bytes of a record. -/
def walHeader (opCode checksum : UInt32) (size : UInt64) : List UInt8 :=
  writeUint32 opCode ++ (writeUint32 checksum ++ writeUint64 size)

@[simp] theorem length_walHeader (opCode checksum : UInt32) (size : UInt64) :
    (walHeader opCode checksum size).length = 16 := by
  simp [walHeader]

theorem WalEntry.bytes_eq (e : WalEntry) :
    e.bytes = walHeader e.opCode e.checksum e.size ++ (e.op ++ writeUint64 e.lsn) := by
  simp only [WalEntry.bytes, walHeader, List.append_assoc]

namespace WalUnit

/-- The bytes of a unit. -/
def bytes : WalUnit → List UInt8
  | .record e => e.bytes
  | .refused opCode checksum size => walHeader opCode checksum size

/-- What the call returns for a unit. -/
def read : WalUnit → Option WalEntry
  | .record e => some e
  | .refused _ _ _ => none

/-- There is memory for the operation of a record, and none for a refused size. -/
def Met (alloc : UInt64 → Bool) : WalUnit → Prop
  | .record e => alloc e.size = true
  | .refused _ _ size => alloc size = false

end WalUnit

variable {alloc : UInt64 → Bool} {data c : List UInt8} {offset : ℕ}

/-- A call at the beginning of a unit goes past it. -/
theorem walEntryRead_unit {u : WalUnit} (hu : u.Met alloc) (h : Holds data offset (u.bytes ++ c)) :
    walEntryRead alloc data offset = some (u.read, offset + u.bytes.length) ∧
      Holds data (offset + u.bytes.length) c := by
  cases u with
  | record e => exact walEntryRead_bytes e hu h
  | refused opCode checksum size =>
    refine ⟨?_, h.skip⟩
    simp only [WalUnit.bytes, walHeader, List.append_assoc] at h
    obtain ⟨hop, h⟩ := readUint32_write h
    obtain ⟨hchecksum, h⟩ := readUint32_write h
    obtain ⟨hsize, -⟩ := readUint64_write h
    have hrefused : alloc size = false := hu
    simp only [walEntryRead, hop, hchecksum, hsize, hrefused, Option.bind_some]
    rw [if_neg Bool.false_ne_true]
    simp [WalUnit.read, WalUnit.bytes]

/-- A call that stays inside of the segment begins at a unit. -/
theorem exists_unit_of_walEntryRead {r : WalRead} (h : Holds data offset c)
    (hread : walEntryRead alloc data offset = some r) :
    ∃ u rest, WalUnit.Met alloc u ∧ c = u.bytes ++ rest := by
  simp only [walEntryRead, Option.bind_eq_some_iff] at hread
  obtain ⟨⟨opCode, next₁⟩, hop, ⟨checksum, next₂⟩, hchecksum, ⟨size, next₃⟩, hsize, hread⟩ := hread
  obtain ⟨rest₁, rfl⟩ := of_readUint32 h hop
  have h₁ := (readUint32_write h).2
  obtain rfl : next₁ = offset + 4 := offset_of_readUint32 hop
  obtain ⟨rest₂, rfl⟩ := of_readUint32 h₁ hchecksum
  have h₂ := (readUint32_write h₁).2
  obtain rfl : next₂ = offset + 4 + 4 := offset_of_readUint32 hchecksum
  obtain ⟨rest₃, rfl⟩ := of_readUint64 h₂ hsize
  have h₃ := (readUint64_write h₂).2
  obtain rfl : next₃ = offset + 4 + 4 + 8 := offset_of_readUint64 hsize
  dsimp only at hread
  split_ifs at hread with halloc
  · simp only [Option.bind_eq_some_iff, Option.map_eq_some_iff] at hread
    obtain ⟨⟨op, next₄⟩, hbin, ⟨lsn, next₅⟩, hlsn, -⟩ := hread
    obtain ⟨rest₄, rfl⟩ := of_readBin h₃ hbin
    have h₄ := (readBin_write h₃ op.2).2
    obtain rfl : next₄ = offset + 4 + 4 + 8 + size.toNat := offset_of_readBin hbin
    obtain ⟨rest₅, rfl⟩ := of_readUint64 h₄ hlsn
    refine ⟨.record ⟨opCode, checksum, size, op.1, lsn, op.2⟩, rest₅, halloc, ?_⟩
    simp only [WalUnit.bytes, WalEntry.bytes, List.append_assoc]
  · refine ⟨.refused opCode checksum size, rest₃, Bool.eq_false_of_not_eq_true halloc, ?_⟩
    simp only [WalUnit.bytes, walHeader, List.append_assoc]

theorem WalUnit.length_bytes_pos (u : WalUnit) : 0 < u.bytes.length := by
  cases u with
  | record e =>
    rw [bytes, e.length_bytes]
    omega
  | refused opCode checksum size =>
    rw [bytes, length_walHeader]
    decide

/-! ### Scans that stay inside -/

/-- The scan of a row of units stays inside of it. -/
theorem walScan_units {units : List WalUnit} (hmet : ∀ u ∈ units, u.Met alloc)
    (h : Holds data offset (units.flatMap WalUnit.bytes)) :
    ∃ reads, walScan alloc data offset = some reads := by
  induction units generalizing offset with
  | nil => exact ⟨[], walScan_of_le h.length_eq.le⟩
  | cons u units ih =>
    rw [List.flatMap_cons] at h
    have hlt : offset < data.length := by
      have hpos := u.length_bytes_pos
      rw [h.length_eq, List.length_append]
      omega
    obtain ⟨hread, hrest⟩ := walEntryRead_unit (hmet u List.mem_cons_self) h
    obtain ⟨reads, hscan⟩ := ih (fun u' hu' => hmet u' (List.mem_cons_of_mem _ hu')) hrest
    refine ⟨(u.read, offset + u.bytes.length) :: reads, ?_⟩
    rw [walScan_of_lt hlt, hread, Option.bind_some, hscan, Option.map_some]

/-- A scan that stays inside of the segment goes past a row of units. -/
theorem exists_units_of_walScan {reads : List WalRead} (h : Holds data offset c)
    (hscan : walScan alloc data offset = some reads) :
    ∃ units : List WalUnit, (∀ u ∈ units, u.Met alloc) ∧ c = units.flatMap WalUnit.bytes := by
  induction reads generalizing offset c with
  | nil =>
    rcases Nat.lt_or_ge offset data.length with hlt | hle
    · rw [walScan_of_lt hlt] at hscan
      obtain ⟨r, -, hmap⟩ := Option.bind_eq_some_iff.mp hscan
      obtain ⟨_, -, hnil⟩ := Option.map_eq_some_iff.mp hmap
      cases hnil
    · rw [h.length_eq] at hle
      exact ⟨[], fun _ hu => absurd hu List.not_mem_nil, List.eq_nil_of_length_eq_zero (by omega)⟩
  | cons r reads ih =>
    obtain ⟨hread, hscan⟩ := walScan_eq_cons hscan
    obtain ⟨u, rest, hu, rfl⟩ := exists_unit_of_walEntryRead h hread
    obtain ⟨hread', hrest⟩ := walEntryRead_unit hu h
    obtain rfl := Option.some.inj (hread.symm.trans hread')
    obtain ⟨units, hmet, rfl⟩ := ih hrest hscan
    refine ⟨u :: units, fun u' hu' => ?_, rfl⟩
    rcases List.mem_cons.mp hu' with rfl | hu'
    · exact hu
    · exact hmet u' hu'

/-- **When a scan stays inside of a segment**: the segment is a row of units. -/
theorem walScan_isSome_iff :
    (walScan alloc data 0).isSome ↔
      ∃ units : List WalUnit, (∀ u ∈ units, u.Met alloc) ∧ data = units.flatMap WalUnit.bytes := by
  rw [Option.isSome_iff_exists]
  constructor
  · rintro ⟨reads, hscan⟩
    exact exists_units_of_walScan (holds_zero data) hscan
  · rintro ⟨units, hmet, hdata⟩
    exact walScan_units hmet (holds_of_eq hdata)

/-! ### Records and torn records -/

/-- The size stands in the header. -/
theorem size_eq_of_walHeader {opCode checksum opCode' checksum' : UInt32} {size size' : UInt64}
    {a b : List UInt8}
    (h : walHeader opCode checksum size ++ a = walHeader opCode' checksum' size' ++ b) :
    size = size' ∧ a = b := by
  obtain ⟨hheader, hrest⟩ := List.append_inj h (by simp)
  obtain ⟨-, hheader⟩ := List.append_inj hheader (by simp)
  obtain ⟨-, hsize⟩ := List.append_inj hheader (by simp)
  rw [← ofNat_decode_writeUint64 size, hsize, ofNat_decode_writeUint64]
  exact ⟨rfl, hrest⟩

/-- Units that begin with the bytes of records begin with these records. -/
theorem units_of_records {es : List WalEntry} (halloc : ∀ e ∈ es, alloc e.size = true)
    {units : List WalUnit} (hmet : ∀ u ∈ units, u.Met alloc) {tail : List UInt8}
    (h : units.flatMap WalUnit.bytes = es.flatMap WalEntry.bytes ++ tail) :
    ∃ units', units = es.map .record ++ units' ∧ units'.flatMap WalUnit.bytes = tail := by
  induction es generalizing units with
  | nil => exact ⟨units, rfl, h⟩
  | cons e es ih =>
    rw [List.flatMap_cons, List.append_assoc] at h
    cases units with
    | nil =>
      have hlen := congrArg List.length h
      rw [List.flatMap_nil, List.length_append, e.length_bytes, List.length_nil] at hlen
      omega
    | cons u units =>
      rw [List.flatMap_cons] at h
      have hunit := (walEntryRead_unit (hmet u List.mem_cons_self)
        (holds_zero (u.bytes ++ units.flatMap WalUnit.bytes))).1
      have hrecord := (walEntryRead_bytes e (halloc e List.mem_cons_self) (holds_of_eq h)).1
      have hread : u.read = some e :=
        (Prod.mk.inj (Option.some.inj (hunit.symm.trans hrecord))).1
      obtain rfl : u = .record e := by
        cases u with
        | record e' => rw [Option.some.inj hread]
        | refused opCode checksum size => cases hread
      obtain ⟨units', rfl, htail⟩ := ih (fun e' he' => halloc e' (List.mem_cons_of_mem _ he'))
        (fun u' hu' => hmet u' (List.mem_cons_of_mem _ hu')) (List.append_cancel_left h)
      exact ⟨units', rfl, htail⟩

/-- Every header with fewer bytes behind it than its record has is the beginning of a record. -/
theorem exists_torn_record (opCode checksum : UInt32) (size : UInt64) {rest : List UInt8}
    (hrest : rest.length < size.toNat + 8) :
    ∃ e : WalEntry, 16 + rest.length < e.bytes.length ∧
      e.bytes.take (16 + rest.length) = walHeader opCode checksum size ++ rest := by
  set padded := rest ++ List.replicate (size.toNat + 8 - rest.length) (0 : UInt8) with hpadded
  have hlen : padded.length = size.toNat + 8 := by
    rw [hpadded, List.length_append, List.length_replicate]
    omega
  have hlsn : writeUint64 (UInt64.ofNat (decode (padded.drop size.toNat))) =
      padded.drop size.toNat := by
    have hdrop : (padded.drop size.toNat).length = 8 := by
      rw [List.length_drop, hlen]
      omega
    have hlt := decode_lt (padded.drop size.toNat)
    rw [hdrop] at hlt
    rw [writeUint64, UInt64.toNat_ofNat', Nat.mod_eq_of_lt (by simpa using hlt)]
    exact hdrop ▸ encode_decode _
  have hop : (padded.take size.toNat).length = size.toNat := by
    rw [List.length_take, hlen]
    omega
  refine ⟨⟨opCode, checksum, size, padded.take size.toNat,
    UInt64.ofNat (decode (padded.drop size.toNat)), hop⟩, ?_, ?_⟩
  · rw [WalEntry.length_bytes]
    dsimp only
    omega
  · rw [WalEntry.bytes_eq]
    dsimp only
    rw [hlsn, List.take_append_drop, hpadded, ← List.append_assoc]
    exact List.take_left' (by simp)

/-- A scan stays inside of the segment, and where the segment consists of records and the beginning
of another one, it meets the records and nothing else. -/
structure ScanConfined (alloc : UInt64 → Bool) (data : List UInt8) : Prop where
  inside : walScan alloc data 0 ≠ none
  exact : ∀ (es : List WalEntry) (e : WalEntry) (n : ℕ), (∀ e ∈ es, alloc e.size = true) →
    n < e.bytes.length → data = es.flatMap WalEntry.bytes ++ e.bytes.take n → ScansAs alloc data es

/-- Behind the first header for whose size there is no memory stand at least as many bytes as its
record would have there. -/
def NoneTorn (units : List WalUnit) : Prop :=
  ∀ (es : List WalEntry) (opCode checksum : UInt32) (size : UInt64) (rest : List WalUnit),
    units = es.map .record ++ .refused opCode checksum size :: rest →
    size.toNat + 8 ≤ (rest.flatMap WalUnit.bytes).length

/-- If none is torn, no bytes are left behind the records where the segment ends with the beginning
of a record. -/
theorem eq_nil_of_noneTorn {es : List WalEntry} {units : List WalUnit} {e : WalEntry} {n : ℕ}
    (hn : n < e.bytes.length) (htail : units.flatMap WalUnit.bytes = e.bytes.take n)
    (hwhole : NoneTorn (es.map .record ++ units)) : units = [] := by
  rcases units with - | ⟨u, units⟩
  · rfl
  exfalso
  have hbytes : e.bytes = (u :: units).flatMap WalUnit.bytes ++ e.bytes.drop n := by
    rw [htail, List.take_append_drop]
  have hlen := congrArg List.length htail
  rw [List.length_take, min_eq_left hn.le, List.flatMap_cons, List.length_append] at hlen
  rw [e.length_bytes, e.length_op] at hn
  rw [e.bytes_eq, List.flatMap_cons, List.append_assoc] at hbytes
  cases u with
  | record e' =>
    -- a whole record with the header of `e` is as long as `e`
    rw [WalUnit.bytes, e'.bytes_eq, List.append_assoc] at hbytes
    obtain ⟨hsize, -⟩ := size_eq_of_walHeader hbytes
    rw [WalUnit.bytes, e'.length_bytes, e'.length_op, ← hsize] at hlen
    omega
  | refused opCode checksum size =>
    obtain ⟨hsize, -⟩ := size_eq_of_walHeader hbytes
    have hrest := hwhole es opCode checksum size units rfl
    rw [WalUnit.bytes, length_walHeader] at hlen
    rw [hsize] at hn
    omega

/-- **When a scan is confined to a segment**: the segment consists of whole records and of headers
for whose sizes there is no memory, and the segment does not end before the record of a first such
header would end. -/
theorem scanConfined_iff (alloc : UInt64 → Bool) (data : List UInt8) :
    ScanConfined alloc data ↔ ∃ units : List WalUnit, (∀ u ∈ units, u.Met alloc) ∧
      data = units.flatMap WalUnit.bytes ∧ NoneTorn units := by
  constructor
  · rintro ⟨hinside, hexact⟩
    obtain ⟨units, hmet, hdata⟩ :=
      walScan_isSome_iff.mp (Option.isSome_iff_ne_none.mpr hinside)
    refine ⟨units, hmet, hdata, ?_⟩
    rintro es opCode checksum size rest rfl
    by_contra hrest
    obtain ⟨e, hlt, htorn⟩ := exists_torn_record opCode checksum size (not_le.mp hrest)
    have halloc : ∀ e ∈ es, alloc e.size = true := by
      intro e he
      exact hmet (.record e) (List.mem_append_left _ (List.mem_map_of_mem he))
    have hsegment : data = es.flatMap WalEntry.bytes ++
        e.bytes.take (16 + (rest.flatMap WalUnit.bytes).length) := by
      rw [htorn, hdata, List.flatMap_append, List.flatMap_cons, List.flatMap_map]
      rfl
    -- the call at the header would be one more than the records have
    have hlen := (hexact es e _ halloc hlt hsegment).length_eq
    rw [hsegment, List.length_append, List.length_take, min_eq_left hlt.le] at hlen
    omega
  · rintro ⟨units, hmet, hdata, hwhole⟩
    refine ⟨Option.isSome_iff_ne_none.mp (walScan_isSome_iff.mpr ⟨units, hmet, hdata⟩), ?_⟩
    intro es e n halloc hn hsegment
    obtain ⟨units', rfl, htail⟩ := units_of_records halloc hmet (hdata.symm.trans hsegment)
    obtain rfl := eq_nil_of_noneTorn hn htail hwhole
    rw [hsegment, ← htail, List.flatMap_nil, List.append_nil]
    exact scansAs_bytes halloc

/-- A segment of four bytes: the first call reads a header of sixteen. -/
theorem not_scanConfined_short : ¬ ScanConfined (fun _ => true) [0, 0, 0, 0] := by
  intro h
  refine h.inside ?_
  rw [walScan_of_lt (by decide)]
  rfl

end Racs
