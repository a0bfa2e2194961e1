import Racs.WalReplay
import Mathlib.Data.Nat.Count
import Mathlib.Data.Nat.Find

/-!
# The loop over a segment

`racs_wal_replay` reads records while the position is inside the segment. The position is a signed
number that grows by the sizes that are found in the records, and it is compared with the size of
the segment as an unsigned number. Here the sizes are arbitrary: a record may reach past the end of
the segment, where any bytes may be found, and no allocation need succeed.

`racs_wal_entry_read` moves the position past the header before it allocates the operation, but
allocates the entry before it moves the position at all. When the entry cannot be allocated, the
loop comes back to the same record.

## Main definitions

* `Racs.SegmentReplay` — a segment, what is behind it, and what comes of the allocations.
* `Racs.SegmentReplay.pass`, `Racs.SegmentReplay.Ends` — the loop.
* `Racs.SegmentReplay.records` — the number of records along the sizes.

## Main results

* `Racs.SegmentReplay.ends_iff` — the loops that end.
* `Racs.SegmentReplay.iterate_pass_walScan` — the loop reads the records of `Racs.walScan`.
-/

namespace Racs

open ByteBuffer

/-- The bytes at `w` places from `buf + offset` on. -/
def memoryAt (mem : Int64 → UInt8) (offset : Int64) (w : ℕ) : List UInt8 :=
  (List.range w).map fun i => mem (offset + Int64.ofNat i)

@[simp] theorem length_memoryAt (mem : Int64 → UInt8) (offset : Int64) (w : ℕ) :
    (memoryAt mem offset w).length = w := by
  rw [memoryAt, List.length_map, List.length_range]

/-- `racs_wal_entry_read` on any memory, with the position behind what was read. The first `malloc`
succeeds if `entryAlloc` is true, and the second one for the sizes in `opAlloc`. -/
def walEntryReadAt (mem : Int64 → UInt8) (entryAlloc : Bool) (opAlloc : UInt64 → Bool)
    (offset : Int64) : Option WalEntry × Int64 :=
  if entryAlloc then
    let opCode := UInt32.ofNat (decode (memoryAt mem offset 4))
    let offset := offset + 4
    let checksum := UInt32.ofNat (decode (memoryAt mem offset 4))
    let offset := offset + 4
    let size := UInt64.ofNat (decode (memoryAt mem offset 8))
    let offset := offset + 8
    if opAlloc size then
      let op := memoryAt mem offset size.toNat
      let offset := (offset.toUInt64 + size).toInt64
      let lsn := UInt64.ofNat (decode (memoryAt mem offset 8))
      (some ⟨opCode, checksum, size, op, lsn, length_memoryAt ..⟩, offset + 8)
    else (none, offset)
  else (none, offset)

/-- What the loop over a segment meets: the segment and the memory around it, what comes of the
allocations of entries, one for each call of `racs_wal_entry_read`, and for which sizes operations
are allocated, one after another. No memory is as large as `2 ^ 63` bytes. -/
structure SegmentReplay where
  data : List UInt8
  outside : Int64 → UInt8
  entryAlloc : ℕ → Bool
  opAlloc : ℕ → UInt64 → Bool
  length_lt : data.length < 2 ^ 62
  lt_of_opAlloc : ∀ k size, opAlloc k size → size.toNat < 2 ^ 63

namespace SegmentReplay

/-- The byte at `buf + offset`. -/
def byte (r : SegmentReplay) (offset : Int64) : UInt8 :=
  (r.data[offset.toUInt64.toNat]?).getD (r.outside offset)

/-- `offset < segment->size`. -/
def Inside (r : SegmentReplay) (offset : Int64) : Prop := offset.toUInt64.toNat < r.data.length

instance (r : SegmentReplay) (offset : Int64) : Decidable (r.Inside offset) :=
  inferInstanceAs (Decidable (_ < _))

/-- The variables of the loop, with the numbers of entries and of operations that `malloc` was asked
for; the store is undefined behind a pass that is. -/
structure Loop where
  offset : Int64
  entries : ℕ
  ops : ℕ
  store : Option Store

variable (r : SegmentReplay) (P : Platform) (sched : Store → Option Store) (checkpointLsn : UInt64)

/-- The part of a pass behind `racs_wal_entry_read`. -/
def body (store : Option Store) (read : Option WalEntry × Int64) : Option Store :=
  store.bind fun s =>
    (walReplayEntry P checkpointLsn s (read.1, read.2.toUInt64.toNat)).bind sched

/-- One pass of the loop. -/
def pass (l : Loop) : Loop :=
  let read := walEntryReadAt r.byte (r.entryAlloc l.entries) (r.opAlloc l.ops) l.offset
  { offset := read.2
    entries := l.entries + 1
    ops := if r.entryAlloc l.entries then l.ops + 1 else l.ops
    store := body P sched checkpointLsn l.store read }

/-- The loop ends: the position is not inside of the segment after some number of passes. -/
def Ends (s : Store) : Prop :=
  ∃ n, ¬ r.Inside ((r.pass P sched checkpointLsn)^[n] ⟨0, 0, 0, some s⟩).offset

/-- The position of a record along the sizes, counted from zero. -/
def position (r : SegmentReplay) : ℕ → Int64
  | 0 => 0
  | k + 1 => (walEntryReadAt r.byte true (r.opAlloc k) (r.position k)).2

/-! ### The records of a segment -/

variable {r}

/-- **A record moves the position forward**, or out of the segment. -/
theorem toNat_walEntryReadAt {k : ℕ} {offset : Int64} (h : r.Inside offset) :
    offset.toUInt64.toNat + 16 ≤
      (walEntryReadAt r.byte true (r.opAlloc k) offset).2.toUInt64.toNat := by
  have hlt := h.trans r.length_lt
  have hfour : (Int64.toUInt64 4).toNat = 4 := rfl
  have height : (Int64.toUInt64 8).toNat = 8 := rfl
  have hheader : (offset + 4 + 4 + 8).toUInt64.toNat = offset.toUInt64.toNat + 16 := by
    simp only [Int64.toUInt64_add, UInt64.toNat_add, hfour, height]
    omega
  rw [walEntryReadAt, if_pos rfl]
  dsimp only
  split_ifs with halloc
  · -- the position and the size together are less than 2^64
    have hsize := r.lt_of_opAlloc _ _ halloc
    dsimp only
    rw [Int64.toUInt64_add, UInt64.toUInt64_toInt64, UInt64.toNat_add, UInt64.toNat_add, hheader,
      height]
    omega
  · exact hheader.ge

theorem le_position {k : ℕ} (h : ∀ j < k, r.Inside (r.position j)) :
    16 * k ≤ (r.position k).toUInt64.toNat := by
  induction k with
  | zero => exact Nat.zero_le _
  | succ k ih =>
    have hle := ih fun j hj => h j (hj.trans (Nat.lt_succ_self k))
    have hnext := @toNat_walEntryReadAt r k _ (h k (Nat.lt_succ_self k))
    rw [position]
    omega

theorem exists_not_inside (r : SegmentReplay) : ∃ k, ¬ r.Inside (r.position k) := by
  by_contra hall
  rw [not_exists_not] at hall
  have hle := le_position (k := r.data.length) fun j _ => hall j
  have hlt : _ < r.data.length := hall r.data.length
  omega

/-- The number of records along the sizes, to the end of the segment. -/
def records (r : SegmentReplay) : ℕ := Nat.find r.exists_not_inside

/-- The records are at least as long as their headers. -/
theorem records_le (r : SegmentReplay) : r.records ≤ r.data.length / 16 + 1 := by
  rcases hrecords : r.records with - | k
  · exact Nat.zero_le _
  · have hinside : ∀ j ≤ k, r.Inside (r.position j) := by
      intro j hj
      have hlt : j < r.records := by omega
      exact not_not.mp (Nat.find_min r.exists_not_inside hlt)
    have hle := le_position fun j hj => hinside j hj.le
    have hlt : _ < r.data.length := hinside k le_rfl
    omega

/-! ### The loop -/

variable (r)

/-- Each entry that was allocated moves the loop to the next record. -/
theorem iterate_pass (s : Store) (n : ℕ) :
    let l := (r.pass P sched checkpointLsn)^[n] ⟨0, 0, 0, some s⟩
    l.offset = r.position l.ops ∧ l.entries = n ∧ l.ops = Nat.count (r.entryAlloc · = true) n := by
  dsimp only
  induction n with
  | zero => exact ⟨rfl, rfl, rfl⟩
  | succ n ih =>
    obtain ⟨hoffset, hentries, hops⟩ := ih
    rw [Function.iterate_succ_apply']
    generalize (r.pass P sched checkpointLsn)^[n] ⟨0, 0, 0, some s⟩ = l at hoffset hentries hops ⊢
    rw [Nat.count_succ, ← hops]
    simp only [pass, hentries, hoffset]
    cases r.entryAlloc n with
    | true => exact ⟨rfl, trivial, rfl⟩
    | false => exact ⟨rfl, trivial, rfl⟩

/-- **The loops that end** are those for which an entry is allocated at least as often as there are
records. -/
theorem ends_iff (s : Store) :
    r.Ends P sched checkpointLsn s ↔ ∃ n, r.records ≤ Nat.count (r.entryAlloc · = true) n := by
  have hoffset (n : ℕ) : ((r.pass P sched checkpointLsn)^[n] ⟨0, 0, 0, some s⟩).offset =
      r.position (Nat.count (r.entryAlloc · = true) n) := by
    obtain ⟨hoffset, -, hops⟩ := r.iterate_pass P sched checkpointLsn s n
    rw [hoffset, hops]
  simp only [Ends, hoffset]
  constructor
  · rintro ⟨n, hn⟩
    exact ⟨n, Nat.find_min' r.exists_not_inside hn⟩
  · intro h
    -- the first pass behind which so many entries were allocated
    have hfirst := Nat.find_spec h
    refine ⟨Nat.find h, ?_⟩
    have heq : Nat.count (r.entryAlloc · = true) (Nat.find h) = r.records := by
      refine le_antisymm ?_ hfirst
      rcases hfind : Nat.find h with - | n
      · exact Nat.zero_le _
      · have hlt : n < Nat.find h := by omega
        have hbefore := Nat.find_min h hlt
        rw [Nat.count_succ]
        split_ifs <;> omega
    rw [heq]
    exact Nat.find_spec r.exists_not_inside

/-- No entry of a segment of one byte can be allocated. -/
theorem not_ends : ¬ ∀ (r : SegmentReplay) (P : Platform) (sched : Store → Option Store)
    (checkpointLsn : UInt64) (s : Store), r.Ends P sched checkpointLsn s := by
  intro h
  let r : SegmentReplay :=
    ⟨[0], fun _ => 0, fun _ => false, fun _ _ => false, by decide,
      fun _ _ h => absurd h Bool.false_ne_true⟩
  obtain ⟨n, hn⟩ := h r .rational some 0 (Store.init (.small 1 (by decide)))
  have hoffset (n : ℕ) (l : Loop) : ((r.pass .rational some 0)^[n] l).offset = l.offset := by
    induction n generalizing l with
    | zero => rfl
    | succ n ih => exact (ih _).trans rfl
  rw [hoffset] at hn
  exact hn (by decide)

/-! ### The records of a scan -/

variable {r P sched checkpointLsn} {offset : ℕ} {bs : List UInt8}

/-- Inside the segment the memory is the segment. -/
theorem memoryAt_byte {w : ℕ} (h : slice r.data offset w = some bs) :
    memoryAt r.byte (Int64.ofNat offset) w = bs := by
  obtain ⟨hle, rfl⟩ := slice_eq_some.mp h
  have hlt := r.length_lt
  refine List.ext_getElem ?_ fun i hi _ => ?_
  · rw [length_memoryAt, List.length_take, List.length_drop]
    omega
  · rw [length_memoryAt] at hi
    have hindex : (Int64.ofNat offset + Int64.ofNat i).toUInt64.toNat = offset + i := by
      rw [Int64.toUInt64_add, Int64.toUInt64_ofNat', Int64.toUInt64_ofNat', UInt64.toNat_add,
        UInt64.toNat_ofNat', UInt64.toNat_ofNat']
      omega
    simp only [memoryAt, List.getElem_map, List.getElem_range, List.getElem_take, List.getElem_drop]
    rw [byte, hindex, List.getElem?_eq_getElem (by omega), Option.getD_some]

theorem readUint32_byte {word : UInt32} {next : ℕ}
    (h : readUint32 r.data offset = some (word, next)) :
    UInt32.ofNat (decode (memoryAt r.byte (Int64.ofNat offset) 4)) = word ∧
      Int64.ofNat offset + 4 = Int64.ofNat next := by
  obtain ⟨bs, hslice, heq⟩ := Option.map_eq_some_iff.mp h
  obtain ⟨rfl, rfl⟩ := Prod.mk.inj heq
  rw [memoryAt_byte hslice]
  exact ⟨rfl, (Int64.ofNat_add offset 4).symm⟩

theorem readUint64_byte {word : UInt64} {next : ℕ}
    (h : readUint64 r.data offset = some (word, next)) :
    UInt64.ofNat (decode (memoryAt r.byte (Int64.ofNat offset) 8)) = word ∧
      Int64.ofNat offset + 8 = Int64.ofNat next := by
  obtain ⟨bs, hslice, heq⟩ := Option.map_eq_some_iff.mp h
  obtain ⟨rfl, rfl⟩ := Prod.mk.inj heq
  rw [memoryAt_byte hslice]
  exact ⟨rfl, (Int64.ofNat_add offset 8).symm⟩

theorem readBin_byte {size : UInt64} {op : {bs : List UInt8 // bs.length = size.toNat}} {next : ℕ}
    (h : readBin r.data offset size.toNat = some (op, next)) :
    memoryAt r.byte (Int64.ofNat offset) size.toNat = op.1 ∧ size.toNat < 2 ^ 62 ∧
      ((Int64.ofNat offset).toUInt64 + size).toInt64 = Int64.ofNat next := by
  rw [readBin] at h
  split_ifs at h with hinside
  obtain ⟨rfl, rfl⟩ := Prod.mk.inj (Option.some.inj h)
  have hlt := r.length_lt
  refine ⟨memoryAt_byte (slice_eq_some.mpr ⟨hinside, rfl⟩), by omega, ?_⟩
  rw [UInt64.toInt64_add, Int64.ofNat_add, Int64.toInt64_toUInt64]
  exact congrArg (Int64.ofNat offset + UInt64.toInt64 ·) UInt64.ofNat_toNat.symm

/-- A record inside the segment is read in the same way. -/
theorem walEntryReadAt_byte {alloc : UInt64 → Bool}
    (halloc : ∀ size, size.toNat < 2 ^ 62 → alloc size = true) {read : WalRead}
    (h : walEntryRead (fun _ => true) r.data offset = some read) :
    walEntryReadAt r.byte true alloc (Int64.ofNat offset) = (read.1, Int64.ofNat read.2) := by
  simp only [walEntryRead, Option.bind_eq_some_iff, Option.map_eq_some_iff, if_true] at h
  obtain ⟨⟨opCode, offset₁⟩, hopCode, ⟨checksum, offset₂⟩, hchecksum, ⟨size, offset₃⟩, hsize,
    ⟨op, offset₄⟩, hop, ⟨lsn, offset₅⟩, hlsn, rfl⟩ := h
  obtain ⟨hopCode, hnext₁⟩ := readUint32_byte hopCode
  obtain ⟨hchecksum, hnext₂⟩ := readUint32_byte hchecksum
  obtain ⟨hsize, hnext₃⟩ := readUint64_byte hsize
  obtain ⟨hop, hlt, hnext₄⟩ := readBin_byte hop
  obtain ⟨hlsn, hnext₅⟩ := readUint64_byte hlsn
  simp only [walEntryReadAt, if_true, hopCode, hnext₁, hchecksum, hnext₂, hsize, hnext₃,
    halloc size hlt, hop, hnext₄, hlsn, hnext₅]

/-- **The loop over whole records** reads those of the scan. -/
theorem iterate_pass_walScan (hentry : ∀ i, r.entryAlloc i = true)
    (hop : ∀ k size, size.toNat < 2 ^ 62 → r.opAlloc k size = true) {reads : List WalRead}
    (hle : offset ≤ r.data.length) (h : walScan (fun _ => true) r.data offset = some reads)
    {l : Loop} (hoffset : l.offset = Int64.ofNat offset) :
    ¬ r.Inside ((r.pass P sched checkpointLsn)^[reads.length] l).offset ∧
      ((r.pass P sched checkpointLsn)^[reads.length] l).store = l.store.bind fun s =>
        reads.foldlM (fun s read => (walReplayEntry P checkpointLsn s read).bind sched) s := by
  have hlt := r.length_lt
  have htoNat {n : ℕ} (hn : n ≤ r.data.length) : (Int64.ofNat n).toUInt64.toNat = n := by
    rw [Int64.toUInt64_ofNat', UInt64.toNat_ofNat', Nat.mod_eq_of_lt (by omega)]
  induction reads generalizing offset l with
  | nil =>
    refine ⟨?_, (Option.bind_fun_some l.store).symm⟩
    rw [List.length_nil, Function.iterate_zero_apply, hoffset, Inside, htoNat hle]
    intro hinside
    rw [walScan_of_lt hinside] at h
    obtain ⟨read, -, hrest⟩ := Option.bind_eq_some_iff.mp h
    obtain ⟨reads, -, hcons⟩ := Option.map_eq_some_iff.mp hrest
    cases hcons
  | cons read reads ih =>
    obtain ⟨hread, hrest⟩ := walScan_eq_cons h
    have hnext := (walEntryRead_length hread).2
    have hpass : r.pass P sched checkpointLsn l =
        { offset := Int64.ofNat read.2, entries := l.entries + 1, ops := l.ops + 1,
          store := l.store.bind fun s => (walReplayEntry P checkpointLsn s read).bind sched } := by
      rw [pass, hentry, hoffset, walEntryReadAt_byte (hop l.ops) hread, body]
      simp only [htoNat hnext, if_true]
    rw [List.length_cons, Function.iterate_succ_apply, hpass]
    have hrun := @ih read.2 hnext hrest ⟨Int64.ofNat read.2, l.entries + 1, l.ops + 1,
      l.store.bind fun s => (walReplayEntry P checkpointLsn s read).bind sched⟩ rfl
    refine ⟨hrun.1, hrun.2.trans ?_⟩
    rw [Option.bind_assoc]
    rfl

/-- The loop over a segment of whole records is that of `Racs.walReplaySegment`. -/
theorem ends_and_store_eq (hentry : ∀ i, r.entryAlloc i = true)
    (hop : ∀ k size, size.toNat < 2 ^ 62 → r.opAlloc k size = true) {s s' : Store} {segno : ℕ}
    {segment : Segment} (hfind : s.disk.wal.segments.find? (·.segno = segno) = some segment)
    (hdata : segment.data = r.data)
    (h : walReplaySegment P sched checkpointLsn s segno = some s') :
    ∃ n, ¬ r.Inside ((r.pass P sched checkpointLsn)^[n] ⟨0, 0, 0, some s⟩).offset ∧
      ((r.pass P sched checkpointLsn)^[n] ⟨0, 0, 0, some s⟩).store = some s' := by
  rw [walReplaySegment, hfind] at h
  dsimp only at h
  rw [hdata] at h
  obtain ⟨reads, hscan, hfold⟩ := Option.bind_eq_some_iff.mp h
  have hrun := @iterate_pass_walScan r P sched checkpointLsn 0 hentry hop reads (Nat.zero_le _)
    hscan ⟨0, 0, 0, some s⟩ rfl
  exact ⟨reads.length, hrun.1, hrun.2.trans hfold⟩

end SegmentReplay

end Racs
