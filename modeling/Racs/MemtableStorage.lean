import Racs.MemtableList
import Racs.Sstable
import Mathlib.Data.Int.Basic

/-!
# The memory of memtables

`memtable.entries` of the configuration is an `int`. `racs_memtable_create` keeps 16 bits of it as
the capacity, for which it allocates entries. `racs_memtable_write` computes the size of its buffer
as an `int`, from the number of entries and the largest block, and puts the image of the memtable
into it.

For multiples of 65536 there is no entry to write to. For more than 32740 entries the size does not
fit into an `int`.

## Main definitions

* `Racs.memtableWriteSize` — the size of the buffer of a flush.
* `Racs.StorageSuffices` — appends and flushes stay in the memory that was allocated.

## Main results

* `Racs.storageSuffices_iff` — for which configurations they do.
-/

namespace Racs

open PartialRun

/-! ### The buffer of a flush -/

/-- A value of the type `int`; arithmetic that leaves the type is undefined. -/
def cInt (z : ℤ) : Option ℤ := if -2 ^ 31 ≤ z ∧ z < 2 ^ 31 then some z else none

theorem cInt_of_lt {n : ℕ} (h : n < 2 ^ 31) : cInt n = some (n : ℤ) := if_pos (by omega)

theorem cInt_of_le {n : ℕ} (h : 2 ^ 31 ≤ n) : cInt n = none := if_neg (by omega)

/-- The size of the buffer of `racs_memtable_write`, which is converted to `size_t` behind the
sums. -/
def memtableWriteSize (numEntries : UInt16) : Option UInt64 :=
  (cInt (numEntries.toNat * (maxBlockSize + memtableEntryMetadataSize + indexEntrySize : ℕ))).bind
    fun product =>
  (cInt (headerSize + product)).bind fun sum =>
  (cInt (sum + trailerSize)).map UInt64.ofInt

/-- The image of a memtable is not longer than the buffer that a flush allocates for it. -/
def Memtable.ImageFits (mt : Memtable) : Prop :=
  ∃ size, memtableWriteSize (UInt16.ofNat mt.entries.length) = some size ∧
    (sstableImage mt.entries).length ≤ size.toNat

/-- For up to 32740 entries the size is an `int`. -/
theorem memtableWriteSize_of_le {numEntries : UInt16} (h : numEntries.toNat ≤ 32740) :
    ∃ size, memtableWriteSize numEntries = some size ∧
      size.toNat = headerSize + numEntries.toNat * (maxBlockSize + memtableEntryMetadataSize) +
        numEntries.toNat * indexEntrySize + trailerSize := by
  simp only [headerSize, maxBlockSize, memtableEntryMetadataSize, indexEntrySize, trailerSize]
  refine ⟨UInt64.ofInt (18 + numEntries.toNat * 65591 : ℕ), ?_, ?_⟩
  · have hproduct : cInt ((numEntries.toNat : ℤ) * ((65536 + 31 + 24 : ℕ) : ℤ)) =
        some ((numEntries.toNat * 65591 : ℕ) : ℤ) := by
      rw [← Nat.cast_mul]
      exact cInt_of_lt (by omega)
    have hsum : cInt ((16 : ℕ) + ((numEntries.toNat * 65591 : ℕ) : ℤ)) =
        some ((16 + numEntries.toNat * 65591 : ℕ) : ℤ) := by
      rw [← Nat.cast_add]
      exact cInt_of_lt (by omega)
    have htotal : cInt (((16 + numEntries.toNat * 65591 : ℕ) : ℤ) + (2 : ℕ)) =
        some ((18 + numEntries.toNat * 65591 : ℕ) : ℤ) := by
      have hcomm : 16 + numEntries.toNat * 65591 + 2 = 18 + numEntries.toNat * 65591 := by omega
      rw [← Nat.cast_add, hcomm]
      exact cInt_of_lt (by omega)
    simp only [memtableWriteSize, headerSize, maxBlockSize, memtableEntryMetadataSize,
      indexEntrySize, trailerSize]
    rw [hproduct, Option.bind_some, hsum, Option.bind_some, htotal]
    rfl
  · rw [UInt64.ofInt, Int.emod_eq_of_lt (by omega) (by omega), Int.toNat_natCast,
      UInt64.toNat_ofNat', Nat.mod_eq_of_lt (by omega)]
    omega

/-- For more entries the product is not an `int`. -/
theorem memtableWriteSize_of_lt {numEntries : UInt16} (h : 32740 < numEntries.toNat) :
    memtableWriteSize numEntries = none := by
  have hproduct : cInt ((numEntries.toNat : ℤ) *
      ((maxBlockSize + memtableEntryMetadataSize + indexEntrySize : ℕ) : ℤ)) = none := by
    rw [← Nat.cast_mul]
    refine cInt_of_le ?_
    simp only [maxBlockSize, memtableEntryMetadataSize, indexEntrySize]
    omega
  rw [memtableWriteSize, hproduct, Option.bind_none]

variable {mt : Memtable}

theorem Memtable.toNat_numEntries (mt : Memtable) :
    (UInt16.ofNat mt.entries.length).toNat = mt.entries.length := by
  have hlen := mt.length_le
  have hcapacity := mt.capacity.toNat_lt
  rw [UInt16.toNat_ofNat', Nat.mod_eq_of_lt (by omega)]

/-- **When the image fits**: there are at most 32740 entries. -/
theorem Memtable.imageFits_iff : mt.ImageFits ↔ mt.entries.length ≤ 32740 := by
  constructor
  · rintro ⟨size, hsize, -⟩
    by_contra hlen
    rw [memtableWriteSize_of_lt (by rw [mt.toNat_numEntries]; omega)] at hsize
    cases hsize
  · intro hlen
    obtain ⟨size, hsize, htoNat⟩ :=
      @memtableWriteSize_of_le (UInt16.ofNat mt.entries.length) (by rwa [mt.toNat_numEntries])
    refine ⟨size, hsize, ?_⟩
    have hbody := length_memtableToSstable_le mt.entries headerSize
    rw [length_sstableImage, sstableImageSize_eq, htoNat, mt.toNat_numEntries]
    omega

/-! ### Runs of appends -/

/-- `mt->capacity = capacity`: 16 bits of the number in the configuration. -/
def configCapacity (entries : Int32) : UInt16 := entries.toUInt32.toUInt16

/-- With so many tables and entries in the configuration, every append writes to an entry that was
allocated, and the image of every memtable, in the list or handed to a flush, fits the buffer of its
flush. -/
def StorageSuffices (tables : ℕ) (entries : Int32) : Prop :=
  ∀ es : List MemtableEntry, ∃ mmt full,
    exec multiMemtableAppend (multiMemtableCreate tables (configCapacity entries)) es =
      some (mmt, full) ∧
    (∀ mt ∈ mmt, mt.ImageFits) ∧ ∀ mt, some mt ∈ full → mt.ImageFits

/-- While there is room, a run of appends adds its entries to the memtable. -/
theorem exec_multiMemtableAppend_of_le {es : List MemtableEntry}
    (hroom : mt.entries.length + es.length ≤ mt.capacity.toNat) :
    ∃ mt' full, exec multiMemtableAppend [mt] es = some ([mt'], full) ∧
      mt'.entries = mt.entries ++ es := by
  induction es generalizing mt with
  | nil => exact ⟨mt, [], rfl, (List.append_nil _).symm⟩
  | cons e es ih =>
    rw [List.length_cons] at hroom
    have hlt : mt.entries.length < mt.capacity.toNat := by omega
    have hroom' : (mt.push e hlt).entries.length + es.length ≤
        (mt.push e hlt).capacity.toNat := by
      rw [Memtable.push, List.length_append, List.length_singleton]
      dsimp only
      omega
    obtain ⟨mt', full, hrun, hentries⟩ := ih hroom'
    refine ⟨mt', none :: full, ?_, ?_⟩
    · exact exec_cons_eq_some.mpr ⟨_, none, full, multiMemtableAppend_of_lt e hlt, hrun, rfl⟩
    · rw [hentries, Memtable.push, List.append_assoc, List.singleton_append]

/-- Without a capacity the first append leaves the memory of the memtable. -/
theorem exec_multiMemtableAppend_zero (e : MemtableEntry) (h : mt.capacity.toNat = 0) :
    exec multiMemtableAppend [mt] [e] = none := by
  have hcreate : memtableAppend (memtableCreate mt.capacity) e = none :=
    dif_neg (by rw [memtableCreate]; dsimp only; omega)
  have hstep : multiMemtableAppend [mt] e = none := by
    rw [multiMemtableAppend, List.head?_cons, Option.bind_some, if_pos (by omega),
      multiMemtableMoveToHead, multiMemtableAppendHead, hcreate]
    rfl
  rw [exec_cons, hstep, Option.bind_none]

/-- **When the memory suffices**: 16 bits of the number of entries are at least one and at most
32740. -/
theorem storageSuffices_iff (tables : ℕ) (entries : Int32) :
    StorageSuffices (tables + 1) entries ↔
      1 ≤ (configCapacity entries).toNat ∧ (configCapacity entries).toNat ≤ 32740 := by
  set capacity := configCapacity entries with hcapacity
  have hstart : multiMemtableCreate (tables + 1) capacity = [memtableCreate capacity] :=
    multiMemtableCreate_succ tables capacity
  rw [StorageSuffices, ← hcapacity, hstart]
  constructor
  · intro hsuffices
    constructor
    · by_contra hzero
      obtain ⟨mmt, full, hrun, -⟩ := hsuffices [⟨(0, 0), 0, 0, 0, 0, [], rfl⟩]
      rw [exec_multiMemtableAppend_zero _ (by rw [memtableCreate]; dsimp only; omega)] at hrun
      cases hrun
    · by_contra hlarge
      obtain ⟨mmt, full, hrun, hfits, -⟩ :=
        hsuffices (List.replicate 32741 ⟨(0, 0), 0, 0, 0, 0, [], rfl⟩)
      obtain ⟨mt', full', hrun', hentries⟩ := @exec_multiMemtableAppend_of_le
        (memtableCreate capacity) (List.replicate 32741 ⟨(0, 0), 0, 0, 0, 0, [], rfl⟩)
        (by rw [memtableCreate, List.length_nil, List.length_replicate]; dsimp only; omega)
      obtain ⟨rfl, -⟩ := Prod.mk.inj (Option.some.inj (hrun.symm.trans hrun'))
      have hlen := Memtable.imageFits_iff.mp (hfits mt' (List.mem_singleton_self _))
      rw [hentries, memtableCreate, List.nil_append, List.length_replicate] at hlen
      omega
  · rintro ⟨hpos, hle⟩ es
    obtain ⟨mt', full, hrun, hmt', hfull, -⟩ :=
      @exec_multiMemtableAppend (memtableCreate capacity) hpos es
    have hfits : ∀ mt : Memtable, mt.capacity = capacity → mt.ImageFits := by
      intro mt hmt
      have hlen := mt.length_le
      rw [hmt] at hlen
      exact Memtable.imageFits_iff.mpr (hlen.trans hle)
    refine ⟨[mt'], full, hrun, fun mt hmt => ?_, fun mt hmt => hfits mt (hfull mt hmt)⟩
    rw [List.mem_singleton.mp hmt]
    exact hfits mt' hmt'

/-- 65536 entries for each of 1024 memtables. -/
theorem not_storageSuffices_65536 : ¬ StorageSuffices 1024 65536 := by
  intro hsuffices
  obtain ⟨mmt, full, hrun, -⟩ := hsuffices [⟨(0, 0), 0, 0, 0, 0, [], rfl⟩]
  rw [show multiMemtableCreate 1024 (configCapacity 65536) = [memtableCreate 0] from
    multiMemtableCreate_succ 1023 _, exec_multiMemtableAppend_zero _ rfl] at hrun
  cases hrun

end Racs
