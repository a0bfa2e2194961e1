import Racs.Memtable

/-!
# SSTables

The image of a memtable in a file (`memtable.c`): a header of 16 bytes with the size of the image
and the version, the entries, an index with the key and the offset of each entry, and the number
of entries in the last two bytes. A reader finds the index from the end of the file and reads each
entry at its offset, and drops an entry whose checksum is not that of its block.

## Main definitions

* `Racs.sstableImage` — the bytes that `racs_memtable_write` puts into a file.
* `Racs.sstableReadInMemory`, `Racs.memtableEntryRead`, `Racs.sstableEntries` — reading them.

## Main results

* `Racs.sstableEntries_image`, `Racs.sstable_decode_encode` — the entries of an image are those of
  the memtable.
-/

namespace Racs

open ByteBuffer

/-- `RACS_HEADER_SIZE`. -/
def headerSize : ℕ := 16

/-- `RACS_TRAILER_SIZE`. -/
def trailerSize : ℕ := 2

/-- `RACS_INDEX_ENTRY_SIZE`. -/
def indexEntrySize : ℕ := 24

/-- `RACS_MEMTABLE_ENTRY_METADATA_SIZE`. -/
def memtableEntryMetadataSize : ℕ := 31

/-- `RACS_MAX_BLOCK_SIZE`. -/
def maxBlockSize : ℕ := 65536

/-- `RACS_VERSION`, from `version.h`. -/
def racsVersion : UInt32 := 100

/-- `racs_sstable_index_entry`. -/
structure SstableIndexEntry where
  key : UInt64 × UInt64
  offset : UInt64
  deriving DecidableEq

/-! ### Writing -/

/-- `racs_memtable_entry_write`. -/
def memtableEntryWrite (e : MemtableEntry) : List UInt8 :=
  writeUint64 e.key.1 ++ writeUint64 e.key.2 ++ writeUint64 e.lsn ++ writeUint32 e.checksum ++
    writeUint16 e.blockSize ++ [e.flags] ++ e.block

theorem length_memtableEntryWrite (e : MemtableEntry) :
    (memtableEntryWrite e).length = memtableEntryMetadataSize + e.block.length := by
  simp only [memtableEntryWrite, List.length_append, length_writeUint64, length_writeUint32,
    length_writeUint16, List.length_singleton, memtableEntryMetadataSize]

/-- `racs_memtable_to_sstable` from an offset on: the bytes of the entries and their index. -/
def memtableToSstable : ℕ → List MemtableEntry → List UInt8 × List SstableIndexEntry
  | _, [] => ([], [])
  | offset, e :: es =>
    let rest := memtableToSstable (offset + (memtableEntryWrite e).length) es
    (memtableEntryWrite e ++ rest.1, ⟨e.key, UInt64.ofNat offset⟩ :: rest.2)

/-- `racs_write_index_entry`. -/
def writeIndexEntry (ie : SstableIndexEntry) : List UInt8 :=
  writeUint64 ie.key.1 ++ writeUint64 ie.key.2 ++ writeUint64 ie.offset

@[simp] theorem length_writeIndexEntry (ie : SstableIndexEntry) :
    (writeIndexEntry ie).length = indexEntrySize := by
  simp [writeIndexEntry, indexEntrySize]

/-- `racs_sstable_index_entries_write`. -/
def sstableIndexEntriesWrite (index : List SstableIndexEntry) : List UInt8 :=
  index.flatMap writeIndexEntry ++ writeUint16 (UInt16.ofNat index.length)

/-- What `racs_sstable_write` puts into the header. -/
def sstableHeader (size : ℕ) : List UInt8 :=
  writeUint64 (UInt64.ofNat size) ++ writeUint32 racsVersion ++ writeUint32 0

/-- The size of the image. -/
def sstableImageSize (es : List MemtableEntry) : ℕ :=
  headerSize + (memtableToSstable headerSize es).1.length +
    (sstableIndexEntriesWrite (memtableToSstable headerSize es).2).length

/-- The image of the entries, as it is written to the file. -/
def sstableImage (es : List MemtableEntry) : List UInt8 :=
  let (body, index) := memtableToSstable headerSize es
  sstableHeader (sstableImageSize es) ++ body ++ sstableIndexEntriesWrite index

/-! ### Reading -/

/-- One round of the loop of `racs_sstable_read_index_entries_in_memory`. -/
def readIndexEntry (data : List UInt8) (offset : ℕ) : Option (SstableIndexEntry × ℕ) :=
  (readUint64 data offset).bind fun (key0, offset) =>
  (readUint64 data offset).bind fun (key1, offset) =>
  (readUint64 data offset).map fun (entryOffset, offset) => (⟨(key0, key1), entryOffset⟩, offset)

/-- `racs_sstable_read_index_entries_in_memory`. -/
def readIndexEntries (data : List UInt8) : ℕ → ℕ → Option (List SstableIndexEntry)
  | 0, _ => some []
  | n + 1, offset => (readIndexEntry data offset).bind fun (ie, offset) =>
      (readIndexEntries data n offset).map (ie :: ·)

/-- `racs_sstable_read_in_memory`; undefined when it reads outside the data. -/
def sstableReadInMemory (data : List UInt8) (size : ℕ) : Option (List SstableIndexEntry) :=
  if size < trailerSize then none
  else (readUint16 data (size - trailerSize)).bind fun (numEntries, _) =>
    if size < numEntries.toNat * indexEntrySize + trailerSize then none
    else readIndexEntries data numEntries.toNat
      (size - numEntries.toNat * indexEntrySize - trailerSize)

/-- `racs_memtable_entry_read`, the null pointer for an entry whose checksum does not match;
undefined when it reads outside the data. -/
def memtableEntryRead (buf : List UInt8) (offset : ℕ) : Option (Option MemtableEntry) :=
  (readUint64 buf offset).bind fun (key0, offset) =>
  (readUint64 buf offset).bind fun (key1, offset) =>
  (readUint64 buf offset).bind fun (lsn, offset) =>
  (readUint32 buf offset).bind fun (checksum, offset) =>
  (readUint16 buf offset).bind fun (blockSize, offset) =>
  (readBin buf offset 1).bind fun (flags, offset) =>
  (readBin buf offset blockSize.toNat).map fun (block, _) =>
    if crc32c 0 block.1 = checksum then
      some ⟨(key0, key1), lsn, checksum, blockSize, flags.1.headD 0, block.1, block.2⟩
    else none

/-- The entries of a file, as the readers of a complete file go through them: the size is the word
in front, and the entries are read at the offsets of the index, in its order. -/
def sstableEntries (data : List UInt8) : Option (List (Option MemtableEntry)) :=
  (readUint64 data 0).bind fun (size, _) =>
  (sstableReadInMemory data size.toNat).bind fun index =>
    index.mapM fun ie => memtableEntryRead data ie.offset.toNat

/-! ### Reading an image -/

/-- The entry as it is read, none when its checksum is not that of its block. -/
def MemtableEntry.checked (e : MemtableEntry) : Option MemtableEntry :=
  if crc32c 0 e.block = e.checksum then some e else none

theorem memtableEntryRead_write {buf c : List UInt8} {offset : ℕ} (e : MemtableEntry)
    (h : Holds buf offset (memtableEntryWrite e ++ c)) :
    memtableEntryRead buf offset = some e.checked := by
  simp only [memtableEntryWrite, List.append_assoc] at h
  obtain ⟨hkey0, h⟩ := readUint64_write h
  obtain ⟨hkey1, h⟩ := readUint64_write h
  obtain ⟨hlsn, h⟩ := readUint64_write h
  obtain ⟨hsum, h⟩ := readUint32_write h
  obtain ⟨hsize, h⟩ := readUint16_write h
  obtain ⟨hflags, h⟩ := readBin_write h (List.length_singleton (a := e.flags))
  obtain ⟨hblock, -⟩ := readBin_write h e.length_block
  simp only [memtableEntryRead, hkey0, hkey1, hlsn, hsum, hsize, hflags, hblock, Option.bind_some,
    Option.map_some, List.headD_cons, MemtableEntry.checked]

theorem readIndexEntries_write {buf c : List UInt8} {offset : ℕ}
    (index : List SstableIndexEntry) (h : Holds buf offset (index.flatMap writeIndexEntry ++ c)) :
    readIndexEntries buf index.length offset = some index ∧
      Holds buf (offset + index.length * indexEntrySize) c := by
  induction index generalizing offset with
  | nil => exact ⟨rfl, by simpa using h⟩
  | cons ie index ih =>
    simp only [List.flatMap_cons, writeIndexEntry, List.append_assoc] at h
    obtain ⟨hkey0, h⟩ := readUint64_write h
    obtain ⟨hkey1, h⟩ := readUint64_write h
    obtain ⟨hoffset, h⟩ := readUint64_write h
    obtain ⟨hread, hrest⟩ := ih h
    constructor
    · simp only [List.length_cons, readIndexEntries, readIndexEntry, hkey0, hkey1, hoffset,
        Option.bind_some, Option.map_some, hread]
    · rw [List.length_cons]
      convert hrest using 1
      simp only [indexEntrySize]
      ring

theorem length_index (offset : ℕ) (es : List MemtableEntry) :
    (memtableToSstable offset es).2.length = es.length := by
  induction es generalizing offset with
  | nil => rfl
  | cons e es ih => rw [memtableToSstable, List.length_cons, List.length_cons, ih]

/-- Reading at the offsets of the index returns the entries. -/
theorem mapM_memtableEntryRead {buf c : List UInt8} {offset : ℕ} (es : List MemtableEntry)
    (h : Holds buf offset ((memtableToSstable offset es).1 ++ c)) (hsize : buf.length < 2 ^ 64) :
    ((memtableToSstable offset es).2.mapM fun ie => memtableEntryRead buf ie.offset.toNat) =
      some (es.map MemtableEntry.checked) := by
  induction es generalizing offset with
  | nil => rfl
  | cons e es ih =>
    rw [memtableToSstable, List.append_assoc] at h
    have hoffset : (UInt64.ofNat offset).toNat = offset := by
      have hlen := h.length_eq
      exact UInt64.toNat_ofNat_of_lt' (by have : UInt64.size = 2 ^ 64 := rfl; omega)
    have hread := memtableEntryRead_write e h
    have hrest := ih h.skip
    rw [memtableToSstable, List.mapM_cons, hoffset, hread, hrest]
    rfl

theorem length_sstableHeader (size : ℕ) : (sstableHeader size).length = headerSize := by
  simp only [sstableHeader, List.length_append, length_writeUint64, length_writeUint32, headerSize]

theorem sstableImage_eq (es : List MemtableEntry) :
    sstableImage es = sstableHeader (sstableImageSize es) ++
      ((memtableToSstable headerSize es).1 ++
        sstableIndexEntriesWrite (memtableToSstable headerSize es).2) := by
  simp only [sstableImage, List.append_assoc]

theorem length_sstableImage (es : List MemtableEntry) :
    (sstableImage es).length = sstableImageSize es := by
  rw [sstableImage_eq, List.length_append, List.length_append, length_sstableHeader,
    sstableImageSize, Nat.add_assoc]

theorem length_flatMap_writeIndexEntry (index : List SstableIndexEntry) :
    (index.flatMap writeIndexEntry).length = index.length * indexEntrySize := by
  induction index with
  | nil => rfl
  | cons ie index ih =>
    rw [List.flatMap_cons, List.length_append, length_writeIndexEntry, ih, List.length_cons]
    ring

theorem sstableImageSize_eq (es : List MemtableEntry) :
    sstableImageSize es = headerSize + (memtableToSstable headerSize es).1.length +
      es.length * indexEntrySize + trailerSize := by
  rw [sstableImageSize, sstableIndexEntriesWrite, List.length_append,
    length_flatMap_writeIndexEntry, length_index, length_writeUint16, trailerSize]
  ring

/-- The index of an image is found from its end. -/
theorem sstableReadInMemory_image (es : List MemtableEntry) (hlen : es.length < 2 ^ 16) :
    sstableReadInMemory (sstableImage es) (sstableImageSize es) =
      some (memtableToSstable headerSize es).2 := by
  have himage := holds_of_eq (sstableImage_eq es)
  have hindex := himage.skip.skip
  rw [length_sstableHeader, Nat.zero_add, sstableIndexEntriesWrite] at hindex
  obtain ⟨hread, htrailer⟩ := readIndexEntries_write _ hindex
  rw [← List.append_nil (writeUint16 _)] at htrailer
  have hnum := (readUint16_write htrailer).1
  have htoNat : (UInt16.ofNat es.length).toNat = es.length :=
    UInt16.toNat_ofNat_of_lt' hlen
  rw [length_index] at hread hnum
  have hpos : sstableImageSize es - trailerSize =
      headerSize + (memtableToSstable headerSize es).1.length + es.length * indexEntrySize := by
    rw [sstableImageSize_eq, Nat.add_sub_cancel]
  have hge : ¬ sstableImageSize es < trailerSize := by
    rw [sstableImageSize_eq]
    omega
  have hfit : ¬ sstableImageSize es < es.length * indexEntrySize + trailerSize := by
    rw [sstableImageSize_eq]
    omega
  have hstart : sstableImageSize es - es.length * indexEntrySize - trailerSize =
      headerSize + (memtableToSstable headerSize es).1.length := by
    rw [sstableImageSize_eq]
    omega
  rw [sstableReadInMemory, if_neg hge, hpos, hnum, Option.bind_some]
  dsimp only
  rw [htoNat, if_neg hfit, hstart, hread]

/-- The bytes of the entries, with the largest block for each. -/
theorem length_memtableToSstable_le (es : List MemtableEntry) (offset : ℕ) :
    (memtableToSstable offset es).1.length ≤
      es.length * (maxBlockSize + memtableEntryMetadataSize) := by
  induction es generalizing offset with
  | nil => exact le_refl 0
  | cons e es ih =>
    have hrest := ih (offset + (memtableEntryWrite e).length)
    have hblock := e.blockSize.toNat_lt
    have hwrite := length_memtableEntryWrite e
    rw [e.length_block] at hwrite
    rw [memtableToSstable, List.length_append, List.length_cons, Nat.succ_mul]
    simp only [maxBlockSize] at hrest ⊢
    omega

/-- The size of an image of at most 65535 entries. -/
theorem sstableImageSize_lt (es : List MemtableEntry) (hlen : es.length < 2 ^ 16) :
    sstableImageSize es < 2 ^ 64 := by
  have h := length_memtableToSstable_le es headerSize
  rw [sstableImageSize_eq]
  simp only [headerSize, indexEntrySize, trailerSize, maxBlockSize,
    memtableEntryMetadataSize] at h ⊢
  omega

/-- Reading an image at the offsets of its index. -/
theorem mapM_memtableEntryRead_image (es : List MemtableEntry) (hlen : es.length < 2 ^ 16) :
    ((memtableToSstable headerSize es).2.mapM fun ie =>
      memtableEntryRead (sstableImage es) ie.offset.toNat) =
      some (es.map MemtableEntry.checked) := by
  have hbody := (holds_of_eq (sstableImage_eq es)).skip
  rw [length_sstableHeader, Nat.zero_add] at hbody
  exact mapM_memtableEntryRead es hbody
    (by rw [length_sstableImage]; exact sstableImageSize_lt es hlen)

/-- **The entries of an image are those of the memtable**, without the ones whose checksum is not
that of the block. -/
theorem sstableEntries_image (es : List MemtableEntry) (hlen : es.length < 2 ^ 16) :
    sstableEntries (sstableImage es) = some (es.map MemtableEntry.checked) := by
  have hsize := sstableImageSize_lt es hlen
  have himage := holds_of_eq (sstableImage_eq es)
  have hread : readUint64 (sstableImage es) 0 =
      some (UInt64.ofNat (sstableImageSize es), 8) := by
    rw [sstableHeader, List.append_assoc, List.append_assoc] at himage
    exact (readUint64_write himage).1
  have htoNat : (UInt64.ofNat (sstableImageSize es)).toNat = sstableImageSize es :=
    UInt64.toNat_ofNat_of_lt' hsize
  have hentries := mapM_memtableEntryRead_image es hlen
  rw [sstableEntries, hread, Option.bind_some]
  dsimp only
  rw [htoNat, sstableReadInMemory_image es hlen, Option.bind_some, hentries]

theorem map_checked {es : List MemtableEntry} (h : ∀ e ∈ es, crc32c 0 e.block = e.checksum) :
    es.map MemtableEntry.checked = es.map some :=
  List.map_congr_left fun e he => if_pos (h e he)

theorem reduceOption_map_some {α : Type*} (l : List α) : (l.map some).reduceOption = l :=
  List.filterMap_map.trans List.filterMap_some

/-- **Decoding undoes encoding.** The image of at most 65535 entries, each with the checksum of its
block, is read back from the size in its first eight bytes, its trailer and its index: the reads
stay inside the image and return the same entries in the same order. -/
theorem sstable_decode_encode (es : List MemtableEntry) (hlen : es.length ≤ 65535)
    (hchecksum : ∀ e ∈ es, e.checksum = crc32c 0 e.block) :
    sstableEntries (sstableImage es) = some (es.map some) := by
  rw [sstableEntries_image es (by omega), map_checked fun e he => (hchecksum e he).symm]

/-- Two entries of different streams and sizes. -/
theorem sstable_decode_encode_pair :
    sstableEntries (sstableImage [⟨(7, 1000), 1, crc32c 0 [1, 2, 3], 3, 0, [1, 2, 3], rfl⟩,
      ⟨(9, 990), 2, crc32c 0 [], 0, 1, [], rfl⟩]) =
    some [some ⟨(7, 1000), 1, crc32c 0 [1, 2, 3], 3, 0, [1, 2, 3], rfl⟩,
      some ⟨(9, 990), 2, crc32c 0 [], 0, 1, [], rfl⟩] :=
  sstable_decode_encode [⟨(7, 1000), 1, crc32c 0 [1, 2, 3], 3, 0, [1, 2, 3], rfl⟩,
    ⟨(9, 990), 2, crc32c 0 [], 0, 1, [], rfl⟩] (by decide) (by simp)

end Racs
