import Racs.Range
import Racs.Recovery
import Racs.SegPath
import Racs.TimeIndex
import Mathlib.Algebra.BigOperators.Group.List.Basic

/-!
# The offsets at the start of the server

`racs_offsets_init` goes through all SSTables once for each stream with metadata, and adds up the
sizes of the blocks of the stream. It adds the stored sizes, where `racs_stream_append` adds the
sizes after decompression.

The entries are read through the field `data` of a structure in which `racs_sstable_read_in_memory`
does not set it, and this field is freed at the end. The structure of the file was freed just
before: the field still has its value if `malloc` returns the same memory again, and is not a buffer
otherwise.

## Main definitions

* `Racs.offsetsInitFile`, `Racs.offsetsInit`.
* `Racs.SstableDir.Complete` — the files are complete SSTables.
* `Racs.OffsetsRebuilt` — the offsets are the decoded sizes of what is stored.

## Main results

* `Racs.SstableDir.Complete.offsetsInit_eq` — what the start computes.
* `Racs.offsetsRebuilt_iff` — when these are the decoded sizes.
-/

namespace Racs

open PartialRun

/-! ### The loops -/

/-- The buffer behind the field `data` that `racs_sstable_read_in_memory` leaves as it is, when the
freed structure pointed to `data`. -/
def unsetData (reused : Bool) (data : List UInt8) : Option (List UInt8) :=
  if reused then some data else none

/-- What the loop over the entries does with one that was read. -/
def offsetsInitEntry (streamId : UInt64) (offsets : Offsets) (entry : Option MemtableEntry) :
    Offsets :=
  match entry with
  | none => offsets
  | some entry =>
    if entry.key.1 = streamId then
      offsetsPut offsets streamId (offsetsGet offsets streamId + entry.blockSize.toUInt64)
    else offsets

/-- The loop over the files in `racs_offsets_init`, for one of them; undefined when the file cannot
be read. The buffer is freed at the end, also when there were no entries to read. -/
def offsetsInitFile (reused : Bool) (d : SstableDir) (streamId : UInt64) (offsets : Offsets)
    (path : List Char) : Option Offsets :=
  (sstableRead d path).bind fun data =>
  (sstableReadInMemory data data.length).bind fun index =>
  (index.foldlM (fun offsets ie =>
    ((unsetData reused data).bind fun data => memtableEntryRead data ie.offset.toNat).map
      (offsetsInitEntry streamId offsets)) offsets).bind fun offsets =>
  (unsetData reused data).map fun _ => offsets

/-- `racs_offsets_init`. -/
def offsetsInit (P : Platform) (reused : Bool) (disk : Disk) (offsets : Offsets) :
    Option Offsets :=
  let list1 := getSortedFilelist (disk.metadata.keys.map (metadataPath P.dataDir))
  let list2 := getSortedFilelist
    (listFilesRecursive disk.sstables (P.dataDir ++ "/.racs/seg".toList))
  list1.foldlM (fun offsets path =>
    list2.foldlM (offsetsInitFile reused disk.sstables (pathToStreamId path)) offsets) offsets

/-! ### Sums of sizes -/

/-- The decoded size of the block of an entry. -/
def MemtableEntry.decodedSize (P : Platform) (e : MemtableEntry) : UInt64 :=
  Racs.decodedSize P e.flags e.blockSize e.block

/-- The stored sizes of the blocks. -/
def storedSize (es : List MemtableEntry) : UInt64 :=
  (es.map fun e => e.blockSize.toUInt64).sum

/-- The decoded sizes of the blocks. -/
def totalDecodedSize (P : Platform) (es : List MemtableEntry) : UInt64 :=
  (es.map (MemtableEntry.decodedSize P)).sum

/-- The entries with compressed blocks. -/
def compressedEntries (es : List MemtableEntry) : List MemtableEntry := es.filter (·.flags = 1)

/-- The files are below the directory of the SSTables and are complete, with the checksums of their
blocks. -/
structure SstableDir.Complete (P : Platform) (d : SstableDir) : Prop where
  below : ∀ path ∈ d, segDir P.dataDir <+: path
  image : ∀ path data, d.lookup path = some data → ∃ es : List MemtableEntry,
    es.length ≤ 65535 ∧ (∀ e ∈ es, e.checksum = crc32c 0 e.block) ∧ data = sstableImage es

/-- At the start the offset of each stream with metadata is the decoded size of its entries in the
SSTables. -/
def OffsetsRebuilt (P : Platform) (reused : Bool) (disk : Disk) : Prop :=
  ∃ offsets, offsetsInit P reused disk offsetsCreate = some offsets ∧
    ∀ streamId ∈ disk.metadata, offsetsGet offsets streamId =
      totalDecodedSize P (entriesOf streamId disk.sstables.storedEntries)

variable {P : Platform}

theorem storedSize_cons (e : MemtableEntry) (es : List MemtableEntry) :
    storedSize (e :: es) = e.blockSize.toUInt64 + storedSize es := by
  rw [storedSize, List.map_cons, List.sum_cons, storedSize]

theorem totalDecodedSize_cons (e : MemtableEntry) (es : List MemtableEntry) :
    totalDecodedSize P (e :: es) = e.decodedSize P + totalDecodedSize P es := by
  rw [totalDecodedSize, List.map_cons, List.sum_cons, totalDecodedSize]

/-- Stored and decoded sizes differ by those of the compressed blocks. -/
theorem storedSize_add_eq (es : List MemtableEntry) :
    storedSize es + totalDecodedSize P (compressedEntries es) =
      totalDecodedSize P es + storedSize (compressedEntries es) := by
  induction es with
  | nil => rfl
  | cons e es ih =>
    rw [storedSize_cons, totalDecodedSize_cons]
    by_cases hflags : e.flags = 1
    · rw [compressedEntries, List.filter_cons_of_pos (by simpa using hflags), storedSize_cons,
        totalDecodedSize_cons, ← compressedEntries]
      calc e.blockSize.toUInt64 + storedSize es +
            (e.decodedSize P + totalDecodedSize P (compressedEntries es))
          = e.blockSize.toUInt64 + e.decodedSize P +
            (storedSize es + totalDecodedSize P (compressedEntries es)) := add_add_add_comm ..
        _ = e.decodedSize P + e.blockSize.toUInt64 +
            (totalDecodedSize P es + storedSize (compressedEntries es)) := by
          rw [ih, add_comm e.blockSize.toUInt64]
        _ = _ := add_add_add_comm ..
    · rw [compressedEntries, List.filter_cons_of_neg (by simpa using hflags), ← compressedEntries,
        MemtableEntry.decodedSize, Racs.decodedSize, if_neg hflags, add_assoc, add_assoc, ih]

theorem storedSize_eq_iff (es : List MemtableEntry) :
    storedSize es = totalDecodedSize P es ↔
      storedSize (compressedEntries es) = totalDecodedSize P (compressedEntries es) := by
  have hadd := storedSize_add_eq (P := P) es
  constructor
  · intro h
    rw [h] at hadd
    exact (UInt64.add_right_inj _).mp hadd.symm
  · intro h
    rw [h] at hadd
    exact (UInt64.add_left_inj _).mp hadd

/-! ### What the loops add up -/

/-- The entries of the file at a path. -/
def SstableDir.entriesAt (d : SstableDir) (path : List Char) : List MemtableEntry :=
  (((d.lookup path).bind sstableEntries).getD []).reduceOption

/-- The loop over the entries adds the stored sizes of those of the stream. -/
theorem offsetsGet_foldl_entries (streamId : UInt64) (es : List MemtableEntry) {offsets : Offsets}
    (hops : offsets.ops.Exact) :
    (es.foldl (fun o e => offsetsInitEntry streamId o (some e)) offsets).ops.Exact ∧
      ∀ id, offsetsGet (es.foldl (fun o e => offsetsInitEntry streamId o (some e)) offsets) id =
        offsetsGet offsets id + if id = streamId then storedSize (entriesOf id es) else 0 := by
  induction es generalizing offsets with
  | nil => exact ⟨hops, fun id => by simp [entriesOf, storedSize]⟩
  | cons e es ih =>
    rw [List.foldl_cons, offsetsInitEntry]
    split_ifs with hkey
    · have hops' : (offsetsPut offsets streamId
          (offsetsGet offsets streamId + e.blockSize.toUInt64)).ops.Exact := hops
      refine ⟨(ih hops').1, fun id => ?_⟩
      rw [(ih hops').2, offsetsGet_put hops]
      split_ifs with hid
      · have hcons : entriesOf id (e :: es) = e :: entriesOf id es :=
          List.filter_cons_of_pos (by simpa [hid] using hkey)
        rw [hcons, storedSize_cons, add_assoc, hid]
      · rfl
    · refine ⟨(ih hops).1, fun id => ?_⟩
      rw [(ih hops).2]
      split_ifs with hid
      · have hcons : entriesOf id (e :: es) = entriesOf id es :=
          List.filter_cons_of_neg (by simpa [hid] using hkey)
        rw [hcons]
      · rfl

namespace SstableDir.Complete

variable {d : SstableDir}

/-- What is read of a file. -/
theorem entriesAt_eq (h : d.Complete P) {path : List Char} (hpath : path ∈ d) :
    ∃ es, d.lookup path = some (sstableImage es) ∧ es.length ≤ 65535 ∧
      sstableEntries (sstableImage es) = some (es.map some) ∧ d.entriesAt path = es := by
  obtain ⟨data, hdata⟩ := Option.isSome_iff_exists.mp (AList.lookup_isSome.mpr hpath)
  obtain ⟨es, hlen, hsum, rfl⟩ := h.image path data hdata
  have hread := sstable_decode_encode es hlen hsum
  refine ⟨es, hdata, hlen, hread, ?_⟩
  rw [entriesAt, hdata, Option.bind_some, hread, Option.getD_some, reduceOption_map_some]

theorem flatMap_entriesAt (d : SstableDir) : d.keys.flatMap d.entriesAt = d.storedEntries := by
  rw [storedEntries, AList.keys, List.keys, List.flatMap_map]
  refine List.flatMap_congr fun file hfile => ?_
  have hlookup : d.lookup file.1 = some file.2 := List.mem_dlookup d.nodupKeys hfile
  rw [entriesAt, hlookup, Option.bind_some]

/-- The list of files is that of the directory. -/
theorem perm_list (h : d.Complete P) :
    (getSortedFilelist (listFilesRecursive d (P.dataDir ++ "/.racs/seg".toList))).Perm d.keys := by
  refine (perm_getSortedFilelist _).trans ?_
  rw [listFilesRecursive, List.filter_eq_self.mpr]
  intro path hpath
  have hprefix := h.below path (AList.mem_keys.mpr hpath)
  have hslash : segDir P.dataDir = P.dataDir ++ "/.racs/seg".toList ++ ['/'] := by
    rw [segDir, List.append_assoc]
    rfl
  rw [hslash] at hprefix
  exact List.isPrefixOf_iff_prefix.mpr hprefix

/-- One turn of the loop over the files. -/
theorem offsetsInitFile_eq (h : d.Complete P) {path : List Char} (hpath : path ∈ d)
    (streamId : UInt64) (offsets : Offsets) : offsetsInitFile true d streamId offsets path = some
      ((d.entriesAt path).foldl (fun o e => offsetsInitEntry streamId o (some e)) offsets) := by
  obtain ⟨es, hlookup, hlen, hentries, heq⟩ := h.entriesAt_eq hpath
  rw [offsetsInitFile, sstableRead_image hlookup, Option.bind_some, length_sstableImage,
    sstableReadInMemory_image es (by omega), Option.bind_some, heq]
  have hchecked := Option.some.inj ((sstableEntries_image es (by omega)).symm.trans hentries)
  have hfold := foldlM_map_eq (g := fun ie => memtableEntryRead (sstableImage es) ie.offset.toNat)
    (h := offsetsInitEntry streamId) (memtableToSstable headerSize es).2 offsets
  rw [mapM_memtableEntryRead_image es (by omega), Option.map_some, hchecked,
    List.foldl_map] at hfold
  exact congrArg (Option.bind · _) hfold

/-- Without the buffer, what is freed is undefined. -/
theorem offsetsInitFile_eq_none (d : SstableDir) (streamId : UInt64) (offsets : Offsets)
    (path : List Char) : offsetsInitFile false d streamId offsets path = none := by
  rw [offsetsInitFile]
  refine Option.bind_eq_none_iff.mpr fun data _ => Option.bind_eq_none_iff.mpr fun index _ =>
    Option.bind_eq_none_iff.mpr fun offsets _ => ?_
  rfl

/-- The loop over the files. -/
theorem foldlM_offsetsInitFile_eq (h : d.Complete P) {paths : List (List Char)}
    (hpaths : paths.Perm d.keys) {reused : Bool} (hread : reused = true ∨ d.keys = [])
    (streamId : UInt64) (offsets : Offsets) :
    paths.foldlM (offsetsInitFile reused d streamId) offsets =
      some ((paths.flatMap d.entriesAt).foldl (fun o e => offsetsInitEntry streamId o (some e))
        offsets) := by
  rcases hread with rfl | hnil
  · rw [List.foldl_flatMap]
    refine foldlM_eq_foldl (fun path hpath s => h.offsetsInitFile_eq ?_ streamId s) offsets
    exact AList.mem_keys.mpr (hpaths.mem_iff.mp hpath)
  · rw [hnil] at hpaths
    rw [hpaths.eq_nil]
    rfl

end SstableDir.Complete

theorem storedSize_perm {es es' : List MemtableEntry} (h : es.Perm es') :
    storedSize es = storedSize es' := (h.map _).sum_eq

/-- The loop over the streams gives each of them the stored size of its entries. -/
theorem offsetsGet_foldl_streams (es : List MemtableEntry) {streamIds : List UInt64}
    (hnodup : streamIds.Nodup) {offsets : Offsets} (hops : offsets.ops.Exact) (id : UInt64) :
    offsetsGet (streamIds.foldl (fun o streamId =>
        es.foldl (fun o e => offsetsInitEntry streamId o (some e)) o) offsets) id =
      offsetsGet offsets id + if id ∈ streamIds then storedSize (entriesOf id es) else 0 := by
  induction streamIds generalizing offsets with
  | nil => simp
  | cons streamId streamIds ih =>
    obtain ⟨hops', hget⟩ := offsetsGet_foldl_entries streamId es hops
    obtain ⟨hnot, hnodup⟩ := List.nodup_cons.mp hnodup
    rw [List.foldl_cons, ih hnodup hops', hget, add_assoc]
    by_cases hid : id = streamId
    · subst hid
      rw [if_pos rfl, if_neg hnot, if_pos List.mem_cons_self, add_zero]
    · simp only [hid, if_false, List.mem_cons, false_or, zero_add]

/-- **What the start computes**, if the buffer is there whenever a file is read: for each stream
with metadata the stored size of its entries. -/
theorem SstableDir.Complete.offsetsInit_eq {disk : Disk} (h : disk.sstables.Complete P)
    {reused : Bool} (hread : reused = true ∨ disk.sstables.keys = []) :
    ∃ offsets, offsetsInit P reused disk offsetsCreate = some offsets ∧
      ∀ streamId ∈ disk.metadata, offsetsGet offsets streamId =
        storedSize (entriesOf streamId disk.sstables.storedEntries) := by
  have hlist := h.perm_list
  have hstreams := ((perm_getSortedFilelist
    (disk.metadata.keys.map (metadataPath P.dataDir))).map pathToStreamId)
  have hids : pathToStreamId ∘ metadataPath P.dataDir = id :=
    funext (pathToStreamId_metadataPath P.dataDir)
  rw [List.map_map, hids, List.map_id] at hstreams
  have hloop := fun streamId => h.foldlM_offsetsInitFile_eq hlist hread streamId
  refine ⟨_, foldlM_eq_foldl (fun path _ s => hloop (pathToStreamId path) s) offsetsCreate, ?_⟩
  intro streamId hmem
  have hget := @offsetsGet_foldl_streams ((getSortedFilelist (listFilesRecursive disk.sstables
    (P.dataDir ++ "/.racs/seg".toList))).flatMap disk.sstables.entriesAt) _
    (hstreams.nodup_iff.mpr disk.metadata.keys_nodup) offsetsCreate streamIdOps_exact streamId
  rw [List.foldl_map, if_pos (hstreams.mem_iff.mpr (AList.mem_keys.mp hmem))] at hget
  refine hget.trans ?_
  have hperm := hlist.flatMap_right disk.sstables.entriesAt
  rw [flatMap_entriesAt] at hperm
  rw [entriesOf, storedSize_perm (hperm.filter _)]
  exact zero_add _

/-- Where the buffer is not there, the start is undefined as soon as there is a file to read. -/
theorem SstableDir.Complete.offsetsInit_eq_none {disk : Disk} (h : disk.sstables.Complete P)
    (hmd : disk.metadata.keys ≠ []) (hne : disk.sstables.keys ≠ [])
    (offsets : Offsets) : offsetsInit P false disk offsets = none := by
  obtain ⟨path, hpath⟩ := List.exists_mem_of_ne_nil _ hne
  obtain ⟨streamId, hstream⟩ := List.exists_mem_of_ne_nil _ hmd
  refine foldlM_eq_none ((perm_getSortedFilelist _).mem_iff.mpr
    (List.mem_map_of_mem hstream)) (fun s => ?_) offsets
  exact foldlM_eq_none (h.perm_list.mem_iff.mpr hpath)
    (fun s => offsetsInitFile_eq_none disk.sstables _ s path) s

/-! ### Stored and decoded sizes -/

/-- **When the offsets are rebuilt**: where nothing is read; and, with the buffer still there, where
the compressed blocks of each stream are stored in as many bytes as they are decoded to. -/
theorem offsetsRebuilt_iff {disk : Disk} (h : disk.sstables.Complete P) (reused : Bool) :
    OffsetsRebuilt P reused disk ↔
      (disk.metadata.keys = [] ∨ disk.sstables.keys = []) ∨
      reused = true ∧ ∀ streamId ∈ disk.metadata,
        storedSize (compressedEntries (entriesOf streamId disk.sstables.storedEntries)) =
          totalDecodedSize P
            (compressedEntries (entriesOf streamId disk.sstables.storedEntries)) := by
  by_cases hmd : disk.metadata.keys = []
  · refine iff_of_true ⟨offsetsCreate, ?_, fun streamId hmem => ?_⟩ (.inl (.inl hmd))
    · have hnil := (perm_getSortedFilelist
        (disk.metadata.keys.map (metadataPath P.dataDir))).trans (by rw [hmd])
      rw [offsetsInit, hnil.eq_nil]
      rfl
    · rw [AList.mem_keys, hmd] at hmem
      cases hmem
  by_cases hread : reused = true ∨ disk.sstables.keys = []
  · obtain ⟨offsets, hinit, hget⟩ := h.offsetsInit_eq hread
    constructor
    · rintro ⟨offsets', hinit', hsizes⟩
      obtain rfl := Option.some.inj (hinit.symm.trans hinit')
      rcases hread with hreused | hnil
      · refine .inr ⟨hreused, fun streamId hmem => (storedSize_eq_iff _).mp ?_⟩
        rw [← hget streamId hmem, hsizes streamId hmem]
      · exact .inl (.inr hnil)
    · intro hsizes
      refine ⟨offsets, hinit, fun streamId hmem => ?_⟩
      rw [hget streamId hmem]
      rcases hsizes with (hmd' | hnil) | ⟨-, hsizes⟩
      · exact absurd hmd' hmd
      · rw [← SstableDir.Complete.flatMap_entriesAt, hnil]
        rfl
      · exact (storedSize_eq_iff _).mpr (hsizes streamId hmem)
  · rw [not_or, Bool.not_eq_true] at hread
    obtain ⟨rfl, hne⟩ := hread
    refine iff_of_false ?_ ?_
    · rintro ⟨offsets, hinit, -⟩
      rw [h.offsetsInit_eq_none hmd hne] at hinit
      cases hinit
    · rintro ((hmd' | hnil) | ⟨hreused, -⟩)
      · exact hmd hmd'
      · exact hne hnil
      · cases hreused

/-- A data directory with a stream and an SSTable for one entry. -/
def oneEntryDisk (P : Platform) (e : MemtableEntry) : Disk where
  wal := WalDir.empty
  sstables := (∅ : SstableDir).insert (timeToPath P.dataDir e.key.2.toInt64 false)
    (sstableImage [e])
  metadata := (∅ : MetadataDir).insert e.key.1 ⟨2, 16, 44100, 1000, 0, [], List.not_mem_nil⟩

theorem oneEntryDisk_complete {e : MemtableEntry} (h : e.checksum = crc32c 0 e.block) :
    (oneEntryDisk P e).sstables.Complete P := by
  constructor
  · intro path hpath
    rcases (AList.mem_insert _).mp hpath with rfl | hpath
    · rw [timeToPath_eq]
      exact List.prefix_append _ _
    · exact absurd hpath (AList.notMem_empty _)
  · intro path data hdata
    by_cases hpath : path = timeToPath P.dataDir e.key.2.toInt64 false
    · subst hpath
      rw [oneEntryDisk, AList.lookup_insert] at hdata
      refine ⟨[e], by simp, ?_, (Option.some.inj hdata).symm⟩
      intro e' he'
      rwa [List.mem_singleton.mp he']
    · rw [oneEntryDisk, AList.lookup_insert_ne hpath, AList.lookup_empty] at hdata
      cases hdata

theorem storedEntries_oneEntryDisk {e : MemtableEntry} (h : e.checksum = crc32c 0 e.block) :
    (oneEntryDisk P e).sstables.storedEntries = [e] := by
  have hread : sstableEntries (sstableImage [e]) = some [some e] :=
    sstable_decode_encode [e] (by simp) (by simpa using h)
  have hentries : (oneEntryDisk P e).sstables.entries = [⟨_, sstableImage [e]⟩] := rfl
  rw [SstableDir.storedEntries, hentries, List.flatMap_singleton, hread]
  rfl

/-- A block that is not compressed. -/
theorem offsetsRebuilt_raw : OffsetsRebuilt .rational true
    (oneEntryDisk .rational ⟨(7, 1000), 1, crc32c 0 [1, 2], 2, 0, [1, 2], rfl⟩) := by
  refine (offsetsRebuilt_iff (oneEntryDisk_complete rfl) true).mpr (.inr ⟨rfl, fun _ _ => ?_⟩)
  rw [storedEntries_oneEntryDisk rfl, compressedEntries, List.filter_eq_nil_iff.mpr]
  · rfl
  · intro e he
    rw [List.mem_singleton.mp (List.mem_of_mem_filter he)]
    decide

/-- A compressed block of two bytes that is decoded to four. -/
theorem not_offsetsRebuilt_compressed :
    ¬ ∀ (P : Platform) (disk : Disk), disk.sstables.Complete P → OffsetsRebuilt P true disk := by
  intro h
  let P : Platform := { Platform.rational with
    zstdDecompress := fun block => some (block ++ block) }
  let e : MemtableEntry := ⟨(7, 1000), 1, crc32c 0 [1, 2], 2, 1, [1, 2], rfl⟩
  have hcomplete : (oneEntryDisk P e).sstables.Complete P := oneEntryDisk_complete rfl
  obtain ⟨offsets, hinit, hget⟩ := hcomplete.offsetsInit_eq (.inl rfl)
  obtain ⟨offsets', hinit', hsizes⟩ := h P _ hcomplete
  obtain rfl := Option.some.inj (hinit.symm.trans hinit')
  have hmem : (7 : UInt64) ∈ (oneEntryDisk P e).metadata := (AList.mem_insert _).mpr (.inl rfl)
  have hsize := (hget 7 hmem).symm.trans (hsizes 7 hmem)
  rw [storedEntries_oneEntryDisk rfl] at hsize
  exact absurd hsize (by decide)

end Racs
