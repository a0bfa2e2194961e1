import Racs.Metadata
import Racs.Path
import Racs.Sstable
import Racs.Wal.Layout

/-!
# Flushing a memtable

`racs_memtable_flush` (`memtable.c`) writes the manifest, then the SSTable under a temporary name,
renames it and truncates the log. Its system calls are the steps of `DiskStep`; which of them are
made depends on which calls fail, which `FlushOutcome` records. No call reports a failure to the
caller, and the checks of the results of `write` are missing in the code.

A flush that is not interrupted and in which nothing fails is `memtableFlush`.

## Main definitions

* `Racs.Disk`, `Racs.DiskStep`, `Racs.FlushOutcome`.
* `Racs.memtableFlushSteps` — the steps of one flush, in order.
* `Racs.memtableFlush` — a complete flush.

## Main results

* `Racs.memtableFlush_eq` — what a complete flush leaves on the disk.
-/

namespace Racs

/-- The files below `.racs/seg`, by path. -/
abbrev SstableDir := AList fun _ : List Char => List UInt8

/-- The data directory. -/
structure Disk where
  wal : WalDir
  sstables : SstableDir
  metadata : MetadataDir

/-! ### Steps -/

/-- A system call of a flush that changes the data directory. -/
inductive DiskStep
  /-- `open` of the manifest with `O_CREAT | O_TRUNC`. -/
  | openManifest
  /-- `write` of these bytes to the manifest. -/
  | writeManifest (buf : List UInt8)
  /-- `open` of a file with `O_CREAT | O_TRUNC`. -/
  | openFile (path : List Char)
  /-- `write` of these bytes to the file. -/
  | writeFile (path : List Char) (buf : List UInt8)
  | rename (src dst : List Char)
  /-- `racs_wal_truncate`. -/
  | truncateWal

/-- The disk after a step. -/
def DiskStep.apply (d : Disk) : DiskStep → Disk
  | .openManifest => { d with wal := { d.wal with manifest := some [] } }
  | .writeManifest buf =>
    { d with wal := { d.wal with manifest := some (d.wal.manifest.getD [] ++ buf) } }
  | .openFile path => { d with sstables := d.sstables.insert path [] }
  | .writeFile path buf =>
    { d with sstables := d.sstables.insert path ((d.sstables.lookup path).getD [] ++ buf) }
  | .rename src dst =>
    match d.sstables.lookup src with
    | none => d
    | some data => { d with sstables := (d.sstables.erase src).insert dst data }
  | .truncateWal => { d with wal := walTruncate d.wal }

/-- No step touches the metadata of the streams. -/
theorem DiskStep.apply_metadata (d : Disk) (st : DiskStep) :
    (st.apply d).metadata = d.metadata := by
  cases st with
  | rename src dst =>
    rw [apply]
    split <;> rfl
  | _ => rfl

/-- Which calls of a flush succeed, and how much of a `write` reaches the file if not all of it
does. -/
structure FlushOutcome where
  openManifest : Bool
  writeManifest : Option ℕ
  createSstable : Bool
  allocateBuffer : Bool
  openFile : Bool
  flock : Bool
  writeFile : Option ℕ
  rename : Bool

/-- Every call succeeds. -/
def FlushOutcome.ok : FlushOutcome := ⟨true, none, true, true, true, true, none, true⟩

/-- The part of a buffer that a `write` puts into the file. -/
def written (short : Option ℕ) (buf : List UInt8) : List UInt8 :=
  match short with
  | none => buf
  | some n => buf.take n

/-- `racs_memtable_write_lsn`. -/
def memtableWriteLsn (o : FlushOutcome) (lsn : UInt64) : List DiskStep :=
  if o.openManifest then [.openManifest, .writeManifest (written o.writeManifest (writeUint64 lsn))]
  else []

/-- The size of the buffer for `n` entries, undefined when the product leaves the range of
`int`. -/
def sstableBufferSize (n : ℕ) : Option ℕ :=
  let size := headerSize + n * (maxBlockSize + memtableEntryMetadataSize + indexEntrySize) +
    trailerSize
  if size < 2 ^ 31 then some size else none

/-- The timestamp that names the SSTable of a memtable. -/
def Memtable.timestamp (mt : Memtable) : Int64 :=
  match mt.entries with
  | [] => 0
  | e :: _ => e.key.2.toInt64

/-- The path of the SSTable of a memtable while it is written, and when it is finished. -/
def Memtable.path (P : Platform) (mt : Memtable) (tmp : Bool) : List Char :=
  timeToPath P.dataDir mt.timestamp tmp

/-- `racs_memtable_write`. -/
def memtableWrite (P : Platform) (o : FlushOutcome) (mt : Memtable) : Option (List DiskStep) :=
  if o.createSstable = false then some []
  else (sstableBufferSize mt.entries.length).map fun _ =>
    if o.allocateBuffer = false then []
    else if o.openFile = false then []
    else if o.flock = false then [.openFile (mt.path P true)]
    else [.openFile (mt.path P true),
        .writeFile (mt.path P true) (written o.writeFile (sstableImage mt.entries))] ++
      if o.rename then [.rename (mt.path P true) (mt.path P false)] else []

/-- The number that a flush writes to the manifest. -/
def Memtable.maxLsn (mt : Memtable) : UInt64 := (mt.entries.getLast?.map MemtableEntry.lsn).getD 0

/-- The steps of `racs_memtable_flush`, up to the point where the behaviour is undefined. -/
def memtableFlushSteps (P : Platform) (o : FlushOutcome) (mt : Memtable) : List DiskStep :=
  if mt.entries = [] then []
  else memtableWriteLsn o mt.maxLsn ++
    match memtableWrite P o mt with
    | none => []
    | some steps => steps ++ [.truncateWal]

/-! ### Complete flushes -/

/-- The SSTable of the memtable can be written without an overflow. -/
def Memtable.Fits (mt : Memtable) : Prop := (sstableBufferSize mt.entries.length).isSome

instance (mt : Memtable) : Decidable mt.Fits := inferInstanceAs (Decidable (_ = true))

/-- `racs_memtable_flush` when every call succeeds. -/
def memtableFlush (P : Platform) (d : Disk) (mt : Memtable) : Option Disk :=
  if mt.entries = [] ∨ mt.Fits then
    some ((memtableFlushSteps P .ok mt).foldl DiskStep.apply d)
  else none

theorem SstableDir.erase_insert (s : SstableDir) (path : List Char) (data : List UInt8) :
    (s.insert path data).erase path = s.erase path :=
  AList.ext (List.kerase_cons_eq rfl)

/-- When every call succeeds, the image is written and renamed. -/
theorem memtableWrite_ok {P : Platform} {mt : Memtable} (hfits : mt.Fits) :
    memtableWrite P .ok mt = some
      [.openFile (mt.path P true), .writeFile (mt.path P true) (sstableImage mt.entries),
        .rename (mt.path P true) (mt.path P false)] := by
  obtain ⟨size, hsize⟩ := Option.isSome_iff_exists.mp hfits
  rw [memtableWrite, if_neg (by decide), hsize]
  rfl

/-- **What a complete flush leaves on the disk.** -/
theorem memtableFlush_eq {P : Platform} {d : Disk} {mt : Memtable} (hne : mt.entries ≠ [])
    (hfits : mt.Fits) :
    memtableFlush P d mt = some
      { d with
        wal := walTruncate { d.wal with manifest := some (writeUint64 mt.maxLsn) }
        sstables := (d.sstables.erase (mt.path P true)).insert (mt.path P false)
          (sstableImage mt.entries) } := by
  have hsteps : memtableFlushSteps P .ok mt =
      [.openManifest, .writeManifest (writeUint64 mt.maxLsn), .openFile (mt.path P true),
        .writeFile (mt.path P true) (sstableImage mt.entries),
        .rename (mt.path P true) (mt.path P false), .truncateWal] := by
    rw [memtableFlushSteps, if_neg hne, memtableWrite_ok hfits]
    rfl
  rw [memtableFlush, if_pos (.inr hfits), hsteps]
  simp only [List.foldl_cons, List.foldl_nil, DiskStep.apply, AList.lookup_insert, Option.getD_some,
    List.nil_append, AList.insert_insert, SstableDir.erase_insert]

/-- What a complete flush that is defined leaves on the disk. -/
theorem eq_of_memtableFlush {P : Platform} {d d' : Disk} {mt : Memtable} (hne : mt.entries ≠ [])
    (h : memtableFlush P d mt = some d') :
    { d with
      wal := walTruncate { d.wal with manifest := some (writeUint64 mt.maxLsn) }
      sstables := (d.sstables.erase (mt.path P true)).insert (mt.path P false)
        (sstableImage mt.entries) } = d' := by
  have hfits : mt.Fits := by
    by_contra hnot
    rw [memtableFlush, if_neg (not_or.mpr ⟨hne, hnot⟩)] at h
    cases h
  rw [memtableFlush_eq hne hfits] at h
  exact Option.some.inj h

/-- A file after a flush is the new one, or was there before. -/
theorem lookup_of_memtableFlush {P : Platform} {d d' : Disk} {mt : Memtable}
    (hne : mt.entries ≠ []) (h : memtableFlush P d mt = some d') {path : List Char}
    {data : List UInt8} (hdata : d'.sstables.lookup path = some data) :
    path = mt.path P false ∧ data = sstableImage mt.entries ∨
      path ≠ mt.path P false ∧ d.sstables.lookup path = some data := by
  obtain rfl := eq_of_memtableFlush hne h
  dsimp only at hdata
  by_cases hpath : path = mt.path P false
  · subst hpath
    rw [AList.lookup_insert] at hdata
    exact .inl ⟨rfl, (Option.some.inj hdata).symm⟩
  · rw [AList.lookup_insert_ne hpath] at hdata
    have htmp : path ≠ mt.path P true := by
      rintro rfl
      rw [AList.lookup_erase] at hdata
      cases hdata
    rw [AList.lookup_erase_ne htmp] at hdata
    exact .inr ⟨hpath, hdata⟩

/-- A flush leaves the metadata of the streams as they are. -/
theorem memtableFlush_metadata {P : Platform} {d d' : Disk} {mt : Memtable}
    (h : memtableFlush P d mt = some d') : d'.metadata = d.metadata := by
  have hfold : ∀ (steps : List DiskStep) (d : Disk),
      (steps.foldl DiskStep.apply d).metadata = d.metadata := by
    intro steps
    induction steps with
    | nil => exact fun _ => rfl
    | cons st steps ih => exact fun d => (ih _).trans (DiskStep.apply_metadata d st)
  unfold memtableFlush at h
  split_ifs at h
  obtain rfl := Option.some.inj h
  exact hfold _ d

end Racs
