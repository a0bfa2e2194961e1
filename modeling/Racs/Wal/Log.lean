import Racs.Wal.Entry

/-!
# The write-ahead log

The functions of `wal.c` on the directory `.racs/wal`. The directory holds the segments, in the
order in which `get_sorted_filelist` lists them (their names are their numbers, padded to twenty
digits), and the file `manifest`. The record `Wal` is what the running process keeps.

Segments are numbered without a bound here: this is the log as long as there are fewer than `2 ^ 64`
segments. The functions on the files themselves, whose numbers have 64 bits and wrap around, are
those of `Racs.WalFiles`, and `Racs.WalFiles.Runs` connects the two.

Opening, reading and writing a file succeed; a crash leaves the directory as it is. The `fsync`
calls have no effect on what is read back and are not part of the model.

## Main definitions

* `Racs.WalDir`, `Racs.Wal`.
* `Racs.walSegno`, `Racs.walOpen`, `Racs.walRotate`, `Racs.walAppend`, `Racs.walCreate`.
* `Racs.walSegmentMaxLsn`, `Racs.walCheckpointLsn`, `Racs.walTruncate`.
-/

namespace Racs

open ByteBuffer

/-- `RACS_WAL_SIZE_64MB`. -/
def walSize64MB : ℕ := 1024 * 1024 * 64

/-- The file `<segno>.log`. -/
structure Segment where
  segno : ℕ
  data : List UInt8
  deriving DecidableEq

/-- The directory `.racs/wal`. -/
structure WalDir where
  segments : List Segment
  manifest : Option (List UInt8)
  deriving DecidableEq

/-- `racs_wal`: the number of the segment that `fd` is open on, the next sequence number, and the
bytes written to the segment by this process. -/
structure Wal where
  fd : ℕ
  lsn : UInt64
  size : ℕ
  deriving DecidableEq

/-- The arguments `op_code`, `size` and `op` of `racs_wal_append_`, for an operation whose record
fits in a buffer that `malloc` can return (at most `PTRDIFF_MAX` bytes). -/
structure WalOp where
  opCode : UInt32
  op : List UInt8
  size_lt : 24 + op.length < 2 ^ 63

namespace WalOp

theorem toNat_ofNat_length (o : WalOp) : (UInt64.ofNat o.op.length).toNat = o.op.length := by
  have h := o.size_lt
  rw [UInt64.toNat_ofNat']
  exact Nat.mod_eq_of_lt (by omega)

/-- The record that `racs_wal_append_` writes when the counter stands at `lsn`. -/
def entry (o : WalOp) (lsn : UInt64) : WalEntry where
  opCode := o.opCode
  checksum := crc32c 0 o.op
  size := UInt64.ofNat o.op.length
  op := o.op
  lsn := lsn
  length_op := o.toNat_ofNat_length.symm

@[simp] theorem entry_lsn (o : WalOp) (lsn : UInt64) : (o.entry lsn).lsn = lsn := rfl

@[simp] theorem entry_op (o : WalOp) (lsn : UInt64) : (o.entry lsn).op = o.op := rfl

end WalOp

namespace WalDir

/-- The empty directory. -/
def empty : WalDir := ⟨[], none⟩

/-- `open(path, O_RDWR | O_CREAT | O_APPEND)`: creates the segment when it is not there. -/
def openAppend (d : WalDir) (segno : ℕ) : WalDir :=
  if d.segments.any (·.segno = segno) then d
  else { d with segments := d.segments.takeWhile (·.segno < segno) ++
    ⟨segno, []⟩ :: d.segments.dropWhile (·.segno < segno) }

/-- `write(fd, buf, size)` on a segment opened with `O_APPEND`. -/
def write (d : WalDir) (fd : ℕ) (buf : List UInt8) : WalDir :=
  { d with segments := d.segments.map fun s =>
    if s.segno = fd then { s with data := s.data ++ buf } else s }

/-- The content of a segment. -/
def read (d : WalDir) (segno : ℕ) : List UInt8 :=
  ((d.segments.find? (·.segno = segno)).map Segment.data).getD []

end WalDir

/-- `racs_wal_segno`: the largest number of a segment, zero when there is none. -/
def walSegno (d : WalDir) : ℕ := (d.segments.map Segment.segno).foldr max 0

/-- `racs_wal_segment_max_lsn`: the last eight bytes of a segment, zero for a shorter one. -/
def walSegmentMaxLsn (data : List UInt8) : UInt64 :=
  if data.length < 8 then 0
  else match readUint64 data (data.length - 8) with
    | none => 0
    | some (lsn, _) => lsn

/-- `racs_wal_open`: opens the last segment, or the next one when the last one is full. -/
def walOpen (d : WalDir) : WalDir × ℕ :=
  let segno := walSegno d
  let segno := if walSize64MB ≤ (d.read segno).length then segno + 1 else segno
  (d.openAppend segno, segno)

/-- `racs_wal_rotate`. -/
def walRotate (d : WalDir) (w : Wal) : WalDir × Wal :=
  let segno := walSegno d + 1
  (d.openAppend segno, { w with fd := segno, size := 0 })

/-- `racs_wal_create`, with `racs_wal_init_lsn`. -/
def walCreate (d : WalDir) : WalDir × Wal :=
  let (d, fd) := walOpen d
  (d, { fd := fd, lsn := walSegmentMaxLsn (d.read fd), size := 0 })

/-- `racs_wal_append_`. -/
def walAppend (d : WalDir) (w : Wal) (o : WalOp) : WalDir × Wal :=
  let buf := (o.entry w.lsn).bytes
  let (d, w) := if walSize64MB ≤ w.size + buf.length then walRotate d w else (d, w)
  (d.write w.fd buf, { w with lsn := w.lsn + 1, size := w.size + buf.length })

/-- `racs_wal_checkpoint_lsn`: the eight bytes of the manifest, zero when there are fewer. -/
def walCheckpointLsn (d : WalDir) : UInt64 :=
  match d.manifest with
  | none => 0
  | some bytes => ((readUint64 bytes 0).map Prod.fst).getD 0

/-- `racs_wal_truncate`: removes the segments, other than the last one, whose last sequence number
is below the checkpoint. -/
def walTruncate (d : WalDir) : WalDir :=
  let segno := walSegno d
  let checkpointLsn := walCheckpointLsn d
  { d with segments := d.segments.filter fun s =>
    s.segno = segno ∨ ¬ walSegmentMaxLsn s.data < checkpointLsn }

end Racs
