import Racs.Bytes
import Racs.FileList
import Racs.Hash
import Racs.Platform
import Mathlib.Data.List.AList
import Mathlib.Data.List.TakeWhile

/-!
# Metadata of streams

The format of a stream and the time of its creation are stored in a file of their own, named by
the hash of the stream's name (`metadata.c`). A stream keeps the metadata it was created with:
nothing overwrites the file of a stream that exists.

The files are kept as records; `metadataRead_write` says that the bytes of a file are read back as
the record they were written from.

## Main definitions

* `Racs.Metadata`, `Racs.metadataGet`, `Racs.metadataPut`.
* `Racs.metadataPath`, `Racs.pathToStreamId`, `Racs.metadataStreams`.
* `Racs.metadataTimestamp` — the time at an offset into the audio of a stream.

## Main results

* `Racs.metadataRead_write`, `Racs.metadataGet_put`.
-/

namespace Racs

open ByteBuffer Decimal

/-- `racs_metadata`, without `id_size`: the name is a string without null bytes. -/
structure Metadata where
  channels : UInt16
  bitDepth : UInt16
  sampleRate : UInt32
  ref : Int64
  ttl : Int64
  id : List UInt8
  zero_not_mem_id : 0 ∉ id
  deriving DecidableEq

/-- `metadata->id_size`, the length of the name with its terminator. -/
def Metadata.idSize (md : Metadata) : UInt32 := UInt32.ofNat (md.id.length + 1)

/-- The files of the directory `.racs/md`, by stream id. -/
abbrev MetadataDir := AList fun _ : UInt64 => Metadata

/-- `racs_metadata_write`. -/
def metadataWrite (md : Metadata) : List UInt8 :=
  writeUint16 md.channels ++ writeUint16 md.bitDepth ++ writeUint32 md.sampleRate ++
    writeUint64 md.ref.toUInt64 ++ writeUint64 md.ttl.toUInt64 ++ writeUint32 md.idSize ++
    md.id ++ [0]

/-- `racs_metadata_read`; undefined when the buffer is too short or the name is not terminated. -/
def metadataRead (buf : List UInt8) : Option Metadata :=
  (readUint16 buf 0).bind fun (channels, offset) =>
  (readUint16 buf offset).bind fun (bitDepth, offset) =>
  (readUint32 buf offset).bind fun (sampleRate, offset) =>
  (readUint64 buf offset).bind fun (ref, offset) =>
  (readUint64 buf offset).bind fun (ttl, offset) =>
  (readUint32 buf offset).bind fun (_, offset) =>
  if 0 ∈ buf.drop offset then
    some ⟨channels, bitDepth, sampleRate, ref.toInt64, ttl.toInt64,
      (buf.drop offset).takeWhile (· != 0), fun h => by
        simpa using List.mem_takeWhile_imp h⟩
  else none

/-- What `racs_metadata_write` writes is read back. -/
theorem metadataRead_write (md : Metadata) : metadataRead (metadataWrite md) = some md := by
  have h := holds_zero (metadataWrite md)
  simp only [metadataWrite, List.append_assoc] at h
  obtain ⟨hchannels, h⟩ := readUint16_write h
  obtain ⟨hdepth, h⟩ := readUint16_write h
  obtain ⟨hrate, h⟩ := readUint32_write h
  obtain ⟨href, h⟩ := readUint64_write h
  obtain ⟨httl, h⟩ := readUint64_write h
  obtain ⟨hsize, h⟩ := readUint32_write h
  have hdrop := h.drop_eq
  have hname : (md.id ++ [0]).takeWhile (· != 0) = md.id := by
    rw [List.takeWhile_append_of_pos]
    · simp
    · intro b hb
      have hne : b ≠ 0 := ne_of_mem_of_not_mem hb md.zero_not_mem_id
      simpa using hne
  simp only [metadataWrite, List.append_assoc] at hchannels ⊢
  simp only [metadataRead, hchannels, hdepth, hrate, href, httl, hsize, Option.bind_some, hdrop,
    hname]
  simp

/-- `racs_hash`. -/
def racsHash (streamId : List UInt8) : UInt64 := murmur3X64128 streamId

/-- `racs_metadata_get`. -/
def metadataGet (md : MetadataDir) (streamId : UInt64) : Option Metadata := md.lookup streamId

/-- `racs_metadata_put`: an existing file stays as it is. -/
def metadataPut (md : MetadataDir) (metadata : Metadata) (streamId : UInt64) : MetadataDir :=
  match metadataGet md streamId with
  | some _ => md
  | none => md.insert streamId metadata

/-- The metadata of a stream are never replaced. -/
theorem metadataGet_put {md : MetadataDir} {streamId : UInt64} {m : Metadata}
    (h : metadataGet md streamId = some m) (metadata : Metadata) (streamId' : UInt64) :
    metadataGet (metadataPut md metadata streamId') streamId = some m := by
  unfold metadataPut
  split
  · exact h
  · rename_i hnone
    have hne : streamId ≠ streamId' := by
      rintro rfl
      rw [h] at hnone
      cases hnone
    rw [metadataGet, AList.lookup_insert_ne hne]
    exact h

/-- `racs_metadata_timestamp`; undefined when the time does not fit. The product of the format is
computed in 32 bits. -/
def metadataTimestamp (P : Platform) (md : Metadata) (offset : UInt64) : Option Int64 :=
  let rate := md.channels.toUInt32 * md.sampleRate * (md.bitDepth / 8).toUInt32
  let seconds := P.div (P.ofInt offset.toNat) (P.ofInt rate.toNat)
  (P.toInt64 (P.mul seconds (P.ofInt 1000))).bind fun ms => addInt64 ms md.ref

/-! ### The paths -/

/-- `racs_metadata_path`, for a finished file. -/
def metadataPath (dir : List Char) (streamId : UInt64) : List Char :=
  dir ++ "/.racs/md".toList ++ '/' :: printNat 1 streamId.toNat

/-- `racs_path_to_stream_id`, for a path that does not end in a slash: `strtoull` on its last
component. -/
def pathToStreamId (path : List Char) : UInt64 :=
  match scanInt (basename path).length (basename path) with
  | none => 0
  | some (z, _) => if 2 ^ 64 ≤ z.natAbs then UInt64.ofNat (2 ^ 64 - 1) else UInt64.ofInt z

theorem pathToStreamId_metadataPath (dir : List Char) (streamId : UInt64) :
    pathToStreamId (metadataPath dir streamId) = streamId := by
  have hslash : '/' ∉ printNat 1 streamId.toNat := fun hmem => by
    cases isDigit_of_mem_printNat hmem
  have hlt := streamId.toNat_lt
  rw [pathToStreamId, metadataPath, basename_append _ hslash, scanInt_printNat_one]
  dsimp only
  rw [Int.natAbs_natCast, if_neg (by omega), UInt64.ofInt]
  apply UInt64.toNat_inj.mp
  rw [UInt64.toNat_ofNat']
  omega

/-- `racs_streams_list` on records: the names that match the pattern, in the order of the paths of
the files. `fnmatch` is that of the C library, with `FNM_IGNORECASE`. -/
def metadataStreams (dir : List Char) (fnmatch : List UInt8 → List UInt8 → Bool)
    (md : MetadataDir) (pattern : List UInt8) : List (List UInt8) :=
  let list := getSortedFilelist (md.keys.map (metadataPath dir))
  ((list.filterMap fun path => metadataGet md (pathToStreamId path)).map Metadata.id).filter
    (fnmatch pattern)

end Racs
