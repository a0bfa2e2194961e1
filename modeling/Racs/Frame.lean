import Racs.Bytes
import Racs.Hash

/-!
# Frames

A client sends audio in frames: a header of 34 bytes and a block of `block_size` bytes
(`frame.c`). `racs_frame_parse` fills the frame in every case and returns whether the checksum of
the header is that of the block.

## Main definitions

* `Racs.Frame`, `Racs.frameParse`.

## Main results

* `Racs.take_of_frameParse` — a parsed frame is what a client sent.
-/

namespace Racs

open ByteBuffer

/-- `racs_frame_header`. -/
structure FrameHeader where
  chunkId : List UInt8
  sessionId : List UInt8
  streamId : UInt64
  checksum : UInt32
  blockSize : UInt16
  flags : UInt8
  deriving DecidableEq

/-- `racs_frame`; the block is the `block_size` bytes behind the header. -/
structure Frame where
  header : FrameHeader
  pcmBlock : List UInt8
  length_pcmBlock : pcmBlock.length = header.blockSize.toNat
  deriving DecidableEq

/-- `racs_frame_header_parse`; undefined for less than 34 bytes. -/
def frameHeaderParse (buf : List UInt8) : Option FrameHeader :=
  (slice buf 0 3).bind fun chunkId =>
  (slice buf 3 16).bind fun sessionId =>
  (readUint64 buf 19).bind fun (streamId, _) =>
  (readUint32 buf 27).bind fun (checksum, _) =>
  (readUint16 buf 31).bind fun (blockSize, _) =>
  buf[33]?.map fun flags => ⟨chunkId, sessionId, streamId, checksum, blockSize, flags⟩

/-- `racs_frame_parse`, with the frame that it fills; undefined when the block reaches past the
buffer. -/
def frameParse (buf : List UInt8) : Option (Frame × Bool) :=
  (frameHeaderParse buf).bind fun header =>
  (readBin buf 34 header.blockSize.toNat).map fun (block, _) =>
    (⟨header, block.1, block.2⟩, crc32c 0 block.1 = header.checksum)

/-- The bytes of a frame, as a client sends them. -/
def Frame.bytes (frame : Frame) : List UInt8 :=
  frame.header.chunkId ++ frame.header.sessionId ++ writeUint64 frame.header.streamId ++
    writeUint32 frame.header.checksum ++ writeUint16 frame.header.blockSize ++
    [frame.header.flags] ++ frame.pcmBlock

/-- A frame of a stream with a new session, whose block holds `size` times the byte `b`. -/
def Frame.constant (streamId : UInt64) (b : UInt8) (size : UInt16) : Frame where
  header := ⟨[0x72, 0x73, 0x70], List.replicate 16 1, streamId,
    crc32c 0 (List.replicate size.toNat b), size, 0⟩
  pcmBlock := List.replicate size.toNat b
  length_pcmBlock := List.length_replicate

/-- A frame that is accepted carries the checksum of its block. -/
theorem checksum_of_frameParse {buf : List UInt8} {frame : Frame}
    (h : frameParse buf = some (frame, true)) :
    crc32c 0 frame.pcmBlock = frame.header.checksum := by
  simp only [frameParse, Option.bind_eq_some_iff, Option.map_eq_some_iff, Prod.mk.injEq] at h
  obtain ⟨header, -, block, -, rfl, hchecksum⟩ := h
  exact of_decide_eq_true hchecksum

/-- A parsed frame and its block lie inside the buffer. -/
theorem length_of_frameParse {buf : List UInt8} {r : Frame × Bool}
    (h : frameParse buf = some r) : 34 + r.1.header.blockSize.toNat ≤ buf.length := by
  simp only [frameParse, Option.bind_eq_some_iff, Option.map_eq_some_iff] at h
  obtain ⟨header, -, block, hblock, rfl⟩ := h
  unfold readBin at hblock
  split_ifs at hblock with hle
  exact hle

/-- The header of a frame, as a client sends it. -/
theorem exists_of_frameHeaderParse {buf : List UInt8} {header : FrameHeader}
    (h : frameHeaderParse buf = some header) :
    ∃ rest, Holds buf 34 rest ∧ buf = header.chunkId ++ header.sessionId ++
      writeUint64 header.streamId ++ writeUint32 header.checksum ++ writeUint16 header.blockSize ++
      [header.flags] ++ rest := by
  simp only [frameHeaderParse, Option.bind_eq_some_iff, Option.map_eq_some_iff, Prod.exists] at h
  obtain ⟨chunkId, hchunkId, sessionId, hsessionId, streamId, _, hstreamId, checksum, _, hchecksum,
    blockSize, _, hblockSize, flags, hflags, rfl⟩ := h
  have h₀ : Holds buf 0 buf := holds_zero buf
  obtain ⟨hlen₁, c₁, hc₁⟩ := h₀.of_slice hchunkId
  have h₁ : Holds buf 3 c₁ := by simpa only [hlen₁] using (holds_of_eq hc₁).skip
  obtain ⟨hlen₂, c₂, rfl⟩ := h₁.of_slice hsessionId
  have h₂ : Holds buf 19 c₂ := by simpa only [hlen₂] using h₁.skip
  obtain ⟨c₃, rfl⟩ := of_readUint64 h₂ hstreamId
  have h₃ : Holds buf 27 c₃ := by simpa only [length_writeUint64] using h₂.skip
  obtain ⟨c₄, rfl⟩ := of_readUint32 h₃ hchecksum
  have h₄ : Holds buf 31 c₄ := by simpa only [length_writeUint32] using h₃.skip
  obtain ⟨c₅, rfl⟩ := of_readUint16 h₄ hblockSize
  have h₅ : Holds buf 33 c₅ := by simpa only [length_writeUint16] using h₄.skip
  have hhead : c₅[0]? = some flags := by
    rw [← h₅.drop_eq, List.getElem?_drop]
    exact hflags
  cases c₅ with
  | nil => cases hhead
  | cons flags' c₆ =>
    obtain rfl : flags' = flags := Option.some.inj hhead
    refine ⟨c₆, @Holds.skip _ [_] _ _ h₅, ?_⟩
    simp only [hc₁, List.append_assoc, List.singleton_append]

/-- A parsed frame is what a client sent: its bytes stand at the beginning of the buffer. -/
theorem take_of_frameParse {buf : List UInt8} {r : Frame × Bool} (h : frameParse buf = some r) :
    buf.take (34 + r.1.header.blockSize.toNat) = r.1.bytes := by
  obtain ⟨header, hheader, h⟩ := Option.bind_eq_some_iff.mp h
  obtain ⟨⟨block, next⟩, hblock, rfl⟩ := Option.map_eq_some_iff.mp h
  obtain ⟨rest, hholds, hbuf⟩ := exists_of_frameHeaderParse hheader
  obtain ⟨rest', hrest⟩ := of_readBin hholds hblock
  have hlen := hholds.length_eq
  have hbuf' : buf = Frame.bytes ⟨header, block.1, block.2⟩ ++ rest' := by
    rw [hbuf, hrest, ← List.append_assoc]
    rfl
  rw [hbuf']
  refine List.take_left' ?_
  have hblocklen := block.2
  have hbuflen := congrArg List.length hbuf'
  have hrestlen := congrArg List.length hrest
  rw [List.length_append] at hbuflen hrestlen
  change (Frame.bytes ⟨header, block.1, block.2⟩).length = 34 + header.blockSize.toNat
  omega

/-- The header is in the first 34 bytes. -/
theorem frameHeaderParse_append {a : List UInt8} (b : List UInt8) (hlen : 34 ≤ a.length) :
    frameHeaderParse (a ++ b) = frameHeaderParse a := by
  unfold frameHeaderParse readUint64 readUint32 readUint16
  rw [slice_append_of_le a b (by omega), slice_append_of_le a b (by omega),
    slice_append_of_le a b (by omega), slice_append_of_le a b (by omega),
    slice_append_of_le a b (by omega), List.getElem?_append_left (by omega)]

/-- Parsing a frame does not see what follows its block. -/
theorem frameParse_append_eq {a b : List UInt8} {header : FrameHeader}
    (hheader : frameHeaderParse a = some header)
    (hlen : 34 + header.blockSize.toNat ≤ a.length) : frameParse (a ++ b) = frameParse a := by
  rw [frameParse, frameParse, frameHeaderParse_append b (by omega), hheader, Option.bind_some,
    Option.bind_some, readBin_append b hlen]

/-- A frame that is parsed is parsed in front of other bytes too. -/
theorem frameParse_append_of_some {a : List UInt8} {r : Frame × Bool} (b : List UInt8)
    (h : frameParse a = some r) : frameParse (a ++ b) = some r := by
  have hlen := length_of_frameParse h
  obtain ⟨header, hheader, hblock⟩ := Option.bind_eq_some_iff.mp h
  obtain ⟨block, -, rfl⟩ := Option.map_eq_some_iff.mp hblock
  rw [frameParse_append_eq hheader hlen, h]

theorem frameParse_of_append {a b : List UInt8} {r : Frame × Bool}
    (h : frameParse (a ++ b) = some r) (hlen : 34 + r.1.header.blockSize.toNat ≤ a.length) :
    frameParse a = some r := by
  obtain ⟨header, hheader, hblock⟩ := Option.bind_eq_some_iff.mp h
  obtain ⟨block, -, rfl⟩ := Option.map_eq_some_iff.mp hblock
  rw [frameHeaderParse_append b (by omega)] at hheader
  rw [← h, frameParse_append_eq hheader hlen]

end Racs
