import Racs.Foundation.Growable
import Racs.Pcm

/-!
# The memory of a vector that is collected

`racs_pcm_write` (`pcm.c`) appends a block to a memory stream (`memory.c`), which doubles its buffer
when the block does not fit, and counts the samples of the block. It does not look at what
`racs_memstream_write` returns: when the buffer cannot be reallocated, the samples are counted
although they were not written. Sizes are 64-bit numbers that wrap around.

The stream in `Racs.Pcm` is the list of the bytes written to this memory.

## Main definitions

* `Racs.MemStream`, `Racs.memstreamWrite` — a memory stream.
* `Racs.PcmBuffer`, `Racs.pcmBufferInit`, `Racs.pcmBufferWrite` — a vector with its memory.
* `Racs.PcmAgrees` — the position, the number of samples and the bytes belong together.

## Main results

* `Racs.pcmAgreesThroughout_iff` — the sequences of writes in which they do throughout.
* `Racs.PcmAgrees.pcmWrite` — a write with room is `Racs.pcmWrite`.
-/

namespace Racs

open ByteBuffer Growable PartialRun

/-! ### Memory streams -/

/-- `racs_memstream`; `data` is the memory of the buffer. -/
structure MemStream where
  size : UInt64
  currentPos : UInt64
  data : List UInt8

/-- `racs_memstream_status`. -/
inductive MemStreamStatus
  | continue
  | abort
  deriving DecidableEq

/-- `racs_memstream_init`. -/
def memstreamInit : MemStream := ⟨0, 0, []⟩

/-- The bytes copied into a buffer at a position. -/
def overwrite (data : List UInt8) (pos : ℕ) (bytes : List UInt8) : List UInt8 :=
  data.take pos ++ bytes ++ data.drop (pos + bytes.length)

/-- The size of a buffer that has to hold `pos` bytes: `racs_max(pos, stream->size * 2)`. -/
def memstreamGrow (size pos : UInt64) : UInt64 := if size * 2 < pos then pos else size * 2

/-- The buffer of `racs_memstream_write` with room up to the position `pos`, if there is memory. -/
def memstreamReserve (stream : MemStream) (realloc : Realloc UInt8) (pos : UInt64) :
    Option MemStream :=
  if stream.size < pos then
    realloc.map fun fresh => { stream with
      size := memstreamGrow stream.size pos
      data := reallocated stream.data fresh (memstreamGrow stream.size pos).toNat }
  else some stream

/-- `racs_memstream_write`; undefined when it reads behind the data or writes behind the buffer. -/
def memstreamWrite (stream : MemStream) (realloc : Realloc UInt8) (data : List UInt8)
    (size : UInt64) : Option (MemStream × MemStreamStatus) :=
  match memstreamReserve stream realloc (stream.currentPos + size) with
  | none => some (stream, .abort)
  | some stream => (slice data 0 size.toNat).bind fun bytes =>
    if stream.currentPos.toNat + size.toNat ≤ stream.data.length then
      some ({ stream with
        currentPos := stream.currentPos + size
        data := overwrite stream.data stream.currentPos.toNat bytes }, .continue)
    else none

/-! ### Vectors with their memory -/

/-- `racs_pcm`. -/
structure PcmBuffer where
  channels : UInt8
  bitDepth : UInt8
  sampleRate : UInt32
  samples : UInt64
  outStream : MemStream

/-- The setters and `racs_pcm_init`, which writes the room for the header in two parts. -/
def pcmBufferInit (format : StreamFormat) (realloc₁ realloc₂ : Realloc UInt8) : Option PcmBuffer :=
  (memstreamWrite memstreamInit realloc₁ (List.replicate 4 0) 4).bind fun (stream, _) =>
  (memstreamWrite stream realloc₂ (List.replicate 4 0) 4).map fun (stream, _) =>
    ⟨format.channels, format.bitDepth, format.sampleRate, 0, stream⟩

/-- `racs_pcm_write`, with what `racs_memstream_write` returned. -/
def pcmBufferWrite (pcm : PcmBuffer) (realloc : Realloc UInt8) (block : List UInt8)
    (samples : UInt64) : Option (PcmBuffer × MemStreamStatus) :=
  let size := pcm.channels.toUInt64 * samples * pcm.bitDepth.toUInt64 / 8
  (memstreamWrite pcm.outStream realloc block size).map fun (stream, status) =>
    ({ pcm with outStream := stream, samples := pcm.samples + samples }, status)

/-- A call of `racs_pcm_write` for a block of whole frames, with what comes of its `realloc`. -/
structure PcmWrite (format : StreamFormat) where
  samples : UInt64
  block : List UInt8
  realloc : Realloc UInt8
  length_block : block.length = samples.toNat * format.frameSize

/-- One call. -/
def PcmWrite.call {format : StreamFormat} (pcm : PcmBuffer) (w : PcmWrite format) :
    Option (PcmBuffer × MemStreamStatus) := pcmBufferWrite pcm w.realloc w.block w.samples

/-- The data of the calls that were successful. -/
def writtenBlocks {format : StreamFormat} (writes : List (PcmWrite format))
    (statuses : List MemStreamStatus) : List UInt8 :=
  collect (fun w status => if status = .continue then w.block else []) writes statuses

/-- The position is that behind the samples and inside of the buffer, and between the room for the
header and the position are these bytes. -/
structure PcmAgrees (format : StreamFormat) (bytes : List UInt8) (pcm : PcmBuffer) : Prop where
  channels : pcm.channels = format.channels
  bitDepth : pcm.bitDepth = format.bitDepth
  currentPos : pcm.outStream.currentPos.toNat =
    8 + pcm.samples.toNat * format.channels.toNat * format.bitDepth.toNat / 8
  currentPos_le : pcm.outStream.currentPos.toNat ≤ pcm.outStream.size.toNat
  allocated : pcm.outStream.data.length = pcm.outStream.size.toNat
  bytes : (pcm.outStream.data.take pcm.outStream.currentPos.toNat).drop 8 = bytes

/-- After `racs_pcm_init` and each of the calls, the vector agrees with what was written. -/
def PcmAgreesThroughout (format : StreamFormat) (realloc₁ realloc₂ : Realloc UInt8)
    (writes : List (PcmWrite format)) : Prop :=
  ∃ pcm, pcmBufferInit format realloc₁ realloc₂ = some pcm ∧
    Throughout PcmWrite.call (fun past statuses => PcmAgrees format (writtenBlocks past statuses))
      pcm writes

/-- The size of the block does not wrap around, and where the buffer has no room for the block, it
can be reallocated. -/
structure PcmWrite.HasRoom {format : StreamFormat} (pcm : PcmBuffer) (w : PcmWrite format) :
    Prop where
  size : w.block.length < 2 ^ 61
  pos : pcm.outStream.currentPos.toNat + w.block.length < 2 ^ 64
  realloc : pcm.outStream.size.toNat < pcm.outStream.currentPos.toNat + w.block.length →
    w.realloc.isSome

/-- The vector without the memory behind the position. -/
def PcmBuffer.written (pcm : PcmBuffer) : Pcm where
  channels := pcm.channels
  bitDepth := pcm.bitDepth
  sampleRate := pcm.sampleRate
  samples := pcm.samples.toNat
  outStream := pcm.outStream.data.take pcm.outStream.currentPos.toNat

/-! ### One write to a stream -/

@[simp] theorem length_overwrite {data bytes : List UInt8} {pos : ℕ}
    (h : pos + bytes.length ≤ data.length) : (overwrite data pos bytes).length = data.length := by
  simp only [overwrite, List.length_append, List.length_take, List.length_drop]
  omega

/-- Up to the end of the bytes that were copied. -/
theorem take_overwrite {data bytes : List UInt8} {pos : ℕ} (h : pos ≤ data.length) :
    (overwrite data pos bytes).take (pos + bytes.length) = data.take pos ++ bytes := by
  rw [overwrite, List.take_left']
  rw [List.length_append, List.length_take, min_eq_left h]

variable {stream stream' : MemStream} {realloc : Realloc UInt8} {pos : UInt64}

theorem le_memstreamGrow (size pos : UInt64) : pos ≤ memstreamGrow size pos := by
  rw [memstreamGrow]
  split_ifs with h
  · exact UInt64.le_refl pos
  · exact UInt64.not_lt.mp h

theorem memstreamReserve_eq_none_iff :
    memstreamReserve stream realloc pos = none ↔ stream.size < pos ∧ realloc = none := by
  rw [memstreamReserve]
  split_ifs with h
  · rw [Option.map_eq_none_iff, and_iff_right h]
  · exact iff_of_false id fun hfull => h hfull.1

/-- A buffer with room holds what it held before. -/
theorem of_memstreamReserve (hdata : stream.data.length = stream.size.toNat)
    (h : memstreamReserve stream realloc pos = some stream') :
    stream'.currentPos = stream.currentPos ∧ pos ≤ stream'.size ∧
      stream'.data.length = stream'.size.toNat ∧ stream.data <+: stream'.data := by
  rw [memstreamReserve] at h
  split_ifs at h with hfull
  · obtain ⟨fresh, -, rfl⟩ := Option.map_eq_some_iff.mp h
    have hpos := le_memstreamGrow stream.size pos
    have hle : stream.data.length ≤ (memstreamGrow stream.size pos).toNat := by
      rw [hdata]
      exact (UInt64.lt_iff_toNat_lt.mp hfull).le.trans (UInt64.le_iff_toNat_le.mp hpos)
    exact ⟨rfl, hpos, length_reallocated .., prefix_reallocated hle⟩
  · obtain rfl := Option.some.inj h
    exact ⟨rfl, UInt64.not_lt.mp hfull, hdata, List.prefix_refl _⟩

/-- **A write that there is room for.** -/
theorem memstreamWrite_continue {data : List UInt8} {size : UInt64}
    (hdata : stream.data.length = stream.size.toNat) (hread : size.toNat ≤ data.length)
    (hpos : stream.currentPos.toNat ≤ stream.size.toNat)
    (hwrap : stream.currentPos.toNat + size.toNat < 2 ^ 64)
    (hroom : stream.size.toNat < stream.currentPos.toNat + size.toNat → realloc.isSome) :
    ∃ stream', memstreamWrite stream realloc data size = some (stream', .continue) ∧
      stream'.currentPos.toNat = stream.currentPos.toNat + size.toNat ∧
      stream'.currentPos.toNat ≤ stream'.size.toNat ∧
      stream'.data.length = stream'.size.toNat ∧
      stream'.data.take stream'.currentPos.toNat =
        stream.data.take stream.currentPos.toNat ++ data.take size.toNat := by
  have hsum : (stream.currentPos + size).toNat = stream.currentPos.toNat + size.toNat := by
    rw [UInt64.toNat_add, Nat.mod_eq_of_lt hwrap]
  rcases hreserve : memstreamReserve stream realloc (stream.currentPos + size) with - | reserved
  · obtain ⟨hfull, hnone⟩ := memstreamReserve_eq_none_iff.mp hreserve
    rw [UInt64.lt_iff_toNat_lt, hsum] at hfull
    rw [hnone] at hroom
    cases hroom hfull
  · obtain ⟨hcur, hle, hlength, hprefix⟩ := of_memstreamReserve hdata hreserve
    rw [UInt64.le_iff_toNat_le, hsum] at hle
    have hslice : slice data 0 size.toNat = some (data.take size.toNat) := by
      rw [slice_eq_some, Nat.zero_add, List.drop_zero]
      exact ⟨hread, rfl⟩
    have hbytes : (data.take size.toNat).length = size.toNat := by
      rw [List.length_take, min_eq_left hread]
    have hkept : reserved.data.take stream.currentPos.toNat =
        stream.data.take stream.currentPos.toNat := by
      obtain ⟨rest, hrest⟩ := hprefix
      rw [← hrest, List.take_append_of_le_length (by omega)]
    rw [memstreamWrite, hreserve]
    dsimp only
    rw [hslice, Option.bind_some, hcur, if_pos (by omega)]
    refine ⟨_, rfl, hsum, hsum ▸ hle, ?_, ?_⟩
    · rw [length_overwrite (by rw [hbytes]; omega), hlength]
    · have htake := @take_overwrite reserved.data (data.take size.toNat)
        stream.currentPos.toNat (by omega)
      rw [hbytes, hkept] at htake
      rw [hsum]
      exact htake

/-- A write that is defined leaves the position where it is, or moves it over its data. -/
theorem memstreamWrite_cases {data : List UInt8} {size : UInt64} {status : MemStreamStatus}
    (hdata : stream.data.length = stream.size.toNat)
    (h : memstreamWrite stream realloc data size = some (stream', status)) :
    stream' = stream ∧ status = .abort ∧ stream.size < stream.currentPos + size ∧ realloc = none ∨
      stream'.currentPos.toNat = stream.currentPos.toNat + size.toNat ∧
      (stream.size < stream.currentPos + size → realloc.isSome) ∧
      stream.currentPos.toNat + size.toNat < 2 ^ 64 := by
  rw [memstreamWrite] at h
  rcases hreserve : memstreamReserve stream realloc (stream.currentPos + size) with - | reserved
  · rw [hreserve] at h
    obtain ⟨rfl, rfl⟩ := Prod.mk.inj (Option.some.inj h)
    exact .inl ⟨rfl, rfl, memstreamReserve_eq_none_iff.mp hreserve⟩
  · obtain ⟨hcur, -, hlength, -⟩ := of_memstreamReserve hdata hreserve
    rw [hreserve] at h
    obtain ⟨bytes, -, h⟩ := Option.bind_eq_some_iff.mp h
    split_ifs at h with hinside
    obtain ⟨rfl, rfl⟩ := Prod.mk.inj (Option.some.inj h)
    rw [hcur, hlength] at hinside
    have hlt := hinside.trans_lt reserved.size.toNat_lt
    refine .inr ⟨?_, fun hfull => ?_, hlt⟩
    · dsimp only
      rw [hcur, UInt64.toNat_add, Nat.mod_eq_of_lt hlt]
    · by_contra hnone
      have := memstreamReserve_eq_none_iff.mpr ⟨hfull, Option.not_isSome_iff_eq_none.mp hnone⟩
      rw [hreserve] at this
      cases this

/-! ### One write to a vector -/

variable {format : StreamFormat} {pcm pcm' : PcmBuffer} {bytes : List UInt8}

/-- The position behind a number of samples. -/
theorem StreamFormat.position_eq (format : StreamFormat) (samples : ℕ) :
    8 + samples * format.channels.toNat * format.bitDepth.toNat / 8 =
      8 + samples * format.frameSize := by
  rw [Nat.mul_comm samples, format.frames_size]

/-- The size that is computed for a block. -/
theorem PcmWrite.toNat_size (w : PcmWrite format) :
    (format.channels.toUInt64 * w.samples * format.bitDepth.toUInt64 / 8).toNat =
      w.block.length % 2 ^ 61 := by
  have height : (8 : UInt64).toNat = 8 := rfl
  have hproduct : format.channels.toNat * w.samples.toNat * format.bitDepth.toNat =
      8 * w.block.length := by
    rw [Nat.mul_right_comm, format.channels_mul_bitDepth, w.length_block, Nat.mul_assoc,
      Nat.mul_comm format.frameSize]
  rw [UInt64.toNat_div, UInt64.toNat_mul, UInt64.toNat_mul, UInt8.toNat_toUInt64,
    UInt8.toNat_toUInt64, Nat.mod_mul_mod, hproduct, height]
  omega

/-- **A write that there is room for** appends its block, and the vector agrees with it. -/
theorem PcmAgrees.write (h : PcmAgrees format bytes pcm) {w : PcmWrite format}
    (hroom : w.HasRoom pcm) :
    ∃ pcm', w.call pcm = some (pcm', .continue) ∧ PcmAgrees format (bytes ++ w.block) pcm' ∧
      pcm'.written = { pcm.written with
        outStream := pcm.written.outStream ++ w.block
        samples := pcm.written.samples + w.samples.toNat } := by
  have hsize := w.toNat_size
  rw [Nat.mod_eq_of_lt hroom.size, ← h.channels, ← h.bitDepth] at hsize
  set size := pcm.channels.toUInt64 * w.samples * pcm.bitDepth.toUInt64 / 8 with hdef
  obtain ⟨stream', hwrite, hcur, hle, hlength, htake⟩ :=
    @memstreamWrite_continue pcm.outStream w.realloc w.block size h.allocated hsize.le
      h.currentPos_le (by rw [hsize]; exact hroom.pos) (by rw [hsize]; exact hroom.realloc)
  rw [hsize, List.take_length] at htake
  have hpos := h.currentPos
  rw [format.position_eq] at hpos
  have hfew := hroom.pos
  have hframe := format.frameSize_pos
  -- the samples before and those of the block are less than 2^64
  have hsamples : (pcm.samples + w.samples).toNat = pcm.samples.toNat + w.samples.toNat := by
    rw [UInt64.toNat_add]
    refine Nat.mod_eq_of_lt (lt_of_le_of_lt ?_ hfew)
    rw [hpos, w.length_block]
    have hbefore := Nat.le_mul_of_pos_right pcm.samples.toNat hframe
    have hblock := Nat.le_mul_of_pos_right w.samples.toNat hframe
    omega
  refine ⟨{ pcm with outStream := stream', samples := pcm.samples + w.samples },
    by rw [PcmWrite.call, pcmBufferWrite, ← hdef, hwrite]; rfl,
    ⟨h.channels, h.bitDepth, ?_, hle, hlength, ?_⟩, ?_⟩
  · rw [hcur, hpos, hsize, format.position_eq, hsamples, w.length_block, Nat.add_mul, Nat.add_assoc]
  · dsimp only
    have hheader : 8 ≤ (pcm.outStream.data.take pcm.outStream.currentPos.toNat).length := by
      rw [List.length_take, h.allocated]
      have := h.currentPos_le
      omega
    rw [htake, List.drop_append_of_le_length hheader, h.bytes]
  · simp only [PcmBuffer.written, htake, hsamples]

/-- A write with room is the write to the list of the bytes. -/
theorem PcmAgrees.pcmWrite (h : PcmAgrees format bytes pcm) {w : PcmWrite format}
    (hroom : w.HasRoom pcm) :
    (w.call pcm).map (fun p => p.1.written) =
      Racs.pcmWrite pcm.written w.block w.samples.toNat := by
  obtain ⟨pcm', hcall, -, hwritten⟩ := h.write hroom
  have hslice : slice w.block 0 (w.samples.toNat * format.frameSize) = some w.block := by
    rw [slice_eq_some, Nat.zero_add, ← w.length_block, List.drop_zero, List.take_length]
    exact ⟨le_rfl, rfl⟩
  have hchannels : pcm.written.channels = format.channels := h.channels
  have hdepth : pcm.written.bitDepth = format.bitDepth := h.bitDepth
  rw [hcall, Option.map_some, hwritten, Racs.pcmWrite, hchannels, hdepth, format.frames_size,
    hslice, Option.map_some]
  simp only [hchannels, hdepth]

/-- The frames of a block, where the counter of the samples may have wrapped around. -/
theorem counted_eq {samples n frame size : ℕ} (hframe : 0 < frame) (hsamples : samples < 2 ^ 64)
    (hn : n < 2 ^ 64) (h : (samples + n) % 2 ^ 64 * frame = samples * frame + size) :
    n * frame = size := by
  have hle : samples ≤ (samples + n) % 2 ^ 64 :=
    Nat.le_of_mul_le_mul_right (h ▸ Nat.le_add_right _ _) hframe
  have hmod : (samples + n) % 2 ^ 64 = samples + n := by omega
  rw [hmod, Nat.add_mul] at h
  exact Nat.add_left_cancel h

/-- **A write without room** counts samples that it does not append. -/
theorem PcmAgrees.not_of_not_hasRoom (h : PcmAgrees format bytes pcm) {w : PcmWrite format}
    (hroom : ¬ w.HasRoom pcm) {status : MemStreamStatus} (hcall : w.call pcm = some (pcm', status))
    (bytes' : List UInt8) : ¬ PcmAgrees format bytes' pcm' := by
  intro h'
  obtain ⟨⟨stream', status'⟩, hwrite, heq⟩ := Option.map_eq_some_iff.mp hcall
  obtain ⟨rfl, rfl⟩ := Prod.mk.inj heq
  have hsize := w.toNat_size
  rw [← h.channels, ← h.bitDepth] at hsize
  set size := pcm.channels.toUInt64 * w.samples * pcm.bitDepth.toUInt64 / 8 with hdef
  have hpos := h.currentPos
  have hpos' := h'.currentPos
  rw [format.position_eq] at hpos hpos'
  dsimp only at hpos'
  rw [UInt64.toNat_add] at hpos'
  have hframe := format.frameSize_pos
  rcases memstreamWrite_cases h.allocated hwrite with ⟨rfl, -, hfull, -⟩ | ⟨hcur, hrealloc, hlt⟩
  · -- nothing was appended, so that there was nothing to append
    have hnone := counted_eq hframe pcm.samples.toNat_lt w.samples.toNat_lt
      (show _ = _ + 0 by omega)
    rw [w.length_block, hnone, Nat.zero_mod] at hsize
    rw [UInt64.lt_iff_toNat_lt, UInt64.toNat_add, hsize, Nat.add_zero,
      Nat.mod_eq_of_lt pcm.outStream.currentPos.toNat_lt] at hfull
    exact hfull.not_ge h.currentPos_le
  · have hall := counted_eq hframe pcm.samples.toNat_lt w.samples.toNat_lt
      (show _ = _ + size.toNat by omega)
    rw [← w.length_block] at hall
    refine hroom ⟨?_, by rwa [hall], fun hfull => hrealloc ?_⟩
    · rw [hall, hsize]
      exact Nat.mod_lt _ (by decide)
    · rwa [UInt64.lt_iff_toNat_lt, UInt64.toNat_add, Nat.mod_eq_of_lt hlt, ← hall]

/-! ### Initialization -/

/-- Room for four bytes of the header. -/
theorem pcmBufferInit_agrees {format : StreamFormat} {realloc₁ realloc₂ : Realloc UInt8}
    (h₁ : realloc₁.isSome) (h₂ : realloc₂.isSome) :
    ∃ pcm, pcmBufferInit format realloc₁ realloc₂ = some pcm ∧ PcmAgrees format [] pcm := by
  obtain ⟨stream₁, hwrite₁, hcur₁, hle₁, hlength₁, -⟩ :=
    @memstreamWrite_continue memstreamInit realloc₁ (List.replicate 4 0) 4 rfl (by decide)
      (by decide) (by decide) fun _ => h₁
  have hcur₁ : stream₁.currentPos.toNat = 4 := hcur₁
  obtain ⟨stream₂, hwrite₂, hcur₂, hle₂, hlength₂, -⟩ :=
    @memstreamWrite_continue stream₁ realloc₂ (List.replicate 4 0) 4 hlength₁ (by decide) hle₁
      (by rw [hcur₁]; decide) fun _ => h₂
  have hcur₂ : stream₂.currentPos.toNat = 8 := by rw [hcur₂, hcur₁]; rfl
  have hinit : pcmBufferInit format realloc₁ realloc₂ =
      some ⟨format.channels, format.bitDepth, format.sampleRate, 0, stream₂⟩ := by
    rw [pcmBufferInit, hwrite₁, Option.bind_some]
    dsimp only
    rw [hwrite₂, Option.map_some]
  refine ⟨_, hinit, rfl, rfl, ?_, hle₂, hlength₂, ?_⟩
  · rw [hcur₂, format.position_eq, UInt64.toNat_zero, Nat.zero_mul]
  · rw [List.drop_eq_nil_iff, List.length_take, hcur₂]
    exact min_le_left _ _

/-- Where a part of the header could not be written, there is no room for the header. -/
theorem currentPos_pcmBufferInit {format : StreamFormat} {realloc₁ realloc₂ : Realloc UInt8}
    {pcm : PcmBuffer} (hinit : pcmBufferInit format realloc₁ realloc₂ = some pcm)
    (hnone : realloc₁ = none ∨ realloc₂ = none) : pcm.outStream.currentPos.toNat < 8 := by
  cases realloc₁ with
  | none =>
    cases realloc₂ with
    | none =>
      cases hinit
      exact (by decide : (0 : UInt64).toNat < 8)
    | some fresh =>
      cases hinit
      exact (by decide : (4 : UInt64).toNat < 8)
  | some fresh =>
    obtain rfl := hnone.resolve_left (Option.some_ne_none fresh)
    cases hinit
    exact (by decide : (4 : UInt64).toNat < 8)

/-! ### Sequences of writes -/

/-- **The vectors that agree throughout** are those for which there was memory each time. -/
theorem pcmAgreesThroughout_iff (format : StreamFormat) (realloc₁ realloc₂ : Realloc UInt8)
    (writes : List (PcmWrite format)) :
    PcmAgreesThroughout format realloc₁ realloc₂ writes ↔
      realloc₁.isSome ∧ realloc₂.isSome ∧
        ∀ pcm, pcmBufferInit format realloc₁ realloc₂ = some pcm →
          EveryStep PcmWrite.call (fun pcm w => w.HasRoom pcm) pcm writes := by
  have hruns {pcm : PcmBuffer} (h : PcmAgrees format [] pcm) :
      Throughout PcmWrite.call (fun past statuses => PcmAgrees format (writtenBlocks past statuses))
        pcm writes ↔ EveryStep PcmWrite.call (fun pcm w => w.HasRoom pcm) pcm writes := by
    refine throughout_iff_everyStep ?_ ?_ h writes
    · intro past statuses pcm w hlength h hroom
      obtain ⟨pcm', hcall, h', -⟩ := h.write hroom
      exact ⟨pcm', .continue, hcall, by rwa [writtenBlocks, collect_concat hlength]⟩
    · exact fun past statuses pcm w pcm' status h hroom hcall => h.not_of_not_hasRoom hroom hcall _
  constructor
  · rintro ⟨pcm, hinit, h⟩
    obtain ⟨pcm', statuses, hrun, hagrees⟩ := h [] writes rfl
    obtain ⟨rfl, rfl⟩ := Prod.mk.inj (Option.some.inj hrun)
    have hpos : 8 ≤ pcm.outStream.currentPos.toNat := hagrees.currentPos ▸ Nat.le_add_right 8 _
    have hboth : realloc₁.isSome ∧ realloc₂.isSome := by
      by_contra hnone
      rw [not_and_or, Option.not_isSome_iff_eq_none, Option.not_isSome_iff_eq_none] at hnone
      exact hpos.not_gt (currentPos_pcmBufferInit hinit hnone)
    refine ⟨hboth.1, hboth.2, fun pcm' hinit' => ?_⟩
    obtain rfl := Option.some.inj (hinit.symm.trans hinit')
    exact (hruns hagrees).mp h
  · rintro ⟨h₁, h₂, h⟩
    obtain ⟨pcm, hinit, hagrees⟩ := pcmBufferInit_agrees h₁ h₂
    exact ⟨pcm, hinit, (hruns hagrees).mpr (h pcm hinit)⟩

/-- There is no memory for the first block, and its sample is counted. -/
theorem not_pcmAgreesThroughout :
    ¬ ∀ (format : StreamFormat) (realloc₁ realloc₂ : Realloc UInt8)
      (writes : List (PcmWrite format)), PcmAgreesThroughout format realloc₁ realloc₂ writes := by
  intro h
  obtain ⟨pcm, hinit, hthroughout⟩ := h ⟨48000, 1, 16, .inl rfl, .inl rfl⟩ (some fun _ => 0)
    (some fun _ => 0) [⟨1, [7, 7], none, by decide⟩]
  cases hinit
  obtain ⟨pcm', statuses, hrun, hagrees⟩ := hthroughout [_] [] rfl
  cases hrun
  exact absurd hagrees.currentPos (by decide)

end Racs
