import Racs.Foundation.ByteBuffer
import Racs.Foundation.PartialRun
import Mathlib.Data.List.Induction

/-!
# The vector of a range

`racs_range` collects the selected blocks of a stream in a memory stream that starts with eight
bytes of room for a header (`pcm.c`). The command RANGE and the Scheme function `range` widen this
stream to 32-bit samples and write the header into the first two of them.

The widening starts at the room for the header and stops after as many samples as the blocks hold,
so the last samples are missing, and the vector is read two samples past its end.

## Main definitions

* `Racs.Pcm`, `Racs.pcmInit`, `Racs.pcmWrite`, `Racs.rangePcm`.
* `Racs.s16S32`, `Racs.s24S32`, `Racs.commandRange`, `Racs.scmRange`.
* `Racs.pcmSamples` — the samples that blocks hold.

## Main results

* `Racs.rangePcm_eq` — what is collected.
* `Racs.not_rangeExact` — no vector is packed.
-/

namespace Racs

open ByteBuffer PartialRun

/-! ### Collecting blocks -/

/-- `racs_pcm`; the memory stream is the list of the bytes written to it. -/
structure Pcm where
  channels : UInt8
  bitDepth : UInt8
  sampleRate : UInt32
  samples : ℕ
  outStream : List UInt8

/-- The setters and `racs_pcm_init`, with the room for the header. -/
def pcmInit (channels bitDepth : UInt8) (sampleRate : UInt32) : Pcm :=
  ⟨channels, bitDepth, sampleRate, 0, List.replicate 8 0⟩

/-- `racs_pcm_write`; undefined when it reads past the block. -/
def pcmWrite (pcm : Pcm) (block : List UInt8) (samples : ℕ) : Option Pcm :=
  (slice block 0 (pcm.channels.toNat * samples * pcm.bitDepth.toNat / 8)).map fun bytes =>
    { pcm with outStream := pcm.outStream ++ bytes, samples := pcm.samples + samples }

/-- A selected block is written; undefined when the size of a frame is zero. -/
def pcmWriteBlock (pcm : Pcm) (block : List UInt8) : Option Pcm :=
  let frameSize := pcm.channels.toNat * pcm.bitDepth.toNat / 8
  if frameSize = 0 then none else pcmWrite pcm block (block.length / frameSize)

/-- The formats that CREATE admits. -/
structure StreamFormat where
  sampleRate : UInt32
  channels : UInt8
  bitDepth : UInt8
  channels_eq : channels = 1 ∨ channels = 2
  bitDepth_eq : bitDepth = 16 ∨ bitDepth = 24

/-- The size of a frame of audio. -/
def StreamFormat.frameSize (format : StreamFormat) : ℕ :=
  format.channels.toNat * format.bitDepth.toNat / 8

/-- A block that holds whole frames. -/
abbrev WholeBlock (format : StreamFormat) :=
  { block : List UInt8 // format.frameSize ∣ block.length }

/-- What `racs_range` collects of the selected blocks. -/
def rangePcm (format : StreamFormat) (blocks : List (WholeBlock format)) : Option Pcm :=
  (blocks.map Subtype.val).foldlM pcmWriteBlock
    (pcmInit format.channels format.bitDepth format.sampleRate)

/-! ### Widening and packing -/

/-- The loop of `racs_s16_s32` and `racs_s24_s32`, for samples of `width` bytes. The index is an
`int`, and the loop is undefined when it overflows or when it reads past the data. A buffer for no
sample may be the null pointer, depending on `allocEmpty`. -/
def widen (width : ℕ) (convert : List UInt8 → Int32) (allocEmpty : Bool) (data : List UInt8)
    (n : ℕ) : Option (Option (List Int32)) :=
  if n = 0 ∧ allocEmpty = false then some none
  else if n < 2 ^ 31 then
    ((List.range n).mapM fun i => (slice data (width * i) width).map convert).map some
  else none

/-- The conversion in `racs_s16_s32`. -/
def convertS16 (bytes : List UInt8) : Int32 := (UInt16.ofNat (decode bytes)).toInt16.toInt32

/-- The conversion in `racs_s24_s32`. -/
def convertS24 (bytes : List UInt8) : Int32 :=
  let s := UInt32.ofNat (decode bytes)
  (if s &&& 0x800000 ≠ 0 then s ||| 0xff000000 else s).toInt32

/-- `racs_s16_s32`. -/
def s16S32 : Bool → List UInt8 → ℕ → Option (Option (List Int32)) := widen 2 convertS16

/-- `racs_s24_s32`. -/
def s24S32 : Bool → List UInt8 → ℕ → Option (Option (List Int32)) := widen 3 convertS24

/-- `samples[i] = x`; undefined outside the vector. -/
def storeSample (samples : List Int32) (i : ℕ) (x : Int32) : Option (List Int32) :=
  if i < samples.length then some (samples.set i x) else none

/-- The `n` samples from `samples + start` on; undefined outside the vector. -/
def loadSamples (samples : List Int32) (start n : ℕ) : Option (List Int32) :=
  if start + n ≤ samples.length then some ((samples.drop start).take n) else none

/-- The second word of the header. -/
def formatWord (channels bitDepth : UInt8) : Int32 :=
  (channels.toUInt32 <<< 16 ||| bitDepth.toUInt32).toInt32

/-- The widened samples, none for the null pointer. -/
def rangeSamples (allocEmpty : Bool) (pcm : Pcm) : Option (Option (List Int32)) :=
  let size := pcm.samples * pcm.channels.toNat
  if pcm.bitDepth = 16 then s16S32 allocEmpty pcm.outStream size
  else if pcm.bitDepth = 24 then s24S32 allocEmpty pcm.outStream size
  else some none

/-- The widened samples with the header written into them. -/
def rangeVector (pcm : Pcm) (samples : List Int32) : Option (List Int32) :=
  (storeSample samples 0 pcm.sampleRate.toInt32).bind fun samples =>
    storeSample samples 1 (formatWord pcm.channels pcm.bitDepth)

/-- What is packed, or the text of an error. -/
inductive RangeReply
  | error (message : String)
  | s32v (samples : List Int32)
  deriving DecidableEq

/-- `racs_command_range` behind `racs_range`. -/
def commandRange (allocEmpty : Bool) (pcm : Pcm) (isFinal : Bool) : Option RangeReply :=
  let size := pcm.samples * pcm.channels.toNat
  (rangeSamples allocEmpty pcm).bind fun samples =>
  match samples with
  | none => some (.error "Unknown error")
  | some samples => (rangeVector pcm samples).bind fun samples =>
    if isFinal then (loadSamples samples 2 size).map .s32v
    else (loadSamples samples 0 (size + 2)).map .s32v

/-- `racs_scm_range` behind `racs_range`; the vector that it returns has `size + 2` samples. -/
def scmRange (allocEmpty : Bool) (pcm : Pcm) : Option RangeReply :=
  let size := pcm.samples * pcm.channels.toNat
  (rangeSamples allocEmpty pcm).bind fun samples =>
  match samples with
  | none => some (.error "Unknown error")
  | some samples => (rangeVector pcm samples).bind fun samples =>
    (loadSamples samples 0 (size + 2)).map .s32v

/-! ### The samples of blocks -/

/-- The integer that `bits` bits stand for in two's complement. -/
def signExtend (bits n : ℕ) : ℤ := if n < 2 ^ (bits - 1) then n else (n : ℤ) - 2 ^ bits

/-- The samples that bytes of audio hold. -/
def pcmSamples (bitDepth : UInt8) (audio : List UInt8) : List Int32 :=
  let width := bitDepth.toNat / 8
  (List.range (audio.length / width)).map fun i =>
    Int32.ofInt (signExtend bitDepth.toNat (decode ((audio.drop (width * i)).take width)))

/-- The samples of the blocks of a stream, in order. -/
def blockSamples (format : StreamFormat) (blocks : List (WholeBlock format)) : List Int32 :=
  pcmSamples format.bitDepth (blocks.flatMap Subtype.val)

/-- The header in front of the samples. -/
def rangeHeader (format : StreamFormat) : List Int32 :=
  [format.sampleRate.toInt32, formatWord format.channels format.bitDepth]

/-- As the last stage of a pipeline, RANGE packs the samples of the blocks, and stays inside its
vector. -/
def RangeFinalExact (allocEmpty : Bool) (format : StreamFormat)
    (blocks : List (WholeBlock format)) : Prop :=
  ∃ pcm, rangePcm format blocks = some pcm ∧
    commandRange allocEmpty pcm true = some (.s32v (blockSamples format blocks))

/-- In front of other stages, RANGE packs the header and the samples of the blocks. -/
def RangePipedExact (allocEmpty : Bool) (format : StreamFormat)
    (blocks : List (WholeBlock format)) : Prop :=
  ∃ pcm, rangePcm format blocks = some pcm ∧
    commandRange allocEmpty pcm false =
      some (.s32v (rangeHeader format ++ blockSamples format blocks))

/-- In Scheme, `range` returns the header and the samples of the blocks. -/
def RangeSchemeExact (allocEmpty : Bool) (format : StreamFormat)
    (blocks : List (WholeBlock format)) : Prop :=
  ∃ pcm, rangePcm format blocks = some pcm ∧
    scmRange allocEmpty pcm = some (.s32v (rangeHeader format ++ blockSamples format blocks))

/-! ### What is collected -/

theorem StreamFormat.frameSize_pos (format : StreamFormat) : 0 < format.frameSize := by
  unfold frameSize
  rcases format.channels_eq with hchannels | hchannels <;>
    rcases format.bitDepth_eq with hdepth | hdepth <;> rw [hchannels, hdepth] <;> decide

theorem StreamFormat.channels_mul_bitDepth (format : StreamFormat) :
    format.channels.toNat * format.bitDepth.toNat = 8 * format.frameSize := by
  unfold frameSize
  rcases format.channels_eq with hchannels | hchannels <;>
    rcases format.bitDepth_eq with hdepth | hdepth <;> rw [hchannels, hdepth] <;> decide

/-- The size of so many frames, as `racs_pcm_write` computes it. -/
theorem StreamFormat.frames_size (format : StreamFormat) (samples : ℕ) :
    format.channels.toNat * samples * format.bitDepth.toNat / 8 = samples * format.frameSize := by
  rw [Nat.mul_right_comm, format.channels_mul_bitDepth, Nat.mul_assoc,
    Nat.mul_div_cancel_left _ (by decide), Nat.mul_comm]

/-- A block of whole frames is collected to its last byte. -/
theorem StreamFormat.frames_mul (format : StreamFormat) {size : ℕ}
    (h : format.frameSize ∣ size) :
    format.channels.toNat * (size / format.frameSize) * format.bitDepth.toNat / 8 = size := by
  rw [format.frames_size, Nat.div_mul_cancel h]

/-- A block of whole frames is written to its last byte. -/
theorem pcmWriteBlock_eq (format : StreamFormat) {pcm : Pcm} {block : List UInt8}
    (hchannels : pcm.channels = format.channels) (hdepth : pcm.bitDepth = format.bitDepth)
    (h : format.frameSize ∣ block.length) :
    pcmWriteBlock pcm block = some { pcm with
      outStream := pcm.outStream ++ block
      samples := pcm.samples + block.length / format.frameSize } := by
  have hsize : pcm.channels.toNat * pcm.bitDepth.toNat / 8 = format.frameSize := by
    rw [hchannels, hdepth, StreamFormat.frameSize]
  have hslice : slice block 0 block.length = some block := by
    rw [slice_eq_some, Nat.zero_add, List.drop_zero, List.take_length]
    exact ⟨le_refl _, rfl⟩
  simp only [pcmWriteBlock, hsize]
  rw [if_neg format.frameSize_pos.ne', pcmWrite, hchannels, hdepth, format.frames_mul h, hslice,
    Option.map_some]

/-- **What is collected**: all bytes of the blocks, behind the room for the header. -/
theorem rangePcm_eq (format : StreamFormat) (blocks : List (WholeBlock format)) :
    rangePcm format blocks = some
      { channels := format.channels
        bitDepth := format.bitDepth
        sampleRate := format.sampleRate
        samples := (blocks.flatMap Subtype.val).length / format.frameSize
        outStream := List.replicate 8 0 ++ blocks.flatMap Subtype.val } := by
  induction blocks using List.reverseRecOn with
  | nil =>
    rw [List.flatMap_nil, List.length_nil, Nat.zero_div]
    rfl
  | append_singleton blocks block ih =>
    obtain ⟨block, hblock⟩ := block
    have hsamples : (blocks.flatMap Subtype.val).length / format.frameSize +
        block.length / format.frameSize =
          ((blocks.flatMap Subtype.val).length + block.length) / format.frameSize := by
      obtain ⟨n, hn⟩ := hblock
      rw [hn, Nat.mul_div_cancel_left n format.frameSize_pos,
        Nat.add_mul_div_left _ _ format.frameSize_pos]
    rw [rangePcm] at ih
    rw [rangePcm, List.map_append, List.foldlM_append, ih, List.flatMap_append,
      List.flatMap_singleton, List.length_append, ← List.append_assoc, ← hsamples]
    simp only [Option.bind_eq_bind, Option.bind_some, List.map_cons, List.map_nil, List.foldlM_cons,
      List.foldlM_nil]
    rw [pcmWriteBlock_eq format rfl rfl hblock]
    rfl

/-! ### The vector -/

theorem length_widen {width : ℕ} {convert : List UInt8 → Int32} {allocEmpty : Bool}
    {data : List UInt8} {n : ℕ} {samples : List Int32}
    (h : widen width convert allocEmpty data n = some (some samples)) : samples.length = n := by
  unfold widen at h
  split_ifs at h with hnull hsmall
  · cases h
  · obtain ⟨samples', hloop, heq⟩ := Option.map_eq_some_iff.mp h
    obtain rfl := Option.some.inj heq
    rw [← (mapM_eq_some_iff.mp hloop).length_eq, List.length_range]

theorem length_rangeSamples {allocEmpty : Bool} {pcm : Pcm} {samples : List Int32}
    (h : rangeSamples allocEmpty pcm = some (some samples)) :
    samples.length = pcm.samples * pcm.channels.toNat := by
  unfold rangeSamples at h
  split_ifs at h
  · exact length_widen h
  · exact length_widen h
  · cases h

theorem length_storeSample {samples samples' : List Int32} {i : ℕ} {x : Int32}
    (h : storeSample samples i x = some samples') :
    i < samples.length ∧ samples'.length = samples.length := by
  unfold storeSample at h
  split_ifs at h with hi
  obtain rfl := Option.some.inj h
  exact ⟨hi, List.length_set⟩

/-- The header fits only into a vector of at least two samples. -/
theorem length_rangeVector {pcm : Pcm} {samples samples' : List Int32}
    (h : rangeVector pcm samples = some samples') :
    2 ≤ samples'.length ∧ samples'.length = samples.length := by
  obtain ⟨samples₁, hfirst, hsecond⟩ := Option.bind_eq_some_iff.mp h
  obtain ⟨-, hlen₁⟩ := length_storeSample hfirst
  obtain ⟨hlt, hlen₂⟩ := length_storeSample hsecond
  exact ⟨by omega, hlen₂.trans hlen₁⟩

/-- Two samples more than the vector has cannot be loaded. -/
theorem loadSamples_eq_none {samples : List Int32} {start n : ℕ} (h : samples.length < start + n) :
    loadSamples samples start n = none :=
  if_neg (not_le.mpr h)

/-- **The command RANGE packs no vector**: it writes the header or reads the samples outside of the
vector. -/
theorem commandRange_ne (allocEmpty : Bool) (pcm : Pcm) (isFinal : Bool) (v : List Int32) :
    commandRange allocEmpty pcm isFinal ≠ some (.s32v v) := by
  intro h
  obtain ⟨- | samples, hsamples, h⟩ := Option.bind_eq_some_iff.mp h
  · cases h
  · obtain ⟨samples', hvector, h⟩ := Option.bind_eq_some_iff.mp h
    have hlen := length_rangeSamples hsamples
    obtain ⟨htwo, hlen'⟩ := length_rangeVector hvector
    split_ifs at h
    · rw [loadSamples_eq_none (by omega)] at h
      cases h
    · rw [loadSamples_eq_none (by omega)] at h
      cases h

/-- The Scheme function returns no vector. -/
theorem scmRange_ne (allocEmpty : Bool) (pcm : Pcm) (v : List Int32) :
    scmRange allocEmpty pcm ≠ some (.s32v v) :=
  commandRange_ne allocEmpty pcm false v

/-- **RANGE never returns the stored audio**, for no format, no list of blocks and at no place of a
pipeline. -/
theorem not_rangeExact (allocEmpty : Bool) (format : StreamFormat)
    (blocks : List (WholeBlock format)) :
    ¬ RangeFinalExact allocEmpty format blocks ∧ ¬ RangePipedExact allocEmpty format blocks ∧
      ¬ RangeSchemeExact allocEmpty format blocks := by
  refine ⟨?_, ?_, ?_⟩
  · rintro ⟨pcm, -, h⟩
    exact commandRange_ne allocEmpty pcm true _ h
  · rintro ⟨pcm, -, h⟩
    exact commandRange_ne allocEmpty pcm false _ h
  · rintro ⟨pcm, -, h⟩
    exact scmRange_ne allocEmpty pcm _ h

/-- One sample of two bytes. -/
def threeSamples : List (WholeBlock ⟨48000, 1, 16, .inl rfl, .inl rfl⟩) :=
  [⟨[1, 0, 2, 0, 3, 0], by decide⟩]

/-- The samples of a block with the samples 1, 2 and 3 are not packed. -/
theorem not_rangeFinalExact_threeSamples : ¬ RangeFinalExact true _ threeSamples := by
  rintro ⟨pcm, -, h⟩
  exact commandRange_ne true pcm true _ h

/-! ### Where the samples are in the vector -/

theorem convertS16_eq {bytes : List UInt8} (h : decode bytes < 2 ^ 16) :
    convertS16 bytes = Int32.ofInt (signExtend 16 (decode bytes)) := by
  have hint : (UInt16.ofNat (decode bytes)).toInt16.toInt = signExtend 16 (decode bytes) := by
    have hbits : (UInt16.ofNat (decode bytes)).toInt16.toInt =
        (BitVec.ofNat 16 (decode bytes)).toInt := rfl
    rw [hbits, BitVec.toInt_eq_toNat_cond, BitVec.toNat_ofNat, Nat.mod_eq_of_lt h, signExtend]
    split_ifs <;> omega
  have hlow : -2 ^ 31 ≤ signExtend 16 (decode bytes) := by
    unfold signExtend
    split_ifs <;> omega
  have hhigh : signExtend 16 (decode bytes) < 2 ^ 31 := by
    unfold signExtend
    split_ifs <;> omega
  rw [← Int32.toInt_inj, convertS16, Int16.toInt_toInt32, hint, Int32.toInt_ofInt_of_le hlow hhigh]

/-- The widening of data that are long enough. -/
theorem widen_eq {width : ℕ} {convert : List UInt8 → Int32} {data : List UInt8} {n : ℕ}
    (hdata : width * n ≤ data.length) (hn : n < 2 ^ 31) :
    widen width convert true data n =
      some (some ((List.range n).map fun i => convert ((data.drop (width * i)).take width))) := by
  have hloop : (List.range n).mapM (fun i => (slice data (width * i) width).map convert) =
      some ((List.range n).map fun i => convert ((data.drop (width * i)).take width)) := by
    rw [mapM_eq_some_iff, List.forall₂_map_right_iff, List.forall₂_same]
    intro i hi
    have hle : width * (i + 1) ≤ width * n := Nat.mul_le_mul_left width (List.mem_range.mp hi)
    rw [Nat.mul_succ] at hle
    rw [slice, if_pos (by omega), Option.map_some]
  rw [widen, if_neg (by simp), if_pos hn, hloop, Option.map_some]

theorem frameSize_dvd_length (format : StreamFormat) (blocks : List (WholeBlock format)) :
    format.frameSize ∣ (blocks.flatMap Subtype.val).length := by
  induction blocks with
  | nil => exact dvd_zero _
  | cons block blocks ih =>
    rw [List.flatMap_cons, List.length_append]
    exact Nat.dvd_add block.2 ih

/-- **Samples of 16 bits are four places late**: the vector begins with the room for the header, and
the last four samples are missing. -/
theorem rangeSamples_eq {format : StreamFormat} (hdepth : format.bitDepth = 16)
    {blocks : List (WholeBlock format)} {pcm : Pcm} (hpcm : rangePcm format blocks = some pcm)
    (hn : (blockSamples format blocks).length < 2 ^ 31) :
    rangeSamples true pcm = some (some
      ((List.replicate 4 0 ++ blockSamples format blocks).take
        (blockSamples format blocks).length)) := by
  obtain rfl := Option.some.inj ((rangePcm_eq format blocks).symm.trans hpcm)
  have hwidth : format.bitDepth.toNat = 16 := by rw [hdepth]; rfl
  have hframe : format.frameSize = 2 * format.channels.toNat := by
    rw [StreamFormat.frameSize, hwidth]
    omega
  have hdvd := frameSize_dvd_length format blocks
  have hlen : (blockSamples format blocks).length = (blocks.flatMap Subtype.val).length / 2 := by
    rw [blockSamples, pcmSamples, List.length_map, List.length_range, hwidth]
  have hsize : (blocks.flatMap Subtype.val).length / format.frameSize * format.channels.toNat =
      (blockSamples format blocks).length := by
    obtain ⟨k, hk⟩ := hdvd
    rw [hlen, hk, Nat.mul_div_cancel_left k format.frameSize_pos, hframe, Nat.mul_assoc,
      Nat.mul_div_cancel_left _ (by omega), Nat.mul_comm]
  have hread : 2 * (blockSamples format blocks).length ≤
      (List.replicate 8 (0 : UInt8) ++ blocks.flatMap Subtype.val).length := by
    rw [hlen, List.length_append]
    omega
  simp only [rangeSamples, if_pos hdepth, s16S32, hsize]
  rw [widen_eq hread hn]
  refine congrArg (fun v => some (some v)) (List.ext_getElem ?_ fun i hi _ => ?_)
  · rw [List.length_map, List.length_range, List.length_take, List.length_append]
    omega
  · rw [List.getElem_map, List.getElem_range, List.getElem_take]
    have hconvert : ∀ bytes : List UInt8, convertS16 (bytes.take 2) =
        Int32.ofInt (signExtend 16 (decode (bytes.take 2))) := fun bytes =>
      convertS16_eq ((decode_lt _).trans_le
        (Nat.pow_le_pow_right (by omega) (List.length_take_le 2 bytes)))
    rcases Nat.lt_or_ge i 4 with hi4 | hi4
    · rw [List.getElem_append_left (by simpa using hi4), List.getElem_replicate]
      have hzero : ((List.replicate 8 (0 : UInt8) ++ blocks.flatMap Subtype.val).drop
          (2 * i)).take 2 = [0, 0] := by
        obtain rfl | rfl | rfl | rfl : i = 0 ∨ i = 1 ∨ i = 2 ∨ i = 3 := by omega
        all_goals rfl
      rw [hzero]
      rfl
    · rw [List.getElem_append_right (by simpa using hi4)]
      have hdrop : (List.replicate 8 (0 : UInt8) ++ blocks.flatMap Subtype.val).drop (2 * i) =
          (blocks.flatMap Subtype.val).drop (2 * (i - 4)) := by
        rw [List.drop_append, List.drop_eq_nil_of_le (by rw [List.length_replicate]; omega),
          List.nil_append, List.length_replicate]
        congr 1
        omega
      simp only [hdrop, hconvert, blockSamples, pcmSamples, hwidth, List.getElem_map,
        List.getElem_range, List.length_replicate]

end Racs
