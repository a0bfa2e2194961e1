import Racs.CopyRegions
import Mathlib.Data.List.GetD

/-!
# Operations that undo each other

SPLIT takes the two channels of a stereo vector apart, and `racs_ops_merge` puts two mono vectors
together. TRIM takes off at both ends what PAD has put there. Each operation writes the two header
words anew, and returns the null pointer when it has no memory for its result.

## Main definitions

* `Racs.channelSamples` — the samples of one channel of a stereo vector.

## Main results

* `Racs.split_merge_inverse` — SPLIT and `racs_ops_merge` undo each other.
* `Racs.trim_pad` — TRIM undoes PAD.
-/

namespace Racs

/-! ### The samples of a channel -/

/-- The samples of a channel in a vector of two. -/
def channelSamples (samples : List Int32) (channel : ℕ) : List Int32 :=
  (List.range (samples.length / 2)).map fun f => samples.getD (f * 2 + channel) 0

@[simp] theorem length_channelSamples {samples : List Int32} {channel : ℕ} :
    (channelSamples samples channel).length = samples.length / 2 := by
  rw [channelSamples, List.length_map, List.length_range]

theorem getD_channelSamples {samples : List Int32} {channel f : ℕ} (hf : f < samples.length / 2) :
    (channelSamples samples channel).getD f 0 = samples.getD (f * 2 + channel) 0 := by
  rw [channelSamples, List.getD_eq_getElem _ _ (by simpa using hf), List.getElem_map,
    List.getElem_range]

/-- Pairs in a row, read one by one. -/
theorem flatMap_pair_range {α : Type*} (g h : ℕ → α) (n : ℕ) :
    (List.range n).flatMap (fun f => [g f, h f]) =
      (List.range (n * 2)).map fun i => if i % 2 = 0 then g (i / 2) else h (i / 2) := by
  induction n with
  | zero => rfl
  | succ n ih =>
    have heven : n * 2 % 2 = 0 ∧ n * 2 / 2 = n := by omega
    have hodd : (n * 2 + 1) % 2 = 1 ∧ (n * 2 + 1) / 2 = n := by omega
    rw [List.range_succ, List.flatMap_append, ih, Nat.succ_mul, List.range_succ, List.range_succ,
      List.map_append, List.map_append, List.append_assoc]
    simp [heven, hodd]

theorem mergeSamples_eq (samplesA samplesB : List Int32) :
    mergeSamples samplesA samplesB =
      (List.range (max samplesA.length samplesB.length * 2)).map fun i =>
        if i % 2 = 0 then samplesA.getD (i / 2) 0 else samplesB.getD (i / 2) 0 :=
  flatMap_pair_range _ _ _

@[simp] theorem length_mergeSamples (samplesA samplesB : List Int32) :
    (mergeSamples samplesA samplesB).length = max samplesA.length samplesB.length * 2 := by
  rw [mergeSamples_eq, List.length_map, List.length_range]

/-- The two channels of a vector in turn are the vector. -/
theorem mergeSamples_channelSamples {samples : List Int32} (heven : samples.length % 2 = 0) :
    mergeSamples (channelSamples samples 0) (channelSamples samples 1) = samples := by
  have hlen : samples.length / 2 * 2 = samples.length := by omega
  refine List.ext_getElem (by simp [hlen]) fun i hi hi' => ?_
  have hhalf : i / 2 < samples.length / 2 := by omega
  simp only [mergeSamples_eq, List.getElem_map, List.getElem_range]
  rw [getD_channelSamples hhalf, getD_channelSamples hhalf]
  split_ifs with hmod
  · rw [show i / 2 * 2 + 0 = i by omega, List.getD_eq_getElem _ _ hi']
  · rw [show i / 2 * 2 + 1 = i by omega, List.getD_eq_getElem _ _ hi']

/-- A list read up to a greater length is the list with zeros behind it. -/
theorem map_getD_range {samples : List Int32} {n : ℕ} (hn : samples.length ≤ n) :
    ((List.range n).map fun f => samples.getD f 0) =
      samples ++ List.replicate (n - samples.length) 0 := by
  refine List.ext_getElem (by simp; omega) fun i hi hi' => ?_
  rw [List.getElem_map, List.getElem_range, List.getElem_append]
  split_ifs with h
  · exact List.getD_eq_getElem _ _ h
  · rw [List.getElem_replicate, List.getD_eq_default _ _ (not_lt.mp h)]

/-- A channel of two vectors in turn is one of the vectors, read up to the end of the longer one. -/
theorem channelSamples_mergeSamples (samplesA samplesB : List Int32) {channel : ℕ}
    (hchannel : channel < 2) :
    channelSamples (mergeSamples samplesA samplesB) channel =
      (List.range (max samplesA.length samplesB.length)).map fun f =>
        (if channel = 0 then samplesA else samplesB).getD f 0 := by
  rw [channelSamples, length_mergeSamples, Nat.mul_div_cancel _ two_pos]
  refine List.map_congr_left fun f hf => ?_
  have hf := List.mem_range.mp hf
  rw [List.getD_eq_getElem _ _ (by simp only [length_mergeSamples]; omega)]
  simp only [mergeSamples_eq, List.getElem_map, List.getElem_range]
  rw [show (f * 2 + channel) / 2 = f by omega]
  by_cases hzero : channel = 0
  · rw [if_pos (by omega), if_pos hzero]
  · rw [if_neg (by omega), if_neg hzero]

/-- The first channel of two vectors in turn is the first vector, and zeros where it has ended. -/
theorem channelSamples_mergeSamples_zero (samplesA samplesB : List Int32) :
    channelSamples (mergeSamples samplesA samplesB) 0 =
      samplesA ++ List.replicate (max samplesA.length samplesB.length - samplesA.length) 0 := by
  rw [← map_getD_range (le_max_left _ _), channelSamples_mergeSamples _ _ two_pos]
  simp only [if_true]

/-- The second channel of two vectors in turn is the second vector, and zeros where it has ended. -/
theorem channelSamples_mergeSamples_one (samplesA samplesB : List Int32) :
    channelSamples (mergeSamples samplesA samplesB) 1 =
      samplesB ++ List.replicate (max samplesA.length samplesB.length - samplesB.length) 0 := by
  rw [← map_getD_range (le_max_right _ _), channelSamples_mergeSamples _ _ one_lt_two]
  simp only [one_ne_zero, if_false]

/-! ### The format word -/

theorem toBitVec_channels (audio : Audio) :
    audio.channels.toBitVec = audio.format.toBitVec.extractLsb' 16 16 := by
  have hbits : audio.channels.toBitVec = (audio.format.toBitVec.sshiftRight 16).setWidth 16 := rfl
  rw [hbits]
  ext i hi
  rw [BitVec.getElem_setWidth, BitVec.getLsbD_sshiftRight, BitVec.getElem_extractLsb']
  grind

theorem getElem_lowMask {i : ℕ} (hi : i < 32) : (0x0000ffff#32)[i] = decide (i < 16) := by
  rw [BitVec.getElem_eq_testBit_toNat]
  exact Nat.testBit_two_pow_sub_one 16 i

/-- The lower half of a format with a number of channels above it. -/
theorem lowHalf_or_channels (format : BitVec 32) (channels : BitVec 16) :
    format &&& 0x0000ffff#32 ||| channels.setWidth 32 <<< 16 =
      channels ++ format.extractLsb' 0 16 := by
  ext i hi
  rw [BitVec.getElem_append, BitVec.getElem_or, BitVec.getElem_and, getElem_lowMask]
  simp
  grind

theorem toBitVec_mono (format : Int32) :
    (format &&& 0x0000ffff ||| 0x00010000).toBitVec = 1#16 ++ format.toBitVec.extractLsb' 0 16 :=
  lowHalf_or_channels format.toBitVec 1#16

theorem toBitVec_stereo (format : Int32) :
    (format &&& 0x0000ffff ||| 0x00020000).toBitVec = 2#16 ++ format.toBitVec.extractLsb' 0 16 :=
  lowHalf_or_channels format.toBitVec 2#16

/-- A format with so many channels is its lower half with this number above it. -/
theorem toBitVec_format {audio : Audio} {channels : UInt16} (h : audio.channels = channels) :
    audio.format.toBitVec = channels.toBitVec ++ audio.format.toBitVec.extractLsb' 0 16 := by
  rw [← h, toBitVec_channels]
  exact (@BitVec.extractLsb'_append_extractLsb' 16 16 audio.format.toBitVec).symm

theorem toBitVec_lowHalf (format : Int32) :
    (format &&& 0x0000ffff).toBitVec = 0#16 ++ format.toBitVec.extractLsb' 0 16 := by
  have hzero := lowHalf_or_channels format.toBitVec 0#16
  simpa using hzero

/-- Two mono vectors in which `racs_ops_merge` finds the same depth have the same format. -/
theorem format_eq_of_mono {audioA audioB : Audio} (hmonoA : audioA.channels = 1)
    (hmonoB : audioB.channels = 1)
    (hdepth : audioA.format &&& 0x0000ffff = audioB.format &&& 0x0000ffff) :
    audioA.format = audioB.format := by
  have hlow := congrArg (BitVec.extractLsb' 0 16) (Int32.toBitVec_inj.mpr hdepth)
  rw [toBitVec_lowHalf, toBitVec_lowHalf, BitVec.extractLsb'_append_eq_right,
    BitVec.extractLsb'_append_eq_right] at hlow
  rw [← Int32.toBitVec_inj, toBitVec_format hmonoA, toBitVec_format hmonoB, hlow]

/-! ### Split and merge -/

variable (P : Platform)

theorem opsSplit_eq {audio : Audio} {channel : UInt16} (hstereo : audio.channels = 2)
    (hchannel : channel.toNat < 2) :
    opsSplit P audio channel =
      some (if P.alloc (audioBytes (audio.samples.length / 2)) then
        some ⟨audio.sampleRate, audio.format &&& 0x0000ffff ||| 0x00010000,
          channelSamples audio.samples channel.toNat⟩
      else none) := by
  have hread : (List.range (audio.samples.length / 2)).mapM
      (fun f => audio.samples[f * 2 + channel.toNat]?) =
        some (channelSamples audio.samples channel.toNat) := by
    rw [PartialRun.mapM_eq_some_iff, channelSamples, List.forall₂_map_right_iff, List.forall₂_same]
    intro f hf
    have hf := List.mem_range.mp hf
    have hin : f * 2 + channel.toNat < audio.samples.length := by omega
    rw [List.getElem?_eq_getElem hin, List.getD_eq_getElem _ _ hin]
  rw [opsSplit, if_neg (not_not.mpr hstereo)]
  dsimp only
  rw [hread]
  split_ifs <;> rfl

theorem opsMerge_eq {audioA audioB : Audio} (hmonoA : audioA.channels = 1)
    (hmonoB : audioB.channels = 1) (hrate : audioA.sampleRate = audioB.sampleRate)
    (hdepth : audioA.format &&& 0x0000ffff = audioB.format &&& 0x0000ffff) :
    opsMerge P audioA audioB =
      some (if P.alloc (audioBytes (max audioA.samples.length audioB.samples.length * 2)) then
        some ⟨audioA.sampleRate, audioA.format &&& 0x0000ffff ||| 0x00020000,
          mergeSamples audioA.samples audioB.samples⟩
      else none) := by
  rw [opsMerge, if_neg (not_or.mpr ⟨not_not.mpr hmonoA, not_not.mpr hmonoB⟩),
    if_neg (not_or.mpr ⟨not_not.mpr hrate, not_not.mpr hdepth⟩)]
  dsimp only
  split_ifs <;> rfl

theorem channels_mono (sampleRate format : Int32) (samples : List Int32) :
    (⟨sampleRate, format &&& 0x0000ffff ||| 0x00010000, samples⟩ : Audio).channels = 1 := by
  rw [← UInt16.toBitVec_inj, toBitVec_channels, toBitVec_mono,
    BitVec.extractLsb'_append_eq_left]
  rfl

theorem channels_stereo (sampleRate format : Int32) (samples : List Int32) :
    (⟨sampleRate, format &&& 0x0000ffff ||| 0x00020000, samples⟩ : Audio).channels = 2 := by
  rw [← UInt16.toBitVec_inj, toBitVec_channels, toBitVec_stereo,
    BitVec.extractLsb'_append_eq_left]
  rfl

theorem stereo_of_mono {audio : Audio} (hstereo : audio.channels = 2) :
    (audio.format &&& 0x0000ffff ||| 0x00010000) &&& 0x0000ffff ||| 0x00020000 = audio.format := by
  rw [← Int32.toBitVec_inj, toBitVec_stereo, toBitVec_mono, BitVec.extractLsb'_append_eq_right,
    toBitVec_format hstereo, BitVec.extractLsb'_append_eq_right]
  rfl

theorem mono_of_stereo {audio : Audio} (hmono : audio.channels = 1) :
    (audio.format &&& 0x0000ffff ||| 0x00020000) &&& 0x0000ffff ||| 0x00010000 = audio.format := by
  rw [← Int32.toBitVec_inj, toBitVec_mono, toBitVec_stereo, BitVec.extractLsb'_append_eq_right,
    toBitVec_format hmono, BitVec.extractLsb'_append_eq_right]
  rfl

/-- The two halves of a stereo vector together are the vector. -/
theorem merge_split {audio : Audio} (hstereo : audio.channels = 2)
    (heven : audio.samples.length % 2 = 0) :
    ((opsSplit P audio 0).bind fun left => (opsSplit P audio 1).bind fun right =>
      nonNull (fun left => nonNull (opsMerge P left) right) left) =
      some (if P.alloc (audioBytes (audio.samples.length / 2)) ∧
        P.alloc (audioBytes audio.samples.length) then some audio else none) := by
  rw [opsSplit_eq P hstereo (by decide), opsSplit_eq P hstereo (by decide)]
  by_cases hhalf : P.alloc (audioBytes (audio.samples.length / 2)) = true
  · have hlen : audio.samples.length / 2 * 2 = audio.samples.length := by omega
    have hmerge := opsMerge_eq P (channels_mono audio.sampleRate audio.format
      (channelSamples audio.samples 0)) (channels_mono audio.sampleRate audio.format
      (channelSamples audio.samples 1)) rfl rfl
    simp only [length_channelSamples, max_self, hlen, stereo_of_mono hstereo,
      mergeSamples_channelSamples heven] at hmerge
    rw [if_pos hhalf, if_pos hhalf]
    refine hmerge.trans ?_
    simp only [hhalf, true_and]
  · rw [if_neg hhalf, if_neg hhalf, if_neg fun h => hhalf h.1]
    rfl

/-- A vector with zeros behind it up to a number of samples. -/
def Audio.zeroExtend (audio : Audio) (n : ℕ) : Audio :=
  { audio with samples := audio.samples ++ List.replicate (n - audio.samples.length) 0 }

theorem split_merge {audioA audioB : Audio} {channel : UInt16} (hchannel : channel.toNat < 2)
    (hmonoA : audioA.channels = 1) (hmonoB : audioB.channels = 1)
    (hrate : audioA.sampleRate = audioB.sampleRate)
    (hdepth : audioA.format &&& 0x0000ffff = audioB.format &&& 0x0000ffff) :
    (opsMerge P audioA audioB).bind (nonNull fun merged => opsSplit P merged channel) =
      some (if P.alloc (audioBytes (max audioA.samples.length audioB.samples.length * 2)) ∧
          P.alloc (audioBytes (max audioA.samples.length audioB.samples.length)) then
        some ⟨audioA.sampleRate, audioA.format,
          channelSamples (mergeSamples audioA.samples audioB.samples) channel.toNat⟩
      else none) := by
  rw [opsMerge_eq P hmonoA hmonoB hrate hdepth]
  by_cases hall : P.alloc
      (audioBytes (max audioA.samples.length audioB.samples.length * 2)) = true
  · have hsplit := opsSplit_eq P (channels_stereo audioA.sampleRate audioA.format
      (mergeSamples audioA.samples audioB.samples)) hchannel
    simp only [length_mergeSamples, Nat.mul_div_cancel _ two_pos, mono_of_stereo hmonoA] at hsplit
    rw [if_pos hall]
    refine hsplit.trans ?_
    simp only [hall, true_and]
  · rw [if_neg hall, if_neg fun h => hall h.1]
    rfl

/-- **SPLIT and `racs_ops_merge` undo each other.** -/
theorem split_merge_inverse :
    (∀ audio : Audio, audio.channels = 2 → audio.samples.length % 2 = 0 →
      ((opsSplit P audio 0).bind fun left => (opsSplit P audio 1).bind fun right =>
        nonNull (fun left => nonNull (opsMerge P left) right) left) =
        some (if P.alloc (audioBytes (audio.samples.length / 2)) ∧
          P.alloc (audioBytes audio.samples.length) then some audio else none)) ∧
    ∀ audioA audioB : Audio, audioA.channels = 1 → audioB.channels = 1 →
      audioA.sampleRate = audioB.sampleRate →
      audioA.format &&& 0x0000ffff = audioB.format &&& 0x0000ffff →
      ∀ frames, frames = max audioA.samples.length audioB.samples.length →
      (opsMerge P audioA audioB).bind (nonNull fun merged => opsSplit P merged 0) =
        some (if P.alloc (audioBytes (frames * 2)) ∧ P.alloc (audioBytes frames) then
          some (audioA.zeroExtend frames) else none) ∧
      (opsMerge P audioA audioB).bind (nonNull fun merged => opsSplit P merged 1) =
        some (if P.alloc (audioBytes (frames * 2)) ∧ P.alloc (audioBytes frames) then
          some (audioB.zeroExtend frames) else none) := by
  refine ⟨fun audio => merge_split P, ?_⟩
  rintro audioA audioB hmonoA hmonoB hrate hdepth frames rfl
  have hformat := format_eq_of_mono hmonoA hmonoB hdepth
  have hzero : (0 : UInt16).toNat = 0 := rfl
  have hone : (1 : UInt16).toNat = 1 := rfl
  constructor
  · rw [split_merge P (by decide) hmonoA hmonoB hrate hdepth, hzero,
      channelSamples_mergeSamples_zero]
    rfl
  · rw [split_merge P (by decide) hmonoA hmonoB hrate hdepth, hone,
      channelSamples_mergeSamples_one, hrate, hformat]
    rfl

/-- The two channels of two frames, and a vector of two samples with one of a single sample. -/
theorem split_merge_inverse_frames :
    ((opsSplit .rational ⟨44100, 0x00020010, [1, 2, 3, 4]⟩ 0).bind fun left =>
      (opsSplit .rational ⟨44100, 0x00020010, [1, 2, 3, 4]⟩ 1).bind fun right =>
        nonNull (fun left => nonNull (opsMerge .rational left) right) left) =
      some (some ⟨44100, 0x00020010, [1, 2, 3, 4]⟩) ∧
    (opsMerge .rational ⟨44100, 0x00010010, [1, 3]⟩ ⟨44100, 0x00010010, [2]⟩).bind
      (nonNull fun merged => opsSplit .rational merged 1) =
      some (some ⟨44100, 0x00010010, [2, 0]⟩) := by
  obtain ⟨hmerge, hsplit⟩ := split_merge_inverse .rational
  exact ⟨(hmerge ⟨44100, 0x00020010, [1, 2, 3, 4]⟩ (by decide) (by decide)).trans (by decide),
    (hsplit ⟨44100, 0x00010010, [1, 3]⟩ ⟨44100, 0x00010010, [2]⟩ (by decide) (by decide) rfl rfl 2
      (by decide)).2.trans (by decide)⟩

/-! ### Trim and pad -/

/-- A vector with silence around its samples. -/
def Audio.padded (audio : Audio) (left right : ℕ) : Audio :=
  { audio with samples := List.replicate left 0 ++ audio.samples ++ List.replicate right 0 }

@[simp] theorem Audio.length_padded (audio : Audio) (left right : ℕ) :
    (audio.padded left right).samples.length = left + audio.samples.length + right := by
  simp [Audio.padded, Nat.add_assoc]

variable {P} {audio : Audio} {leftSeconds rightSeconds : P.Double} {left right : UInt64}

theorem opsPad_eq_padded (hleft : sampleCount P audio leftSeconds = some left)
    (hright : sampleCount P audio rightSeconds = some right)
    (hsum : 2 + left.toNat + audio.samples.length + right.toNat < 2 ^ 64) :
    opsPad P audio leftSeconds rightSeconds =
      some (if P.alloc (4 * (2 + left.toNat + audio.samples.length + right.toNat)) then
        some (audio.padded left.toNat right.toNat) else none) := by
  have hout : (2 + left + UInt64.ofNat audio.samples.length + right).toNat =
      2 + left.toNat + audio.samples.length + right.toNat := by
    have htwo : (2 : UInt64).toNat = 2 := rfl
    rw [UInt64.toNat_add, UInt64.toNat_add, UInt64.toNat_add, htwo, UInt64.toNat_ofNat']
    omega
  have hsilence : 2 + left.toNat + audio.samples.length + right.toNat - 2 - left.toNat -
      audio.samples.length = right.toNat := by omega
  rw [opsPad, hleft, hright]
  simp only [Option.bind_some, hout, hsilence]
  rw [if_pos (Nat.le_add_right _ _)]
  split_ifs <;> rfl

/-- The samples between the silence are not empty, so that TRIM does not reject its counts. -/
theorem opsTrim_padded (hne : audio.samples ≠ [])
    (hleft : sampleCount P audio leftSeconds = some left)
    (hright : sampleCount P audio rightSeconds = some right)
    (hsum : left.toNat + audio.samples.length + right.toNat < 2 ^ 64) :
    opsTrim P (audio.padded left.toNat right.toNat) leftSeconds rightSeconds =
      some (if P.alloc (audioBytes audio.samples.length) then some audio else none) := by
  have hpos : 0 < audio.samples.length := List.length_pos_iff.mpr hne
  set len := UInt64.ofNat (left.toNat + audio.samples.length + right.toNat) with hdef
  have hlen : len.toNat = left.toNat + audio.samples.length + right.toNat := by
    rw [hdef, UInt64.toNat_ofNat', Nat.mod_eq_of_lt hsum]
  have hcounts : ¬ len ≤ left + right := by
    rw [UInt64.le_iff_toNat_le, UInt64.toNat_add]
    omega
  have hcopy : (len - left - right).toNat = audio.samples.length := by
    rw [UInt64.toNat_sub, UInt64.toNat_sub]
    omega
  have hload : loadSamples (audio.padded left.toNat right.toNat).samples left.toNat
      audio.samples.length = some audio.samples := by
    rw [loadSamples, Audio.length_padded, if_pos (Nat.le_add_right _ _), Audio.padded]
    simp
  rw [opsTrim, show sampleCount P (audio.padded left.toNat right.toNat) leftSeconds = some left
    from hleft, show sampleCount P (audio.padded left.toNat right.toNat) rightSeconds = some right
    from hright, Audio.length_padded]
  simp only [Option.bind_some, ← hdef, if_neg hcounts, hcopy, hload, Option.map_some]
  split_ifs <;> rfl

/-- **TRIM undoes PAD**: when the result of PAD has less than 2^64 words, both operations return the
null pointer where they have no memory, and otherwise they return the vector together. -/
theorem trim_pad (hne : audio.samples ≠ []) (hleft : sampleCount P audio leftSeconds = some left)
    (hright : sampleCount P audio rightSeconds = some right)
    (hsum : 2 + left.toNat + audio.samples.length + right.toNat < 2 ^ 64) :
    (opsPad P audio leftSeconds rightSeconds).bind
        (nonNull fun padded => opsTrim P padded leftSeconds rightSeconds) =
      some (if P.alloc (4 * (2 + left.toNat + audio.samples.length + right.toNat)) ∧
        P.alloc (audioBytes audio.samples.length) then some audio else none) := by
  have htrim := opsTrim_padded hne hleft hright (by omega)
  rw [opsPad_eq_padded hleft hright hsum]
  by_cases halloc : P.alloc
      (4 * (2 + left.toNat + audio.samples.length + right.toNat)) = true
  · rw [if_pos halloc]
    refine htrim.trans ?_
    simp only [halloc, true_and]
  · rw [if_neg halloc, if_neg fun h => halloc h.1]
    rfl

/-- Silence of one second in front and of two behind a mono vector of one sample for each second. -/
theorem trim_pad_seconds :
    (opsPad .rational ⟨1, 0x00010010, [7, 8, 9]⟩ (some 1) (some 2)).bind
        (nonNull fun padded => opsTrim .rational padded (some 1) (some 2)) =
      some (some ⟨1, 0x00010010, [7, 8, 9]⟩) :=
  (@trim_pad .rational ⟨1, 0x00010010, [7, 8, 9]⟩ (some 1) (some 2) 1 2 (by decide)
    (by decide +kernel) (by decide +kernel) (by decide)).trans (by decide +kernel)

end Racs
