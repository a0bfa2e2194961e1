import Racs.Pcm
import Racs.Platform
import Mathlib.Data.List.Enum

/-!
# Operations on audio

The functions of `ops.c` that commands use. A vector of samples starts with two header words, the
sample rate and the format, which every operation keeps in front. An operation returns the null
pointer when its arguments do not fit the audio or its memory cannot be allocated. It is undefined
where it accesses memory outside its buffers or converts a value that the machine does not convert.

## Main definitions

* `Racs.Audio` — a vector with its two header words.
* `Racs.opsGain`, `Racs.opsTrim`, `Racs.opsFade`, `Racs.opsPan`, `Racs.opsPad`, `Racs.opsClip`,
  `Racs.opsSplit`, `Racs.opsMerge`.
* `Racs.nonNull` — an operation on the result of another one.
-/

namespace Racs

/-- A vector of samples with at least its two header words. -/
structure Audio where
  sampleRate : Int32
  format : Int32
  samples : List Int32
  deriving DecidableEq

/-- The words of a vector. -/
def Audio.words (audio : Audio) : List Int32 := audio.sampleRate :: audio.format :: audio.samples

/-- A vector of words, which may be too short for a header. -/
def Audio.ofWords : List Int32 → Option Audio
  | sampleRate :: format :: samples => some ⟨sampleRate, format, samples⟩
  | _ => none

@[simp] theorem Audio.ofWords_words (audio : Audio) : ofWords audio.words = some audio := rfl

/-- `(racs_uint16)(in[1] >> 16)`. -/
def Audio.channels (audio : Audio) : UInt16 := (audio.format >>> 16).toUInt32.toUInt16

/-- The bytes of a vector with so many samples. -/
def audioBytes (samples : ℕ) : ℕ := 4 * (2 + samples)

variable (P : Platform)

/-- `racs_ops_gain`. -/
def opsGain (audio : Audio) (gain : P.Double) : Option (Option Audio) :=
  if P.alloc (audioBytes audio.samples.length) then
    (audio.samples.mapM fun x => P.toInt32 (P.mul gain (P.ofInt x.toInt))).map fun samples =>
      some { audio with samples := samples }
  else some none

/-- `(size_t)(seconds * sample_rate * channels)`. -/
def sampleCount (audio : Audio) (seconds : P.Double) : Option UInt64 :=
  P.toSize (P.mul (P.mul seconds (P.ofInt audio.sampleRate.toUInt32.toNat))
    (P.ofInt audio.channels.toNat))

/-- `racs_ops_trim`; the sum of the two counts is computed in 64 bits. -/
def opsTrim (audio : Audio) (leftSeconds rightSeconds : P.Double) : Option (Option Audio) :=
  let len := UInt64.ofNat audio.samples.length
  (sampleCount P audio leftSeconds).bind fun leftTrim =>
  (sampleCount P audio rightSeconds).bind fun rightTrim =>
  if len ≤ leftTrim + rightTrim then some none
  else
    let copyLen := (len - leftTrim - rightTrim).toNat
    if P.alloc (audioBytes copyLen) then
      (loadSamples audio.samples leftTrim.toNat copyLen).map fun samples =>
        some { audio with samples := samples }
    else some none

/-- The gain of `racs_ops_fade` for the sample at an index. -/
def fadeGain (len fadeIn fadeOut i : ℕ) : P.Double :=
  let gain := if i < fadeIn then P.div (P.ofInt i) (P.ofInt fadeIn) else P.ofInt 1
  if len - fadeOut ≤ i then
    let fadeOutPos := i - (len - fadeOut)
    let fadeGain := P.sub (P.ofInt 1) (P.div (P.ofInt fadeOutPos) (P.ofInt fadeOut))
    if P.lt fadeGain gain then fadeGain else gain
  else gain

/-- `racs_ops_fade`. -/
def opsFade (audio : Audio) (fadeInSeconds fadeOutSeconds : P.Double) : Option (Option Audio) :=
  let len := audio.samples.length
  if P.alloc (audioBytes len) then
    (sampleCount P audio fadeInSeconds).bind fun fadeIn =>
    (sampleCount P audio fadeOutSeconds).bind fun fadeOut =>
    let gain := fadeGain P len (min fadeIn.toNat len) (min fadeOut.toNat len)
    (audio.samples.zipIdx.mapM fun ((x, i) : Int32 × ℕ) =>
      P.toInt32 (P.mul (P.ofInt x.toInt) (gain i))).map fun samples =>
        some { audio with samples := samples }
  else some none

/-- The gain of `racs_ops_pan` for the left channel. -/
def panLeftGain (pan : P.Double) : P.Double :=
  if P.le pan (P.ofInt 0) then P.ofInt 1 else P.sub (P.ofInt 1) pan

/-- The gain of `racs_ops_pan` for the right channel. -/
def panRightGain (pan : P.Double) : P.Double :=
  if P.le (P.ofInt 0) pan then P.ofInt 1 else P.add (P.ofInt 1) pan

/-- `racs_ops_pan`: the first two samples of every frame are scaled, and the others are zero. A
frame of which only the first sample is there is read past the end of the vector. -/
def opsPan (audio : Audio) (pan : P.Double) : Option (Option Audio) :=
  let channels := audio.channels.toNat
  if channels < 2 then some none
  else if P.alloc (audioBytes audio.samples.length) then
    if audio.samples.length % channels = 1 then none
    else
      (audio.samples.zipIdx.mapM fun ((x, i) : Int32 × ℕ) =>
        if i % channels = 0 then P.toInt32 (P.mul (P.ofInt x.toInt) (panLeftGain P pan))
        else if i % channels = 1 then P.toInt32 (P.mul (P.ofInt x.toInt) (panRightGain P pan))
        else some 0).map fun samples => some { audio with samples := samples }
  else some none

/-- `racs_ops_pad`; the size of the result is computed in 64 bits. -/
def opsPad (audio : Audio) (leftSeconds rightSeconds : P.Double) : Option (Option Audio) :=
  let len := audio.samples.length
  (sampleCount P audio leftSeconds).bind fun leftPad =>
  (sampleCount P audio rightSeconds).bind fun rightPad =>
  let outLen := (2 + leftPad + UInt64.ofNat len + rightPad).toNat
  if P.alloc (4 * outLen) then
    if 2 + leftPad.toNat + len ≤ outLen then
      some (some { audio with
        samples := List.replicate leftPad.toNat 0 ++ audio.samples ++
          List.replicate (outLen - 2 - leftPad.toNat - len) 0 })
    else none
  else some none

/-- `racs_ops_clip`. -/
def opsClip (audio : Audio) (minVal maxVal : Int32) : Option (Option Audio) :=
  if maxVal < minVal then some none
  else if P.alloc (audioBytes audio.samples.length) then
    some (some { audio with
      samples := audio.samples.map fun x =>
        if x < minVal then minVal else if maxVal < x then maxVal else x })
  else some none

/-- `racs_ops_split`. -/
def opsSplit (audio : Audio) (channel : UInt16) : Option (Option Audio) :=
  if audio.channels ≠ 2 then some none
  else
    let frames := audio.samples.length / 2
    if P.alloc (audioBytes frames) then
      ((List.range frames).mapM fun f => audio.samples[f * 2 + channel.toNat]?).map fun samples =>
        some ⟨audio.sampleRate, audio.format &&& 0x0000ffff ||| 0x00010000, samples⟩
    else some none

/-- The samples of two mono vectors in turn, with zeros where one of them has ended. -/
def mergeSamples (samplesA samplesB : List Int32) : List Int32 :=
  (List.range (max samplesA.length samplesB.length)).flatMap fun f =>
    [samplesA.getD f 0, samplesB.getD f 0]

/-- `racs_ops_merge`. -/
def opsMerge (audioA audioB : Audio) : Option (Option Audio) :=
  if audioA.channels ≠ 1 ∨ audioB.channels ≠ 1 then some none
  else if audioA.sampleRate ≠ audioB.sampleRate ∨
      audioA.format &&& 0x0000ffff ≠ audioB.format &&& 0x0000ffff then some none
  else
    let frames := max audioA.samples.length audioB.samples.length
    if P.alloc (audioBytes (frames * 2)) then
      some (some ⟨audioA.sampleRate, audioA.format &&& 0x0000ffff ||| 0x00020000,
        mergeSamples audioA.samples audioB.samples⟩)
    else some none

/-- An operation on a vector that another one has returned. Every operation returns the null pointer
when it is called with one. -/
def nonNull (op : Audio → Option (Option Audio)) : Option Audio → Option (Option Audio)
  | none => some none
  | some audio => op audio

end Racs
