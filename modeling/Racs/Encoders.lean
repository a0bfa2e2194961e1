import Racs.Pack
import Mathlib.Algebra.Order.Floor.Ring
import Mathlib.Data.Rat.Floor

/-!
# Encoders

`racs_encode_pcm` (`encode.c`) narrows the samples of a vector to two or three bytes and hands them
to one of three encoders. `racs_wav_write` (`wav.c`) writes a header, a chunk with the format and a
chunk with the data; the sizes in the file and the number of bytes that are copied are products of
numbers of bits in 32 bits, so they wrap around when the data have 2^32 bits. `racs_mp3_write`
(`mp3.c`) is one call of LAME. `racs_ogg_write` (`ogg.c`) hands the samples to an encoder in frames
of 20 ms, and reads whole frames, also where the samples end in the middle of one;
`racs_encode_pcm` takes the number of bytes that the encoder has stored so far, and then drains the
encoder, which stores the rest.

LAME and the encoder of libopusenc are parameters.

## Main definitions

* `Racs.wavWrite`, `Racs.encodeWav` — WAV files.
* `Racs.Lame`, `Racs.mp3Write`, `Racs.encodeMp3` — MP3 files.
* `Racs.OpusEncoder`, `Racs.oggWrite`, `Racs.encodeOgg` — Ogg files.
* `Racs.Codecs`, `Racs.encodePcm` — all of them.
-/

namespace Racs

open ByteBuffer

/-- `racs_encode`. -/
structure Encode where
  channels : UInt16
  sampleRate : UInt32
  bitDepth : UInt16

/-! ### Narrowing -/

/-- The loop of `racs_s32_s16` and `racs_s32_s24`, with the bytes of each narrowed sample. The index
is an `int`, and the loop is undefined when it overflows or when it reads past the vector. -/
def narrow (convert : Int32 → List UInt8) (input : List Int32) (n : ℕ) : Option (List UInt8) :=
  if n < 2 ^ 31 ∧ n ≤ input.length then some ((input.take n).flatMap convert) else none

/-- The bytes of `(racs_int16) x`. -/
def convertS32S16 (x : Int32) : List UInt8 := writeUint16 x.toInt16.toUInt16

/-- The bytes of a `racs_int24`. -/
def convertS32S24 (s : Int32) : List UInt8 :=
  [(s &&& 0xff).toUInt32.toUInt8, ((s >>> 8) &&& 0xff).toUInt32.toUInt8,
    ((s >>> 16) &&& 0xff).toUInt32.toUInt8]

/-- `racs_s32_s16`. -/
def s32S16 : List Int32 → ℕ → Option (List UInt8) := narrow convertS32S16

/-- `racs_s32_s24`. -/
def s32S24 : List Int32 → ℕ → Option (List UInt8) := narrow convertS32S24

/-- The bytes of `(racs_int16) (x >> 8)`. -/
def convertS32S16D8 (x : Int32) : List UInt8 := writeUint16 (x >>> 8).toInt16.toUInt16

/-- `racs_s32_s16_d8`. -/
def s32S16D8 : List Int32 → ℕ → Option (List UInt8) := narrow convertS32S16D8

/-! ### WAV -/

/-- `samples * channels * bit_depth / 8`, in 32 bits. -/
def wavSize (wav : Encode) (samples : UInt32) : UInt32 :=
  samples * wav.channels.toUInt32 * wav.bitDepth.toUInt32 / 8

/-- `racs_wav_encode_header`. -/
def wavEncodeHeader (wav : Encode) (samples : UInt32) : List UInt8 :=
  ascii "RIFF" ++ writeUint32 (wavSize wav samples + 36) ++ ascii "WAVE"

/-- `racs_wav_encode_format`. -/
def wavEncodeFormat (wav : Encode) : List UInt8 :=
  let blockAlign := (wav.channels.toUInt32 * wav.bitDepth.toUInt32 / 8).toUInt16
  let byteRate := wav.sampleRate * blockAlign.toUInt32
  ascii "fmt " ++ writeUint32 16 ++ writeUint16 1 ++ writeUint16 wav.channels ++
    writeUint32 wav.sampleRate ++ writeUint32 byteRate ++ writeUint16 blockAlign ++
    writeUint16 wav.bitDepth

/-- `racs_wav_encode_data`; undefined when it reads past the data. -/
def wavEncodeData (wav : Encode) (data : List UInt8) (samples : UInt32) : Option (List UInt8) :=
  (slice data 0 (wavSize wav samples).toNat).map fun bytes =>
    ascii "data" ++ writeUint32 (wavSize wav samples) ++ bytes

/-- `racs_wav_write`; the number of frames is cut to 32 bits. -/
def wavWrite (wav : Encode) (data : List UInt8) (samples : ℕ) : Option (List UInt8) :=
  (wavEncodeData wav data (UInt32.ofNat samples)).map fun chunk =>
    wavEncodeHeader wav (UInt32.ofNat samples) ++ wavEncodeFormat wav ++ chunk

/-- `racs_encode_pcm` for the type `audio/wav`: no bytes for other bit depths. -/
def encodeWav (encode : Encode) (input : List Int32) (samples : ℕ) : Option (List UInt8) :=
  if encode.bitDepth = 16 then
    (s32S16 input (samples * encode.channels.toNat)).bind fun data => wavWrite encode data samples
  else if encode.bitDepth = 24 then
    (s32S24 input (samples * encode.channels.toNat)).bind fun data => wavWrite encode data samples
  else some []

/-! ### MP3 -/

/-- LAME. `encodeBuffer` is `lame_encode_buffer` for one channel and
`lame_encode_buffer_interleaved` for two, behind the initialisation with a rate: the bytes of the
samples, for a buffer of so many bytes, none when it returns an error code. -/
structure Lame where
  encodeBuffer : UInt32 → UInt16 → List UInt8 → Int32 → Option (List UInt8)

/-- `racs_mp3_write`. An error code is taken for a number of bytes, and what packs the reply leaves
the buffer; so does an encoder that stores more bytes than there is room for. -/
def mp3Write (lame : Lame) (mp3 : Encode) (pcm : List UInt8) (size : ℕ) : Option (List UInt8) :=
  if mp3.channels = 1 ∨ mp3.channels = 2 then
    (lame.encodeBuffer mp3.sampleRate mp3.channels pcm (Int32.ofNat size)).filter
      fun bytes => bytes.length ≤ size
  else some []

/-- `racs_encode_pcm` for the types `audio/mpeg` and `audio/mp3`: no bytes for other bit depths. -/
def encodeMp3 (lame : Lame) (encode : Encode) (input : List Int32) (samples size : ℕ) :
    Option (List UInt8) :=
  if encode.bitDepth = 16 then
    (s32S16 input (samples * encode.channels.toNat)).bind fun pcm => mp3Write lame encode pcm size
  else if encode.bitDepth = 24 then
    (s32S16D8 input (samples * encode.channels.toNat)).bind fun pcm => mp3Write lame encode pcm size
  else some []

/-! ### Ogg -/

/-- The rounding of an exact result to a `double`: it is monotone, and leaves multiples of `1 / 64`
as they are, as long as they have 53 bits. -/
structure DoubleRounding where
  round : ℚ → ℚ
  monotone : Monotone round
  exact : ∀ m : ℕ, m < 2 ^ 53 → round (m / 64) = m / 64

/-- `RACS_OGG_FRAMESIZE_20MS`, the `double` next to 0.02. -/
def oggFramesize20ms : ℚ := 5764607523034235 / 2 ^ 58

/-- `(int) (RACS_OGG_FRAMESIZE_20MS * sample_rate)`. -/
def samplesPerChannel (R : DoubleRounding) (sampleRate : UInt32) : ℕ :=
  ⌊R.round (oggFramesize20ms * sampleRate.toNat)⌋.toNat

/-- An encoder. It stores bytes when it is given a frame, which may fail, and when it is drained.
Streams without a mapping of channels are mono or stereo. -/
structure OpusEncoder where
  State : Type
  create : UInt32 → UInt16 → Option State
  write : State → List UInt8 → Option (State × List UInt8)
  drain : State → List UInt8
  channels_of_create : ∀ rate channels, (create rate channels).isSome → channels = 1 ∨ channels = 2

/-- `racs_ogg`, with the frames that were handed to the encoder and the bytes that were stored. -/
structure Ogg (E : OpusEncoder) where
  enc : E.State
  rPos : ℕ
  wPos : ℕ
  handed : List (List UInt8)
  stored : List UInt8

variable {E : OpusEncoder}

/-- `racs_ogg_write_callback`. -/
def oggWriteCallback (ogg : Ogg E) (bytes : List UInt8) : Ogg E :=
  { ogg with stored := ogg.stored ++ bytes, wPos := ogg.wPos + bytes.length }

/-- `racs_ogg_init`; without an encoder, what follows is undefined. -/
def oggInit (E : OpusEncoder) (sampleRate : UInt32) (channels : UInt16) : Option (Ogg E) :=
  (E.create sampleRate channels).map fun enc => ⟨enc, 0, 0, [], []⟩

/-- `racs_ogg_destroy`. -/
def oggDestroy (ogg : Ogg E) : Ogg E := oggWriteCallback ogg (E.drain ogg.enc)

/-- Where the loop of `racs_ogg_write` is: it goes on, has come to its end, or has destroyed the
encoder. -/
inductive OggLoop (E : OpusEncoder)
  | running (ogg : Ogg E)
  | ended (ogg : Ogg E)
  | destroyed (ogg : Ogg E)

/-- One pass of the loop; undefined when it reads past the samples. -/
def oggPass (pcm : List UInt8) (size frameSize : ℕ) (ogg : Ogg E) : Option (OggLoop E) :=
  if ogg.rPos < size then
    (slice pcm ogg.rPos frameSize).map fun frame =>
    match E.write ogg.enc frame with
    | none => .destroyed (oggDestroy { ogg with handed := ogg.handed ++ [frame] })
    | some (enc, bytes) =>
      let ogg := oggWriteCallback { ogg with enc := enc, handed := ogg.handed ++ [frame] } bytes
      .running { ogg with rPos := ogg.rPos + frameSize }
  else some (.ended ogg)

/-- The loop, for so many passes. -/
def oggLoop (pcm : List UInt8) (size frameSize : ℕ) : ℕ → Ogg E → Option (OggLoop E)
  | 0, ogg => some (.running ogg)
  | n + 1, ogg => (oggPass pcm size frameSize ogg).bind fun
    | .running ogg => oggLoop pcm size frameSize n ogg
    | l => some l

/-- `racs_ogg_write`, after so many passes of its loop, with memory for a frame. -/
def oggWrite (E : OpusEncoder) (R : DoubleRounding) (encode : Encode) (pcm : List UInt8)
    (samples passes : ℕ) : Option (OggLoop E) :=
  (oggInit E encode.sampleRate encode.channels).bind fun ogg =>
  let frameSize := samplesPerChannel R encode.sampleRate * encode.channels.toNat * 2
  oggLoop pcm (samples * encode.channels.toNat * 2) frameSize passes ogg

/-- The size that `racs_encode_pcm` returns, with what was handed to the encoder and stored. -/
structure OggResult where
  size : ℕ
  handed : List (List UInt8)
  stored : List UInt8

/-- `racs_encode_pcm` for the type `audio/ogg`, none while its loop is running. It is undefined when
an encoder is destroyed that was destroyed before or, for other bit depths, not created. -/
def encodeOgg (E : OpusEncoder) (R : DoubleRounding) (encode : Encode) (input : List Int32)
    (samples passes : ℕ) : Option (Option OggResult) :=
  let pcm :=
    if encode.bitDepth = 16 then s32S16 input (samples * encode.channels.toNat)
    else if encode.bitDepth = 24 then s32S16D8 input (encode.channels.toNat * samples)
    else none
  pcm.bind fun pcm => (oggWrite E R encode pcm samples passes).bind fun
    | .running _ => some none
    | .destroyed _ => none
    | .ended ogg =>
      let ogg' := oggDestroy ogg
      some (some ⟨ogg.wPos, ogg'.handed, ogg'.stored⟩)

/-- `racs_encode_pcm` for the type `audio/ogg`, with a number of passes in which the loop comes to
its end, if it does. It is undefined when the encoder stores more bytes than there is room for. -/
def encodeOggBytes (E : OpusEncoder) (R : DoubleRounding) (encode : Encode) (input : List Int32)
    (samples size : ℕ) : Option (List UInt8) :=
  match encodeOgg E R encode input samples (samples * encode.channels.toNat * 2 + 1) with
  | some (some result) =>
    if result.stored.length ≤ size then some (result.stored.take result.size) else none
  | _ => none

/-! ### All encoders -/

/-- The encoders that are not part of the repository, and the rounding of the length of a frame. -/
structure Codecs where
  lame : Lame
  opus : OpusEncoder
  rounding : DoubleRounding

/-- An encoder that takes everything and stores nothing. -/
def silentEncoder : OpusEncoder where
  State := Unit
  create _ channels := if channels = 1 ∨ channels = 2 then some () else none
  write _ _ := some ((), [])
  drain _ := []
  channels_of_create rate channels h := by
    by_contra hne
    rw [if_neg hne] at h
    cases h

/-- Encoders that store nothing, for frames whose length is not rounded. -/
def Codecs.silent : Codecs where
  lame := ⟨fun _ _ _ _ => some []⟩
  opus := silentEncoder
  rounding := ⟨id, monotone_id, fun _ _ => rfl⟩

/-- `racs_encode_pcm`, with the bytes that it has stored: no bytes for other types. -/
def encodePcm (codecs : Codecs) (encode : Encode) (input : List Int32) (samples size : ℕ)
    (mimeType : List UInt8) : Option (List UInt8) :=
  if mimeType = ascii "audio/wav" then encodeWav encode input samples
  else if mimeType = ascii "audio/mpeg" ∨ mimeType = ascii "audio/mp3" then
    encodeMp3 codecs.lame encode input samples size
  else if mimeType = ascii "audio/ogg" then
    encodeOggBytes codecs.opus codecs.rounding encode input samples size
  else some []

end Racs
