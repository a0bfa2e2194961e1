import Racs.Foundation.Riff
import Racs.Pipeline

/-!
# WAV files

ENCODE for the type `audio/wav` is lossless when a reader of WAV files finds the audio in what it
replies. The sizes in the file are products of numbers of bits in 32 bits, which wrap around when
the data have 2^32 bits, in files of less than 2^32 bytes.

## Main definitions

* `Racs.readWav` — a reader of WAV files.
* `Racs.WavLossless` — the encoded file is read as the audio.

## Main results

* `Racs.wavLossless_iff` — which audio is encoded without loss.
-/

namespace Racs

open ByteBuffer Riff

/-! ### A reader -/

/-- The audio in a WAV file. -/
structure WavAudio where
  channels : ℕ
  sampleRate : ℕ
  bitDepth : ℕ
  samples : List Int32
  deriving DecidableEq

/-- The audio of a file with a format of 16 bytes for uncompressed samples and a chunk with data. -/
def readWav (bytes : List UInt8) : Option WavAudio :=
  (readFile bytes).bind fun (kind, chunks) =>
  if kind = ascii "WAVE" then
    (chunks.find? (·.name = ascii "fmt ")).bind fun format =>
    (chunks.find? (·.name = ascii "data")).bind fun data =>
    if format.body.length = 16 ∧ decode (format.body.take 2) = 1 then
      let bitDepth := decode ((format.body.drop 14).take 2)
      some
        { channels := decode ((format.body.drop 2).take 2)
          sampleRate := decode ((format.body.drop 4).take 4)
          bitDepth := bitDepth
          samples := pcmSamples (UInt8.ofNat bitDepth) data.body }
    else none
  else none

variable {P : Platform}

/-- ENCODE for the type `audio/wav` produces a file that is read as the audio. -/
def WavLossless (b : Backend P) (audio : Audio) : Prop :=
  ∃ file, b.encodePcm audio.encode audio.samples (audio.samples.length / audio.channels.toNat)
      audio.encodeSize (ascii "audio/wav") = some file ∧
    readWav file = some
      { channels := audio.encode.channels.toNat
        sampleRate := audio.encode.sampleRate.toNat
        bitDepth := audio.encode.bitDepth.toNat
        samples := audio.samples } ∧
    (audio.samples ≠ [] → encodeAudio b audio (ascii "audio/wav") = pure (packU8v [] file))

/-! ### Narrowing -/

/-- The low eight bits. -/
theorem setWidth_mask (x : BitVec 32) : (x &&& 0xff#32).setWidth 8 = x.setWidth 8 := by
  have hmask : (0xff#32).setWidth 8 = BitVec.allOnes 8 := rfl
  rw [BitVec.setWidth_and, hmask, BitVec.and_allOnes]

/-- Eight bits that are not copies of the sign. -/
theorem setWidth_sshiftRight (x : BitVec 32) {n : ℕ} (hn : n + 8 ≤ 32) :
    (x.sshiftRight n).setWidth 8 = (x >>> n).setWidth 8 := by
  ext i hi
  rw [BitVec.getElem_setWidth, BitVec.getElem_setWidth, BitVec.getLsbD_sshiftRight,
    BitVec.getLsbD_ushiftRight, if_pos (by omega)]
  simp
  omega

theorem toNat_shifted_byte (x k : Int32) {n : ℕ} (hn : n + 8 ≤ 32)
    (hk : (x >>> k).toBitVec = x.toBitVec.sshiftRight n) :
    ((x >>> k) &&& 0xff).toUInt32.toUInt8.toNat = x.toUInt32.toNat / 2 ^ n % 2 ^ 8 := by
  have hbits : ((x >>> k) &&& 0xff).toUInt32.toUInt8.toBitVec =
      ((x >>> k).toBitVec &&& 0xff#32).setWidth 8 := rfl
  rw [← UInt8.toNat_toBitVec, hbits, hk, setWidth_mask, setWidth_sshiftRight _ hn,
    BitVec.toNat_setWidth, BitVec.toNat_ushiftRight, Nat.shiftRight_eq_div_pow]
  rfl

theorem decode_convertS32S24 (x : Int32) :
    decode (convertS32S24 x) = x.toUInt32.toNat % 2 ^ 24 := by
  have hzero : (x &&& 0xff).toUInt32.toUInt8.toNat = x.toUInt32.toNat % 2 ^ 8 := by
    have hbits : (x &&& 0xff).toUInt32.toUInt8.toBitVec =
        (x.toBitVec &&& 0xff#32).setWidth 8 := rfl
    rw [← UInt8.toNat_toBitVec, hbits, setWidth_mask, BitVec.toNat_setWidth]
    rfl
  have hone := @toNat_shifted_byte x 8 8 (by decide) rfl
  have htwo := @toNat_shifted_byte x 16 16 (by decide) rfl
  rw [convertS32S24, decode, decode, decode, decode, hzero, hone, htwo]
  omega

theorem decode_convertS32S16 (x : Int32) :
    decode (convertS32S16 x) = x.toUInt32.toNat % 2 ^ 16 := by
  have hbits : x.toInt16.toUInt16.toBitVec = x.toUInt32.toBitVec.setWidth 16 := by
    change x.toBitVec.signExtend 16 = x.toBitVec.setWidth 16
    exact BitVec.signExtend_eq_setWidth_of_le _ (by decide)
  have hpow : 256 ^ 2 = 2 ^ 16 := by norm_num
  rw [convertS32S16, writeUint16, decode_encode, ← UInt16.toNat_toBitVec, hbits,
    BitVec.toNat_setWidth, UInt32.toNat_toBitVec, hpow, Nat.mod_mod]

/-- A sample that fits the bit depth is read back from its low bits. -/
theorem signExtend_mod {x : Int32} {bits : ℕ} (hbits : bits = 16 ∨ bits = 24)
    (hlow : -2 ^ (bits - 1) ≤ x.toInt) (hhigh : x.toInt < 2 ^ (bits - 1)) :
    signExtend bits (x.toUInt32.toNat % 2 ^ bits) = x.toInt := by
  have hint : x.toInt = x.toUInt32.toBitVec.toInt := rfl
  rw [BitVec.toInt_eq_toNat_cond, UInt32.toNat_toBitVec] at hint
  have hlt := x.toUInt32.toNat_lt
  rcases hbits with rfl | rfl
  · rw [signExtend]
    split_ifs at hint ⊢ <;> omega
  · rw [signExtend]
    split_ifs at hint ⊢ <;> omega

/-- The first sample in data. -/
theorem pcmSamples_append {bitDepth : UInt8} {a rest : List UInt8}
    (ha : a.length = bitDepth.toNat / 8) (hpos : 0 < bitDepth.toNat / 8) :
    pcmSamples bitDepth (a ++ rest) =
      Int32.ofInt (signExtend bitDepth.toNat (decode a)) :: pcmSamples bitDepth rest := by
  have hcount : (a ++ rest).length / (bitDepth.toNat / 8) =
      rest.length / (bitDepth.toNat / 8) + 1 := by
    rw [List.length_append, ha, Nat.add_div_left _ hpos]
  have hfirst : (a ++ rest).take (bitDepth.toNat / 8) = a := List.take_left' ha
  simp only [pcmSamples, hcount, List.range_succ_eq_map, List.map_cons, List.map_map,
    Nat.mul_zero, List.drop_zero, hfirst, List.cons.injEq, true_and]
  refine List.map_congr_left fun i _ => ?_
  rw [Function.comp_apply, Nat.mul_succ, Nat.add_comm, ← List.drop_drop, List.drop_left' ha]

/-- The bytes of a narrowed sample. -/
def convertSample (bitDepth : UInt16) : Int32 → List UInt8 :=
  if bitDepth = 16 then convertS32S16 else convertS32S24

/-- The samples are read back from their bytes, if they fit the bit depth. -/
theorem pcmSamples_flatMap {bitDepth : UInt16} (hdepth : bitDepth = 16 ∨ bitDepth = 24)
    {samples : List Int32} (hfit : ∀ x ∈ samples,
      -2 ^ (bitDepth.toNat - 1) ≤ x.toInt ∧ x.toInt < 2 ^ (bitDepth.toNat - 1)) :
    pcmSamples (UInt8.ofNat bitDepth.toNat) (samples.flatMap (convertSample bitDepth)) =
      samples := by
  have hwidth : (UInt8.ofNat bitDepth.toNat).toNat = bitDepth.toNat := by
    rcases hdepth with rfl | rfl <;> rfl
  have hpos : 0 < (UInt8.ofNat bitDepth.toNat).toNat / 8 := by
    rcases hdepth with rfl | rfl <;> decide
  have hlength : ∀ x, (convertSample bitDepth x).length =
      (UInt8.ofNat bitDepth.toNat).toNat / 8 := by
    intro x
    rcases hdepth with rfl | rfl
    · exact length_writeUint16 _
    · have hthree : (UInt8.ofNat (24 : UInt16).toNat).toNat / 8 = 3 := by decide
      rw [convertSample, if_neg (by decide), hthree]
      rfl
  have hdecode : ∀ x : Int32, decode (convertSample bitDepth x) =
      x.toUInt32.toNat % 2 ^ bitDepth.toNat := by
    intro x
    rcases hdepth with rfl | rfl
    · exact decode_convertS32S16 x
    · exact decode_convertS32S24 x
  have hbits : bitDepth.toNat = 16 ∨ bitDepth.toNat = 24 :=
    hdepth.imp (fun h => by rw [h]; rfl) fun h => by rw [h]; rfl
  induction samples with
  | nil => rw [List.flatMap_nil, pcmSamples, List.length_nil, Nat.zero_div]; rfl
  | cons x samples ih =>
    obtain ⟨⟨hlow, hhigh⟩, hrest⟩ := List.forall_mem_cons.mp hfit
    rw [List.flatMap_cons, pcmSamples_append (hlength x) hpos, ih hrest, hwidth, hdecode,
      signExtend_mod hbits hlow hhigh, Int32.ofInt_toInt]

/-! ### The file -/

/-- The bytes of the format. -/
def wavFormatBody (wav : Encode) : List UInt8 :=
  let blockAlign := (wav.channels.toUInt32 * wav.bitDepth.toUInt32 / 8).toUInt16
  writeUint16 1 ++ writeUint16 wav.channels ++ writeUint32 wav.sampleRate ++
    writeUint32 (wav.sampleRate * blockAlign.toUInt32) ++ writeUint16 blockAlign ++
    writeUint16 wav.bitDepth

theorem length_wavFormatBody (wav : Encode) : (wavFormatBody wav).length = 16 := by
  simp [wavFormatBody]

/-- The chunks of a file. -/
def wavChunks (wav : Encode) (data : List UInt8) : List Chunk :=
  [⟨ascii "fmt ", wavFormatBody wav⟩, ⟨ascii "data", data⟩]

theorem length_wavChunks (wav : Encode) (data : List UInt8) :
    ((wavChunks wav data).flatMap Chunk.bytes).length = data.length + 32 := by
  have hfmt : (ascii "fmt ").length = 4 := by decide
  have hdata : (ascii "data").length = 4 := by decide
  simp only [wavChunks, List.flatMap_cons, List.flatMap_nil, Chunk.bytes, List.length_append,
    length_encode, length_wavFormatBody, hfmt, hdata, List.length_nil]
  omega

/-- What `racs_wav_write` writes is a RIFF file. -/
theorem wavWrite_eq {wav : Encode} {data : List UInt8} {samples size : ℕ}
    (hsize : (wavSize wav (UInt32.ofNat samples)).toNat = size) (hle : size ≤ data.length)
    (hsmall : size < 2 ^ 32 - 36) :
    wavWrite wav data samples =
      some (fileBytes (ascii "WAVE") (wavChunks wav (data.take size))) := by
  have hslice : slice data 0 size = some (data.take size) := by
    rw [slice_eq_some, Nat.zero_add, List.drop_zero]
    exact ⟨hle, rfl⟩
  have htake : (data.take size).length = size := List.length_take_of_le hle
  have hheader : (wavSize wav (UInt32.ofNat samples) + 36).toNat =
      4 + ((wavChunks wav (data.take size)).flatMap Chunk.bytes).length := by
    have hthirty : (36 : UInt32).toNat = 36 := rfl
    rw [length_wavChunks, htake, UInt32.toNat_add, hsize, hthirty]
    omega
  have hfmt : writeUint32 16 = encode 4 (wavFormatBody wav).length := by
    rw [length_wavFormatBody]
    rfl
  have hdata : writeUint32 (wavSize wav (UInt32.ofNat samples)) =
      encode 4 (data.take size).length := by
    rw [htake, ← hsize]
    rfl
  have hriff : ascii "RIFF" = riff := by decide
  rw [wavWrite, wavEncodeData, hsize, hslice, Option.map_some, Option.map_some, wavEncodeHeader,
    writeUint32, hheader, hdata, fileBytes, hriff]
  simp only [wavEncodeFormat, wavChunks, List.flatMap_cons, List.flatMap_nil, Chunk.bytes, hfmt,
    List.append_assoc, List.append_nil]
  rfl

/-- The fields of the format are where the reader looks for them. -/
theorem decode_wavFormatBody (wav : Encode) :
    decode ((wavFormatBody wav).take 2) = 1 ∧
      decode (((wavFormatBody wav).drop 2).take 2) = wav.channels.toNat ∧
      decode (((wavFormatBody wav).drop 4).take 4) = wav.sampleRate.toNat ∧
      decode (((wavFormatBody wav).drop 14).take 2) = wav.bitDepth.toNat := by
  have htwo : ∀ d : UInt16, decode (writeUint16 d) = d.toNat := fun d =>
    decode_encode_of_lt (d.toNat_lt.trans_le (by norm_num))
  have hfour : ∀ d : UInt32, decode (writeUint32 d) = d.toNat := fun d =>
    decode_encode_of_lt (d.toNat_lt.trans_le (by norm_num))
  obtain ⟨byteRate, blockAlign, hbody⟩ : ∃ byteRate blockAlign, wavFormatBody wav =
      writeUint16 1 ++ (writeUint16 wav.channels ++ (writeUint32 wav.sampleRate ++
        (writeUint32 byteRate ++ (writeUint16 blockAlign ++ writeUint16 wav.bitDepth)))) :=
    ⟨wav.sampleRate * (wav.channels.toUInt32 * wav.bitDepth.toUInt32 / 8).toUInt16.toUInt32,
      (wav.channels.toUInt32 * wav.bitDepth.toUInt32 / 8).toUInt16,
      by simp only [wavFormatBody, List.append_assoc]⟩
  have hdrop₂ := congrArg (List.drop 2) hbody
  rw [List.drop_left' (length_writeUint16 _)] at hdrop₂
  have hdrop₄ := congrArg (List.drop 2) hdrop₂
  rw [List.drop_left' (length_writeUint16 _), List.drop_drop] at hdrop₄
  have hdrop₈ := congrArg (List.drop 4) hdrop₄
  rw [List.drop_left' (length_writeUint32 _), List.drop_drop] at hdrop₈
  have hdrop₁₂ := congrArg (List.drop 4) hdrop₈
  rw [List.drop_left' (length_writeUint32 _), List.drop_drop] at hdrop₁₂
  have hdrop₁₄ := congrArg (List.drop 2) hdrop₁₂
  rw [List.drop_left' (length_writeUint16 _), List.drop_drop] at hdrop₁₄
  refine ⟨?_, ?_, ?_, ?_⟩
  · rw [hbody, List.take_left' (length_writeUint16 _), htwo]
    rfl
  · rw [hdrop₂, List.take_left' (length_writeUint16 _), htwo]
  · rw [hdrop₄, List.take_left' (length_writeUint32 _), hfour]
  · rw [hdrop₁₄, List.take_of_length_le (length_writeUint16 _).le, htwo]

/-- The file is read as the format and the samples in its data. -/
theorem readWav_fileBytes (wav : Encode) {data : List UInt8} (hsmall : data.length < 2 ^ 32 - 36) :
    readWav (fileBytes (ascii "WAVE") (wavChunks wav data)) = some
      { channels := wav.channels.toNat
        sampleRate := wav.sampleRate.toNat
        bitDepth := wav.bitDepth.toNat
        samples := pcmSamples (UInt8.ofNat wav.bitDepth.toNat) data } := by
  have hfmtname : (ascii "fmt ").length = 4 := by decide
  have hdataname : (ascii "data").length = 4 := by decide
  have hfile : readFile (fileBytes (ascii "WAVE") (wavChunks wav data)) =
      some (ascii "WAVE", wavChunks wav data) := by
    refine readFile_fileBytes (by decide) ?_ ?_ ?_
    · intro chunk hchunk
      rcases List.mem_pair.mp hchunk with rfl | rfl
      · exact ⟨hfmtname, (length_wavFormatBody wav).trans_lt (by omega)⟩
      · exact ⟨hdataname, hsmall.trans_le (by omega)⟩
    · exact ⟨.inl (by rw [length_wavFormatBody]), .inr rfl, trivial⟩
    · rw [length_wavChunks]
      omega
  have hfmt : (wavChunks wav data).find? (·.name = ascii "fmt ") =
      some ⟨ascii "fmt ", wavFormatBody wav⟩ := by
    simp [wavChunks]
  have hdata : (wavChunks wav data).find? (·.name = ascii "data") =
      some ⟨ascii "data", data⟩ := by
    have hne : ascii "fmt " ≠ ascii "data" := by decide
    simp [wavChunks, hne]
  obtain ⟨hone, hchannels, hrate, hdepth⟩ := decode_wavFormatBody wav
  simp only [readWav, hfile, Option.bind_some, if_true, hfmt, hdata, hone, length_wavFormatBody,
    and_self, hchannels, hrate, hdepth]

/-! ### The audio of a file -/

variable {b : Backend P} {audio : Audio}

/-- The size in the file, when the number of frames fits into 32 bits. -/
theorem toNat_wavSize {wav : Encode} {samples : ℕ} (h : samples < 2 ^ 32) :
    (wavSize wav (UInt32.ofNat samples)).toNat =
      samples * wav.channels.toNat * wav.bitDepth.toNat % 2 ^ 32 / 8 := by
  have height : (8 : UInt32).toNat = 8 := rfl
  rw [wavSize, UInt32.toNat_div, UInt32.toNat_mul, UInt32.toNat_mul, UInt32.toNat_ofNat',
    Nat.mod_eq_of_lt h, UInt16.toNat_toUInt32, UInt16.toNat_toUInt32, height, Nat.mod_mul_mod]

theorem length_flatMap_convertSample {bitDepth : UInt16} (hdepth : bitDepth = 16 ∨ bitDepth = 24)
    (samples : List Int32) :
    (samples.flatMap (convertSample bitDepth)).length =
      samples.length * bitDepth.toNat / 8 := by
  induction samples with
  | nil => rw [List.flatMap_nil, List.length_nil, List.length_nil, Nat.zero_mul]
  | cons x samples ih =>
    rw [List.flatMap_cons, List.length_append, ih, List.length_cons]
    rcases hdepth with rfl | rfl
    · have hx : (convertSample 16 x).length = 2 := length_writeUint16 _
      have hsixteen : (16 : UInt16).toNat = 16 := rfl
      rw [hx, hsixteen]
      omega
    · have hx : (convertSample 24 x).length = 3 := by
        rw [convertSample, if_neg (by decide)]
        rfl
      have htwenty : (24 : UInt16).toNat = 24 := rfl
      rw [hx, htwenty]
      omega

/-- **The file of a vector** of whole frames: as many bytes of the data as 32 bits of their number
of bits count. -/
theorem encodePcm_eq (hdepth : audio.encode.bitDepth = 16 ∨ audio.encode.bitDepth = 24)
    (hwhole : audio.channels.toNat ∣ audio.samples.length) (hlen : audio.samples.length < 2 ^ 31) :
    b.encodePcm audio.encode audio.samples (audio.samples.length / audio.channels.toNat)
        audio.encodeSize (ascii "audio/wav") =
      some (fileBytes (ascii "WAVE") (wavChunks audio.encode
        ((audio.samples.flatMap (convertSample audio.encode.bitDepth)).take
          (audio.samples.length * audio.encode.bitDepth.toNat % 2 ^ 32 / 8)))) := by
  have hframes : audio.samples.length / audio.channels.toNat * audio.encode.channels.toNat =
      audio.samples.length := Nat.div_mul_cancel hwhole
  have hnarrow : narrow (convertSample audio.encode.bitDepth) audio.samples audio.samples.length =
      some (audio.samples.flatMap (convertSample audio.encode.bitDepth)) := by
    rw [narrow, if_pos ⟨hlen, le_rfl⟩, List.take_length]
  have hwrite : wavWrite audio.encode
      (audio.samples.flatMap (convertSample audio.encode.bitDepth))
      (audio.samples.length / audio.channels.toNat) =
        some (fileBytes (ascii "WAVE") (wavChunks audio.encode
          ((audio.samples.flatMap (convertSample audio.encode.bitDepth)).take
            (audio.samples.length * audio.encode.bitDepth.toNat % 2 ^ 32 / 8)))) := by
    have hle := Nat.div_le_self audio.samples.length audio.channels.toNat
    have hmod := Nat.mod_le (audio.samples.length * audio.encode.bitDepth.toNat) (2 ^ 32)
    have hlt := Nat.mod_lt (audio.samples.length * audio.encode.bitDepth.toNat)
      (show 0 < 2 ^ 32 by decide)
    refine wavWrite_eq ?_ ?_ (by omega)
    · rw [toNat_wavSize (by omega), hframes]
    · rw [length_flatMap_convertSample hdepth]
      omega
  rw [Backend.encodePcm, encodePcm, if_pos rfl, encodeWav, hframes]
  rcases hdepth with hdepth | hdepth
  · rw [hdepth] at hnarrow
    rw [if_pos hdepth]
    refine Eq.trans ?_ hwrite
    rw [s32S16, hdepth]
    exact congrArg (Option.bind · _) hnarrow
  · rw [hdepth] at hnarrow
    rw [if_neg (by rw [hdepth]; decide), if_pos hdepth]
    refine Eq.trans ?_ hwrite
    rw [s32S24, hdepth]
    exact congrArg (Option.bind · _) hnarrow

/-- What the reader finds in the file. -/
theorem readWav_encodePcm {file : List UInt8}
    (hdepth : audio.encode.bitDepth = 16 ∨ audio.encode.bitDepth = 24)
    (hwhole : audio.channels.toNat ∣ audio.samples.length) (hlen : audio.samples.length < 2 ^ 31)
    (hfile : b.encodePcm audio.encode audio.samples
      (audio.samples.length / audio.channels.toNat) audio.encodeSize (ascii "audio/wav") =
        some file) :
    file ≠ [] ∧ readWav file = some
      { channels := audio.encode.channels.toNat
        sampleRate := audio.encode.sampleRate.toNat
        bitDepth := audio.encode.bitDepth.toNat
        samples := pcmSamples (UInt8.ofNat audio.encode.bitDepth.toNat)
          ((audio.samples.flatMap (convertSample audio.encode.bitDepth)).take
            (audio.samples.length * audio.encode.bitDepth.toNat % 2 ^ 32 / 8)) } := by
  rw [encodePcm_eq hdepth hwhole hlen, Option.some.injEq] at hfile
  subst hfile
  refine ⟨by simp [fileBytes, riff], readWav_fileBytes _ ?_⟩
  have hlt := Nat.mod_lt (audio.samples.length * audio.encode.bitDepth.toNat)
    (show 0 < 2 ^ 32 by decide)
  have hle := List.length_take_le
    (audio.samples.length * audio.encode.bitDepth.toNat % 2 ^ 32 / 8)
    (audio.samples.flatMap (convertSample audio.encode.bitDepth))
  omega

/-- Data of 2^32 bits or more lose samples. -/
theorem not_wavLossless
    (hdepth : audio.encode.bitDepth = 16 ∨ audio.encode.bitDepth = 24)
    (hwhole : audio.channels.toNat ∣ audio.samples.length) (hlen : audio.samples.length < 2 ^ 31)
    (hbits : 2 ^ 32 ≤ audio.samples.length * audio.encode.bitDepth.toNat) :
    ¬ WavLossless b audio := by
  rintro ⟨file, hfile, hread, -⟩
  obtain ⟨-, hread'⟩ := readWav_encodePcm hdepth hwhole hlen hfile
  have hsamples := congrArg (List.length ∘ WavAudio.samples)
    (Option.some.inj (hread.symm.trans hread'))
  have hlt := Nat.mod_lt (audio.samples.length * audio.encode.bitDepth.toNat)
    (show 0 < 2 ^ 32 by decide)
  have hle := List.length_take_le
    (audio.samples.length * audio.encode.bitDepth.toNat % 2 ^ 32 / 8)
    (audio.samples.flatMap (convertSample audio.encode.bitDepth))
  simp only [Function.comp_apply, pcmSamples, List.length_map, List.length_range] at hsamples
  rcases hdepth with hdepth | hdepth
  · have hwidth : (UInt8.ofNat audio.encode.bitDepth.toNat).toNat / 8 = 2 := by rw [hdepth]; rfl
    have hsixteen : audio.encode.bitDepth.toNat = 16 := by rw [hdepth]; rfl
    rw [hwidth] at hsamples
    rw [hsixteen] at hle hlt hbits hsamples
    omega
  · have hwidth : (UInt8.ofNat audio.encode.bitDepth.toNat).toNat / 8 = 3 := by rw [hdepth]; rfl
    have htwenty : audio.encode.bitDepth.toNat = 24 := by rw [hdepth]; rfl
    rw [hwidth] at hsamples
    rw [htwenty] at hle hlt hbits hsamples
    omega

/-- **Which audio is encoded without loss**: of all whole frames of samples that fit the bit depth
and a file of less than 2^32 bytes, those with less than 2^32 bits. -/
theorem wavLossless_iff (b : Backend P) (audio : Audio)
    (hchannels : audio.channels = 1 ∨ audio.channels = 2)
    (hdepth : audio.encode.bitDepth = 16 ∨ audio.encode.bitDepth = 24)
    (hwhole : audio.channels.toNat ∣ audio.samples.length)
    (hfit : ∀ x ∈ audio.samples, -2 ^ (audio.encode.bitDepth.toNat - 1) ≤ x.toInt ∧
      x.toInt < 2 ^ (audio.encode.bitDepth.toNat - 1))
    (hsize : 44 + audio.samples.length * (audio.encode.bitDepth.toNat / 8) < 2 ^ 32) :
    WavLossless b audio ↔
      audio.samples.length * audio.encode.bitDepth.toNat < 2 ^ 32 := by
  have hlen : audio.samples.length < 2 ^ 31 := by
    rcases hdepth with hdepth | hdepth
    · have hwidth : audio.encode.bitDepth.toNat / 8 = 2 := by rw [hdepth]; rfl
      rw [hwidth] at hsize
      omega
    · have hwidth : audio.encode.bitDepth.toNat / 8 = 3 := by rw [hdepth]; rfl
      rw [hwidth] at hsize
      omega
  constructor
  · intro h
    by_contra hbits
    exact not_wavLossless hdepth hwhole hlen (not_lt.mp hbits) h
  · intro hbits
    have hfile := @encodePcm_eq P b audio hdepth hwhole hlen
    obtain ⟨hne, hread⟩ := readWav_encodePcm hdepth hwhole hlen hfile
    rw [Nat.mod_eq_of_lt hbits, ← length_flatMap_convertSample hdepth,
      List.take_length] at hfile hread hne
    rw [pcmSamples_flatMap hdepth hfit] at hread
    refine ⟨_, hfile, hread, fun hsamples => ?_⟩
    have hzero : audio.channels ≠ 0 := by
      rcases hchannels with h | h <;> rw [h] <;> decide
    rw [encodeAudio, if_neg hsamples, if_neg hzero, hfile]
    rcases hbytes : fileBytes (ascii "WAVE") (wavChunks audio.encode
      (audio.samples.flatMap (convertSample audio.encode.bitDepth))) with - | ⟨x, rest⟩
    · exact absurd hbytes hne
    · rfl

/-- One frame of two channels. -/
theorem wavLossless_stereo : WavLossless .idle ⟨48000, 0x00020010, [1, -1]⟩ := by
  refine (wavLossless_iff .idle ⟨48000, 0x00020010, [1, -1]⟩ (.inr (by decide))
    (.inl (by decide)) (by decide) ?_ (by decide)).mpr (by decide)
  exact List.forall_mem_cons.mpr ⟨by decide, List.forall_mem_singleton.mpr (by decide)⟩

/-- Silence of 2^28 samples, in data of 2^29 bytes: the size in the file is zero. -/
theorem not_wavLossless_long :
    ¬ WavLossless .idle ⟨48000, 0x00010010, List.replicate (2 ^ 28) 0⟩ := by
  have hchannels : ∀ samples, (⟨48000, 0x00010010, samples⟩ : Audio).channels = 1 :=
    fun _ => (by decide : ((0x00010010 : Int32) >>> 16).toUInt32.toUInt16 = 1)
  have hdepth : ∀ samples, (⟨48000, 0x00010010, samples⟩ : Audio).encode.bitDepth = 16 :=
    fun _ => (by decide : (0x00010010 : Int32).toUInt32.toUInt16 = 16)
  refine not_wavLossless (.inl (hdepth _)) ?_ ?_ ?_
  · rw [hchannels]
    exact one_dvd _
  · rw [List.length_replicate]
    omega
  · rw [List.length_replicate, hdepth]
    decide

end Racs
