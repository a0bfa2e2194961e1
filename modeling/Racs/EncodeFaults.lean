import Racs.Bindings
import Racs.OggEncoding

/-!
# Vectors that are encoded

A vector has two header words in front of its samples, and the second names the number of channels.
The command ENCODE and the procedure `encode` subtract the header from the length and divide the
samples among the channels, and `racs_scm_pack_s32vector` leaves out the header in the last reply.
The procedure compares its difference as a signed number; the other two do not look for vectors
without header. Nobody looks for a header without channels, or for one that an encoder does not
take.

## Main definitions

* `Racs.Encodable` — the encoder of a type takes the samples.
* `Racs.EncoderInput` — whole frames of the samples of a vector.
* `Racs.CommandEncodes`, `Racs.ScmEncodes`, `Racs.PacksInside` — the three places are without fault.

## Main results

* `Racs.isSome_encodePcm_iff` — when `racs_encode_pcm` is without fault.
* `Racs.encodes_iff` — for which vectors the three places are.
-/

namespace Racs

open ByteBuffer MessagePack

/-! ### What the encoders take -/

/-- The samples of so many frames, in 16 bits. -/
def Encode.pcm (encode : Encode) (input : List Int32) (samples : ℕ) : List UInt8 :=
  (input.take (samples * encode.channels.toNat)).flatMap
    (if encode.bitDepth = 16 then convertS32S16 else convertS32S16D8)

/-- The encoder of the type takes the samples. There are less than 2^31 where they are narrowed.
LAME returns no error for one or two channels, and the encoder for Ogg files takes all frames; both
store no more bytes than there is room for. -/
def Encodable (codecs : Codecs) (encode : Encode) (input : List Int32) (samples size : ℕ)
    (mimeType : List UInt8) : Prop :=
  if mimeType = ascii "audio/wav" then
    encode.bitDepth = 16 ∨ encode.bitDepth = 24 → samples * encode.channels.toNat < 2 ^ 31
  else if mimeType = ascii "audio/mpeg" ∨ mimeType = ascii "audio/mp3" then
    encode.bitDepth = 16 ∨ encode.bitDepth = 24 → samples * encode.channels.toNat < 2 ^ 31 ∧
      (encode.channels = 1 ∨ encode.channels = 2 →
        ∃ bytes, codecs.lame.encodeBuffer encode.sampleRate encode.channels
          (encode.pcm input samples) (Int32.ofNat size) = some bytes ∧ bytes.length ≤ size)
  else if mimeType = ascii "audio/ogg" then
    ∃ x : OggInput codecs.opus, x.encode = encode ∧ x.input = input ∧ x.samples = samples ∧
      x.Fits size
  else True

/-- No bytes are encoded: of other bit depths, into an MP3 file of other numbers of channels or for
which LAME stores nothing, into an Ogg file for which nothing is stored before the encoder is
drained, and for other types. -/
def EncodesNothing (codecs : Codecs) (encode : Encode) (input : List Int32) (samples size : ℕ)
    (mimeType : List UInt8) : Prop :=
  if mimeType = ascii "audio/wav" then ¬ (encode.bitDepth = 16 ∨ encode.bitDepth = 24)
  else if mimeType = ascii "audio/mpeg" ∨ mimeType = ascii "audio/mp3" then
    ¬ (encode.bitDepth = 16 ∨ encode.bitDepth = 24) ∨
      ¬ (encode.channels = 1 ∨ encode.channels = 2) ∨
      codecs.lame.encodeBuffer encode.sampleRate encode.channels
        (encode.pcm input samples) (Int32.ofNat size) = some []
  else if mimeType = ascii "audio/ogg" then
    ∃ x : OggInput codecs.opus, x.encode = encode ∧ x.input = input ∧ x.samples = samples ∧
      x.Silent
  else True

section Encoders

variable {encode : Encode} {input : List Int32} {samples : ℕ}

/-- The loop that narrows samples inside of the vector. -/
theorem narrow_of_le (convert : Int32 → List UInt8) {n : ℕ} (h : n ≤ input.length) :
    narrow convert input n =
      if n < 2 ^ 31 then some ((input.take n).flatMap convert) else none := by
  rw [narrow]
  simp only [h, and_true]

/-- The size in a WAV file is at most that of the samples. -/
theorem toNat_wavSize_le (wav : Encode) (samples : ℕ) :
    (wavSize wav (UInt32.ofNat samples)).toNat ≤
      samples * wav.channels.toNat * wav.bitDepth.toNat / 8 := by
  rw [wavSize, UInt32.toNat_div, UInt32.toNat_mul, UInt32.toNat_mul, UInt32.toNat_ofNat',
    UInt16.toNat_toUInt32, UInt16.toNat_toUInt32]
  refine Nat.div_le_div_right ((Nat.mod_le _ _).trans ?_)
  refine Nat.mul_le_mul_right _ ((Nat.mod_le _ _).trans ?_)
  exact Nat.mul_le_mul_right _ (Nat.mod_le _ _)

/-- Data of the samples are written to a file. -/
theorem isSome_wavWrite {data : List UInt8}
    (h : samples * encode.channels.toNat * encode.bitDepth.toNat / 8 ≤ data.length) :
    (wavWrite encode data samples).isSome := by
  have hle := (toNat_wavSize_le encode samples).trans h
  have hslice : (slice data 0 (wavSize encode (UInt32.ofNat samples)).toNat).isSome :=
    Option.isSome_iff_exists.mpr ⟨_, slice_eq_some.mpr ⟨by omega, rfl⟩⟩
  rw [wavWrite, wavEncodeData, Option.isSome_map, Option.isSome_map]
  exact hslice

/-- What is written of the narrowed samples of a depth. -/
theorem isSome_encodeWav_iff (hinside : samples * encode.channels.toNat ≤ input.length) :
    (encodeWav encode input samples).isSome ↔
      (encode.bitDepth = 16 ∨ encode.bitDepth = 24 → samples * encode.channels.toNat < 2 ^ 31) := by
  have hwrite (convert : Int32 → List UInt8) {width : ℕ}
      (hconvert : ∀ z, (convert z).length = width) (hwidth : encode.bitDepth.toNat = 8 * width)
      (hdepth : encode.bitDepth = 16 ∨ encode.bitDepth = 24) :
      ((narrow convert input (samples * encode.channels.toNat)).bind fun data =>
          wavWrite encode data samples).isSome ↔
        (encode.bitDepth = 16 ∨ encode.bitDepth = 24 →
          samples * encode.channels.toNat < 2 ^ 31) := by
    rw [narrow_of_le _ hinside]
    by_cases hlt : samples * encode.channels.toNat < 2 ^ 31
    · rw [if_pos hlt, Option.bind_some]
      refine iff_of_true (isSome_wavWrite ?_) fun _ => hlt
      rw [length_flatMap_convert hconvert, List.length_take, min_eq_left hinside, hwidth,
        ← Nat.mul_assoc, Nat.mul_right_comm, Nat.mul_div_cancel _ (by decide)]
    · rw [if_neg hlt, Option.bind_none]
      exact iff_of_false Bool.false_ne_true fun h => hlt (h hdepth)
  rw [encodeWav]
  by_cases hsixteen : encode.bitDepth = 16
  · rw [if_pos hsixteen]
    refine hwrite convertS32S16 (fun z => length_writeUint16 _) ?_ (.inl hsixteen)
    rw [hsixteen]
    rfl
  · rw [if_neg hsixteen]
    by_cases htwentyfour : encode.bitDepth = 24
    · rw [if_pos htwentyfour]
      refine @hwrite convertS32S24 3 (fun z => rfl) ?_ (.inr htwentyfour)
      rw [htwentyfour]
      rfl
    · rw [if_neg htwentyfour]
      exact iff_of_true rfl fun h => (h.elim hsixteen htwentyfour).elim

/-- A WAV file has bytes. -/
theorem encodeWav_eq_nil_iff :
    encodeWav encode input samples = some [] ↔
      ¬ (encode.bitDepth = 16 ∨ encode.bitDepth = 24) := by
  have hwrite (data : Option (List UInt8)) :
      (data.bind fun data => wavWrite encode data samples) ≠ some [] := by
    intro h
    obtain ⟨data, -, h⟩ := Option.bind_eq_some_iff.mp h
    obtain ⟨chunk, -, h⟩ := Option.map_eq_some_iff.mp h
    have hname := (List.append_eq_nil_iff.mp (List.append_eq_nil_iff.mp h).1).1
    rw [wavEncodeHeader] at hname
    cases (List.append_eq_nil_iff.mp (List.append_eq_nil_iff.mp hname).1).1
  rw [encodeWav]
  by_cases hsixteen : encode.bitDepth = 16
  · rw [if_pos hsixteen]
    exact iff_of_false (hwrite _) fun h => h (.inl hsixteen)
  · rw [if_neg hsixteen]
    by_cases htwentyfour : encode.bitDepth = 24
    · rw [if_pos htwentyfour]
      exact iff_of_false (hwrite _) fun h => h (.inr htwentyfour)
    · rw [if_neg htwentyfour]
      exact iff_of_true rfl fun h => h.elim hsixteen htwentyfour

/-- The call of LAME, with samples of 16 bits. -/
theorem encodeMp3_eq (lame : Lame) (size : ℕ)
    (hinside : samples * encode.channels.toNat ≤ input.length) :
    encodeMp3 lame encode input samples size =
      if encode.bitDepth = 16 ∨ encode.bitDepth = 24 then
        if samples * encode.channels.toNat < 2 ^ 31 then
          mp3Write lame encode (encode.pcm input samples) size
        else none
      else some [] := by
  have hwrite (convert : Int32 → List UInt8) :
      ((narrow convert input (samples * encode.channels.toNat)).bind fun pcm =>
          mp3Write lame encode pcm size) =
        if samples * encode.channels.toNat < 2 ^ 31 then
          mp3Write lame encode
            ((input.take (samples * encode.channels.toNat)).flatMap convert) size
        else none := by
    rw [narrow_of_le _ hinside]
    split_ifs <;> rfl
  rw [encodeMp3, Encode.pcm]
  by_cases hsixteen : encode.bitDepth = 16
  · rw [if_pos hsixteen, if_pos (.inl hsixteen), if_pos hsixteen]
    exact hwrite convertS32S16
  · rw [if_neg hsixteen, if_neg hsixteen]
    by_cases htwentyfour : encode.bitDepth = 24
    · rw [if_pos htwentyfour, if_pos (.inr htwentyfour)]
      exact hwrite convertS32S16D8
    · rw [if_neg htwentyfour, if_neg (not_or.mpr ⟨hsixteen, htwentyfour⟩)]

theorem isSome_mp3Write_iff (lame : Lame) (mp3 : Encode) (pcm : List UInt8) (size : ℕ) :
    (mp3Write lame mp3 pcm size).isSome ↔
      (mp3.channels = 1 ∨ mp3.channels = 2 →
        ∃ bytes, lame.encodeBuffer mp3.sampleRate mp3.channels pcm (Int32.ofNat size) = some bytes ∧
          bytes.length ≤ size) := by
  rw [mp3Write]
  split_ifs with hchannels
  · rw [Option.isSome_iff_exists, imp_iff_right hchannels]
    simp only [Option.filter_eq_some_iff, decide_eq_true_eq]
  · exact iff_of_true rfl fun h => absurd h hchannels

theorem mp3Write_eq_nil_iff (lame : Lame) (mp3 : Encode) (pcm : List UInt8) (size : ℕ) :
    mp3Write lame mp3 pcm size = some [] ↔
      ¬ (mp3.channels = 1 ∨ mp3.channels = 2) ∨
        lame.encodeBuffer mp3.sampleRate mp3.channels pcm (Int32.ofNat size) = some [] := by
  rw [mp3Write]
  split_ifs with hchannels
  · rw [Option.filter_eq_some_iff, or_iff_right (not_not.mpr hchannels), List.length_nil,
      and_iff_left (decide_eq_true (Nat.zero_le size))]
  · exact iff_of_true rfl (.inl hchannels)

theorem isSome_encodeOgg_iff (codecs : Codecs) (size : ℕ)
    (hinside : samples * encode.channels.toNat ≤ input.length) :
    (encodeOggBytes codecs.opus codecs.rounding encode input samples size).isSome ↔
      ∃ x : OggInput codecs.opus, x.encode = encode ∧ x.input = input ∧ x.samples = samples ∧
        x.Fits size := by
  constructor
  · intro h
    obtain ⟨haccepted, hdepth⟩ := of_isSome_encodeOggBytes h
    let x : OggInput codecs.opus := ⟨encode, input, samples, haccepted, hdepth, hinside⟩
    exact ⟨x, rfl, rfl, rfl, (isSome_encodeOggBytes_iff codecs.rounding x size).mp h⟩
  · rintro ⟨x, rfl, rfl, rfl, h⟩
    exact (isSome_encodeOggBytes_iff codecs.rounding x size).mpr h

/-- **When `racs_encode_pcm` is without fault** on frames inside of the vector. -/
theorem isSome_encodePcm_iff (codecs : Codecs) (size : ℕ) (mimeType : List UInt8)
    (hinside : samples * encode.channels.toNat ≤ input.length) :
    (encodePcm codecs encode input samples size mimeType).isSome ↔
      Encodable codecs encode input samples size mimeType := by
  rw [encodePcm, Encodable]
  split_ifs
  · exact isSome_encodeWav_iff hinside
  · rw [encodeMp3_eq codecs.lame size hinside]
    split_ifs with hdepth hlt
    · rw [isSome_mp3Write_iff, imp_iff_right hdepth, and_iff_right hlt]
    · exact iff_of_false Bool.false_ne_true fun h => hlt (h hdepth).1
    · exact iff_of_true rfl fun h => absurd h hdepth
  · exact isSome_encodeOgg_iff codecs size hinside
  · exact iff_of_true rfl trivial

/-- When `racs_encode_pcm` stores no bytes. -/
theorem encodePcm_eq_nil_iff {codecs : Codecs} {size : ℕ} {mimeType : List UInt8}
    (hinside : samples * encode.channels.toNat ≤ input.length)
    (h : Encodable codecs encode input samples size mimeType) :
    encodePcm codecs encode input samples size mimeType = some [] ↔
      EncodesNothing codecs encode input samples size mimeType := by
  rw [Encodable] at h
  rw [encodePcm, EncodesNothing]
  split_ifs at h ⊢
  · exact encodeWav_eq_nil_iff
  · rw [encodeMp3_eq codecs.lame size hinside]
    split_ifs with hdepth hlt
    · rw [mp3Write_eq_nil_iff, or_iff_right (not_not.mpr hdepth)]
    · exact absurd (h hdepth).1 hlt
    · exact iff_of_true rfl (.inl hdepth)
  · obtain ⟨x, rfl, rfl, rfl, hfits⟩ := h
    rw [encodeOggBytes_eq_nil_iff codecs.rounding hfits]
    constructor
    · exact fun hsilent => ⟨x, rfl, rfl, rfl, hsilent⟩
    · rintro ⟨y, hencode, hinput, hsamples, hsilent⟩
      obtain rfl : y = x := by
        cases x
        cases y
        subst hencode hinput hsamples
        rfl
      exact hsilent
  · exact iff_of_true rfl trivial

end Encoders

/-! ### Without fault -/

variable {P : Platform}

/-- What an encoder is given: the samples behind the header, and a number of frames that they
hold. -/
structure EncoderInput (words : List Int32) (audio : Audio) (frames : ℕ) : Prop where
  ofWords : Audio.ofWords words = some audio
  channels : audio.channels ≠ 0
  inside : frames * audio.channels.toNat ≤ audio.samples.length

/-- The call of `racs_encode_pcm` with the format in the header. -/
def encodeFrames (b : Backend P) (audio : Audio) (frames : ℕ) (mimeType : List UInt8) :
    Option (List UInt8) :=
  b.encodePcm audio.encode audio.samples frames audio.encodeSize mimeType

/-- ENCODE replies to a vector in the buffer, with an error or with what the encoder makes of frames
inside of the vector. -/
def CommandEncodes (b : Backend P) (cmd : Command P.Double) (out : Buffer P.Double)
    (words : List Int32) (mimeType : List UInt8) (s : Store) (isFinal : Bool) : Prop :=
  (∃ message, (command b .encode).run (serializeArgs cmd) out s isFinal =
      some (packError [] (ascii "ENCODE") message, s)) ∨
    ∃ audio frames data, EncoderInput words audio frames ∧
      encodeFrames b audio frames (cString mimeType) = some data ∧
      (command b .encode).run (serializeArgs cmd) out s isFinal = some (packU8v [] data, s)

/-- The procedure `encode` raises an error, or its value is what the encoder makes of frames inside
of the vector. -/
def ScmEncodes (b : Backend P) (words : List Int32) (mimeType : List UInt8) : Prop :=
  (∃ message, scmEncode b (.s32vector words) (.string mimeType) = throw message) ∨
    ∃ audio frames data, EncoderInput words audio frames ∧
      encodeFrames b audio frames mimeType = some data ∧
      scmEncode b (.s32vector words) (.string mimeType) =
        pure (.vector .u8vec RacsType.noConfusion data)

/-- The reply to a vector of an expression is packed from inside of the vector. -/
def PacksInside (nullElements : Bool) (words : List Int32) (isFinal : Bool) : Prop :=
  ∃ samples, samples <:+ words ∧
    scmPackS32Vector nullElements ([] : Buffer P.Double) words isFinal =
      some (packS32v [] samples)

/-- The header of a vector names channels, and the encoder of the type takes the whole frames of its
samples. -/
def Audio.Encodes (b : Backend P) (audio : Audio) (mimeType : List UInt8) : Prop :=
  audio.channels ≠ 0 ∧
    Encodable b.codecs audio.encode audio.samples (audio.samples.length / audio.channels.toNat)
      audio.encodeSize mimeType

/-- No bytes are encoded of the whole frames. -/
def Audio.EncodesNothing (b : Backend P) (audio : Audio) (mimeType : List UInt8) : Prop :=
  Racs.EncodesNothing b.codecs audio.encode audio.samples
    (audio.samples.length / audio.channels.toNat) audio.encodeSize mimeType

theorem encoderInput_div {audio : Audio} (hchannels : audio.channels ≠ 0) :
    EncoderInput audio.words audio (audio.samples.length / audio.channels.toNat) :=
  ⟨rfl, hchannels, Nat.div_mul_le_self _ _⟩

/-- The whole frames of a vector are encoded. -/
theorem isSome_encodeFrames_iff (b : Backend P) (audio : Audio) (mimeType : List UInt8)
    (hchannels : audio.channels ≠ 0) :
    (encodeFrames b audio (audio.samples.length / audio.channels.toNat) mimeType).isSome ↔
      audio.Encodes b mimeType := by
  rw [Audio.Encodes, and_iff_right hchannels]
  exact isSome_encodePcm_iff b.codecs audio.encodeSize mimeType (Nat.div_mul_le_self _ _)

theorem encodeFrames_eq_nil_iff {b : Backend P} {audio : Audio} {mimeType : List UInt8}
    (h : audio.Encodes b mimeType) :
    encodeFrames b audio (audio.samples.length / audio.channels.toNat) mimeType = some [] ↔
      audio.EncodesNothing b mimeType :=
  encodePcm_eq_nil_iff (Nat.div_mul_le_self _ _) h.2

/-! ### The command -/

variable {b : Backend P} {cmd : Command P.Double} {out : Buffer P.Double} {words : List Int32}
  {mimeType : List UInt8}

/-- The call of ENCODE on a vector in the buffer. -/
theorem run_encode (hcmd : cmd.args = [.str mimeType]) (hout : bufferSamples out = some words)
    (s : Store) (isFinal : Bool) :
    (command b .encode).run (serializeArgs cmd) out s isFinal =
      (finish "ENCODE" (match Audio.ofWords words with
        | none => undefined
        | some audio => encodeAudio b audio (cString mimeType))).map (·, s) := by
  have hvalid : ArgsValid (command b .encode).args (cmd.args.map CommandArg.item) := by
    rw [hcmd]
    rfl
  rw [run_of_valid rfl hvalid (validateS32v_of_bufferSamples hout), hcmd]
  cases Audio.ofWords words <;> rfl

/-- Behind the checks of ENCODE, the samples are encoded. -/
theorem encodeAudio_eq (b : Backend P) {audio : Audio} (mimeType : List UInt8)
    (hsamples : audio.samples ≠ []) (hchannels : audio.channels ≠ 0) :
    encodeAudio b audio mimeType =
      match encodeFrames b audio (audio.samples.length / audio.channels.toNat) mimeType with
      | none => undefined
      | some [] => throw "Unsupported format"
      | some out => pure (packU8v [] out) := by
  rw [encodeAudio, if_neg hsamples, if_neg hchannels]
  rfl

/-- **When ENCODE is without fault**: the vector has a header, and if it has samples, its header
names channels and the encoder takes the samples. -/
theorem commandEncodes_iff (hcmd : cmd.args = [.str mimeType])
    (hout : bufferSamples out = some words) (s : Store) (isFinal : Bool) :
    CommandEncodes b cmd out words mimeType s isFinal ↔
      ∃ audio, Audio.ofWords words = some audio ∧
        (audio.samples ≠ [] → audio.Encodes b (cString mimeType)) := by
  have hrun := @run_encode P b cmd out words mimeType hcmd hout s isFinal
  rw [CommandEncodes, hrun]
  cases hwords : Audio.ofWords words with
  | none =>
    refine iff_of_false ?_ fun ⟨audio, h, _⟩ => by cases h
    rintro (⟨message, h⟩ | ⟨audio, frames, data, hinput, -⟩)
    · cases h
    · cases hwords.symm.trans hinput.ofWords
  | some audio =>
    obtain rfl := Audio.eq_words_of_ofWords hwords
    dsimp only
    by_cases hsamples : audio.samples = []
    · refine iff_of_true (.inl ⟨ascii "Missing input data.", ?_⟩)
        ⟨audio, rfl, fun h => absurd hsamples h⟩
      rw [encodeAudio, if_pos hsamples]
      rfl
    · have hiff : (∃ audio', some audio = some audio' ∧
          (audio'.samples ≠ [] → audio'.Encodes b (cString mimeType))) ↔
            audio.Encodes b (cString mimeType) :=
        ⟨fun ⟨audio', heq, h⟩ => by cases heq; exact h hsamples, fun h => ⟨audio, rfl, fun _ => h⟩⟩
      rw [hiff]
      by_cases hchannels : audio.channels = 0
      · refine iff_of_false ?_ fun h => h.1 hchannels
        rw [encodeAudio, if_neg hsamples, if_pos hchannels]
        rintro (⟨message, h⟩ | ⟨audio', frames, data, hinput, -⟩)
        · cases h
        · obtain rfl := Option.some.inj (hwords.symm.trans hinput.ofWords)
          exact hinput.channels hchannels
      · rw [encodeAudio_eq b _ hsamples hchannels, ← isSome_encodeFrames_iff b audio _ hchannels]
        rcases hdata : encodeFrames b audio (audio.samples.length / audio.channels.toNat)
          (cString mimeType) with - | - | ⟨x, data⟩
        · refine iff_of_false ?_ Bool.false_ne_true
          rintro (⟨message, h⟩ | ⟨audio', frames, data, -, -, h⟩)
          · cases h
          · cases h
        · exact iff_of_true (.inl ⟨ascii "Unsupported format", rfl⟩) rfl
        · exact iff_of_true (.inr ⟨audio, _, _, encoderInput_div hchannels, hdata, rfl⟩) rfl

/-! ### The procedure -/

/-- The call of `encode` on a vector. -/
theorem scmEncode_eq (b : Backend P) (words : List Int32) (hnull : 0 ∉ mimeType) :
    scmEncode b (.s32vector words) (.string mimeType) =
      match Audio.ofWords words with
      | none => throw "Missing input data."
      | some audio =>
        if audio.samples.length < 2 then throw "Missing input data."
        else if audio.channels = 0 then undefined
        else match encodeFrames b audio
            (audio.samples.length / audio.channels.toNat) mimeType with
        | none => undefined
        | some data => pure (.vector .u8vec RacsType.noConfusion data) := by
  rw [scmEncode, scmToLocaleString, if_neg hnull]
  rfl

/-- **When `encode` is without fault**: if there are two samples, the header names channels and the
encoder takes the samples. -/
theorem scmEncodes_iff (b : Backend P) (words : List Int32) (mimeType : List UInt8) :
    ScmEncodes b words mimeType ↔
      (0 ∉ mimeType → ∀ audio, Audio.ofWords words = some audio → 2 ≤ audio.samples.length →
        audio.Encodes b mimeType) := by
  by_cases hnull : 0 ∈ mimeType
  · refine iff_of_true (.inl ⟨"String contains #\\nul character", ?_⟩) fun h => absurd hnull h
    rw [scmEncode, scmToLocaleString, if_pos hnull]
    rfl
  · rw [ScmEncodes, scmEncode_eq b words hnull, imp_iff_right hnull]
    cases hwords : Audio.ofWords words with
    | none =>
      exact iff_of_true (.inl ⟨"Missing input data.", rfl⟩) fun audio h => by cases h
    | some audio =>
      obtain rfl := Audio.eq_words_of_ofWords hwords
      dsimp only
      by_cases hshort : audio.samples.length < 2
      · refine iff_of_true (.inl ⟨"Missing input data.", ?_⟩) fun audio' heq hlen => ?_
        · rw [if_pos hshort]
        · obtain rfl := Option.some.inj heq
          exact absurd hshort (not_lt.mpr hlen)
      · have hiff : (∀ audio', some audio = some audio' → 2 ≤ audio'.samples.length →
            audio'.Encodes b mimeType) ↔ audio.Encodes b mimeType :=
          ⟨fun h => h audio rfl (not_lt.mp hshort), fun h audio' heq _ => by cases heq; exact h⟩
        rw [hiff, if_neg hshort]
        by_cases hchannels : audio.channels = 0
        · rw [if_pos hchannels]
          refine iff_of_false ?_ fun h => h.1 hchannels
          rintro (⟨message, h⟩ | ⟨audio', frames, data, hinput, -⟩)
          · cases h
          · obtain rfl := Option.some.inj (hwords.symm.trans hinput.ofWords)
            exact hinput.channels hchannels
        · rw [if_neg hchannels, ← isSome_encodeFrames_iff b audio _ hchannels]
          rcases hdata : encodeFrames b audio (audio.samples.length / audio.channels.toNat)
            mimeType with - | data
          · refine iff_of_false ?_ Bool.false_ne_true
            rintro (⟨message, h⟩ | ⟨audio', frames, data, -, -, h⟩)
            · cases h
            · cases h
          · exact iff_of_true (.inr ⟨audio, _, data, encoderInput_div hchannels, hdata, rfl⟩) rfl

/-! ### The last packing -/

/-- **When the packing of a vector is without fault**: it is not the last, or the vector has a
header, or it is empty and its elements are the null pointer. -/
theorem packsInside_iff (nullElements : Bool) (words : List Int32) (isFinal : Bool) :
    @PacksInside P nullElements words isFinal ↔
      (isFinal = true → words = [] ∧ nullElements = true ∨ 2 ≤ words.length) := by
  rw [PacksInside, scmPackS32Vector]
  by_cases hnull : words = [] ∧ nullElements = true
  · rw [if_pos hnull]
    exact iff_of_true ⟨[], List.nil_suffix, rfl⟩ fun _ => .inl hnull
  · rw [if_neg hnull]
    by_cases hfinal : isFinal = true
    · rw [if_pos hfinal]
      by_cases hshort : words.length < 2
      · rw [if_pos hshort]
        refine iff_of_false (fun ⟨_, _, h⟩ => by cases h) fun h => ?_
        exact (h hfinal).elim hnull (not_le.mpr hshort)
      · rw [if_neg hshort]
        exact iff_of_true ⟨words.drop 2, List.drop_suffix 2 words, rfl⟩
          fun _ => .inr (not_lt.mp hshort)
    · rw [if_neg hfinal]
      exact iff_of_true ⟨words, List.suffix_refl words, rfl⟩ fun h => absurd h hfinal

/-! ### The three places -/

/-- **For which vectors the three places are without fault.** -/
theorem encodes_iff (hcmd : cmd.args = [.str mimeType]) (hout : bufferSamples out = some words)
    (s : Store) (nullElements isFinal : Bool) :
    (CommandEncodes b cmd out words mimeType s isFinal ↔
      ∃ audio, Audio.ofWords words = some audio ∧
        (audio.samples ≠ [] → audio.Encodes b (cString mimeType))) ∧
    (ScmEncodes b words mimeType ↔
      (0 ∉ mimeType → ∀ audio, Audio.ofWords words = some audio → 2 ≤ audio.samples.length →
        audio.Encodes b mimeType)) ∧
    (@PacksInside P nullElements words isFinal ↔
      (isFinal = true → words = [] ∧ nullElements = true ∨ 2 ≤ words.length)) :=
  ⟨commandEncodes_iff hcmd hout s isFinal, scmEncodes_iff b words mimeType,
    packsInside_iff nullElements words isFinal⟩

/-- One frame of two channels. -/
theorem encodes_stereo :
    CommandEncodes .idle ⟨0, ascii "ENCODE", [.str (ascii "audio/wav")]⟩
        (packS32v [] [48000, 0x00020010, 1, 2]).2 [48000, 0x00020010, 1, 2] (ascii "audio/wav")
        (Store.init (.small 1 (by decide))) true ∧
      ScmEncodes .idle [48000, 0x00020010, 1, 2] (ascii "audio/wav") ∧
      @PacksInside .rational true [48000, 0x00020010, 1, 2] true := by
  have h := @encodes_iff .rational .idle ⟨0, ascii "ENCODE", [.str (ascii "audio/wav")]⟩
    (packS32v [] [48000, 0x00020010, 1, 2]).2 [48000, 0x00020010, 1, 2] (ascii "audio/wav") rfl
    (bufferSamples_packS32v (by decide)) (Store.init (.small 1 (by decide))) true true
  have htype : cString (ascii "audio/wav") = ascii "audio/wav" := by decide
  have hencodes : (⟨48000, 0x00020010, [1, 2]⟩ : Audio).Encodes .idle (ascii "audio/wav") := by
    refine ⟨by decide, ?_⟩
    rw [Encodable, if_pos rfl]
    exact fun _ => by decide
  refine ⟨h.1.mpr ⟨_, rfl, fun _ => htype ▸ hencodes⟩, h.2.1.mpr fun _ audio heq _ => ?_,
    h.2.2.mpr fun _ => .inr (by decide)⟩
  obtain rfl := Option.some.inj heq
  exact hencodes

/-- A vector of one word, and a header without channels. -/
theorem not_encodes_header :
    (¬ CommandEncodes .idle ⟨0, ascii "ENCODE", [.str (ascii "audio/wav")]⟩
      (packS32v [] [7]).2 [7] (ascii "audio/wav") (Store.init (.small 1 (by decide))) true) ∧
    (¬ CommandEncodes .idle ⟨0, ascii "ENCODE", [.str (ascii "audio/wav")]⟩
      (packS32v [] [48000, 16, 1, 2]).2 [48000, 16, 1, 2] (ascii "audio/wav")
      (Store.init (.small 1 (by decide))) true) ∧
    (¬ ScmEncodes .idle [48000, 16, 1, 2] (ascii "audio/wav")) ∧
    ¬ @PacksInside .rational true [7] true := by
  have hchannels : (⟨48000, 16, [1, 2]⟩ : Audio).channels = 0 := by decide
  refine ⟨fun h => ?_, fun h => ?_, fun h => ?_, fun h => ?_⟩
  · obtain ⟨audio, hwords, -⟩ :=
      (commandEncodes_iff rfl (bufferSamples_packS32v (by decide)) _ true).mp h
    cases hwords
  · obtain ⟨audio, hwords, h⟩ :=
      (commandEncodes_iff rfl (bufferSamples_packS32v (by decide)) _ true).mp h
    obtain rfl := Option.some.inj hwords
    exact (h (List.cons_ne_nil _ _)).1 hchannels
  · exact ((scmEncodes_iff .idle _ _).mp h (by decide) _ rfl le_rfl).1 hchannels
  · exact absurd ((packsInside_iff true [7] true).mp h rfl) (by decide)

end Racs
