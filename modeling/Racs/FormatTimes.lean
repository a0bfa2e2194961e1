import Racs.IntegerArguments
import Racs.StreamTimes
import Mathlib.Algebra.Order.Floor.Ring
import Mathlib.Data.Rat.Floor

/-!
# The times of admitted formats

CREATE takes any rate of 32 bits. `racs_metadata_timestamp` divides the offset by the number of
bytes in a second of audio, which it computes in 32 bits. The product is zero for the rate zero, and
for high rates the low bits of it are left. Neither is the number of bytes in a second, and nothing
refuses such a rate.

Times are computed here with fractions in place of doubles and without a bound, so that nothing but
the product is inexact.

## Main definitions

* `Racs.Metadata.byteRate`, `Racs.Metadata.exactByteRate` — the product, in 32 bits and as a number.
* `Racs.Metadata.exactTimestamp` — the time at an offset.
* `Racs.Creates` — CREATE stores the metadata of a new stream.

## Main results

* `Racs.creates_format` — what CREATE admits, and that it admits every rate.
* `Racs.timesFollowAudio_iff` — for which formats the times follow the audio.
-/

namespace Racs

open MessagePack

/-! ### The product -/

namespace Metadata

variable (md : Metadata)

/-- `metadata->channels * metadata->sample_rate * (metadata->bit_depth / 8)`. -/
def byteRate : UInt32 := md.channels.toUInt32 * md.sampleRate * (md.bitDepth / 8).toUInt32

/-- The number of bytes in a second of audio. -/
def exactByteRate : ℕ := md.channels.toNat * md.sampleRate.toNat * (md.bitDepth.toNat / 8)

theorem toNat_byteRate : md.byteRate.toNat = md.exactByteRate % 2 ^ 32 := by
  have height : (8 : UInt16).toNat = 8 := rfl
  rw [byteRate, exactByteRate, UInt32.toNat_mul, UInt32.toNat_mul, UInt16.toNat_toUInt32,
    UInt16.toNat_toUInt32, UInt16.toNat_div, height, Nat.mod_mul_mod]

/-- `racs_metadata_timestamp` in exact arithmetic. -/
def exactTimestamp (offset : UInt64) : ℤ :=
  ⌊(offset.toNat : ℚ) / md.byteRate.toNat * 1000⌋ + md.ref.toInt

/-- The timestamps of a stream are well defined: the product is the number of bytes in a second, and
the times do not go back and advance by a second for each second of audio. -/
structure TimesFollowAudio : Prop where
  nonzero : md.byteRate ≠ 0
  exact : md.byteRate.toNat = md.exactByteRate
  ref_le : ∀ offset, md.ref.toInt ≤ md.exactTimestamp offset
  mono : ∀ offset offset', offset ≤ offset' → md.exactTimestamp offset ≤ md.exactTimestamp offset'
  second : ∀ offset offset' : UInt64, offset'.toNat = offset.toNat + md.exactByteRate →
    md.exactTimestamp offset' = md.exactTimestamp offset + 1000

variable {md}

theorem ref_le_exactTimestamp (offset : UInt64) : md.ref.toInt ≤ md.exactTimestamp offset := by
  have hfloor : (0 : ℤ) ≤ ⌊(offset.toNat : ℚ) / md.byteRate.toNat * 1000⌋ :=
    Int.floor_nonneg.mpr (by positivity)
  rw [exactTimestamp]
  omega

theorem exactTimestamp_mono {offset offset' : UInt64} (h : offset ≤ offset') :
    md.exactTimestamp offset ≤ md.exactTimestamp offset' := by
  have hle : (offset.toNat : ℚ) ≤ offset'.toNat := by
    exact_mod_cast UInt64.le_iff_toNat_le.mp h
  rw [exactTimestamp, exactTimestamp]
  gcongr

/-- As many bytes as the product take one second. -/
theorem exactTimestamp_add_byteRate (hpos : 0 < md.byteRate.toNat) {offset offset' : UInt64}
    (h : offset'.toNat = offset.toNat + md.byteRate.toNat) :
    md.exactTimestamp offset' = md.exactTimestamp offset + 1000 := by
  have hne : (md.byteRate.toNat : ℚ) ≠ 0 := by exact_mod_cast hpos.ne'
  have hsum : (offset'.toNat : ℚ) / md.byteRate.toNat * 1000 =
      (offset.toNat : ℚ) / md.byteRate.toNat * 1000 + 1000 := by
    rw [h, Nat.cast_add, add_div, div_self hne, add_mul, one_mul]
  rw [exactTimestamp, exactTimestamp, hsum, Int.floor_add_ofNat]
  omega

/-- The times follow the audio when the product is a positive number of 32 bits. -/
theorem timesFollowAudio_iff_exactByteRate :
    md.TimesFollowAudio ↔ 0 < md.exactByteRate ∧ md.exactByteRate < 2 ^ 32 := by
  have hmod := md.toNat_byteRate
  constructor
  · rintro ⟨hne, hexact, -⟩
    have hpos : 0 < md.byteRate.toNat := by
      rw [Nat.pos_iff_ne_zero]
      exact fun hzero => hne (UInt32.toNat_inj.mp hzero)
    have hlt := md.byteRate.toNat_lt
    rw [hexact] at hpos hlt
    exact ⟨hpos, hlt⟩
  · rintro ⟨hpos, hlt⟩
    rw [Nat.mod_eq_of_lt hlt] at hmod
    refine ⟨?_, hmod, ref_le_exactTimestamp, fun _ _ h => exactTimestamp_mono h, ?_⟩
    · rintro hzero
      rw [hzero] at hmod
      exact hpos.ne hmod
    · intro offset offset' h
      rw [← hmod] at h hpos
      exact exactTimestamp_add_byteRate hpos h

/-- What the code computes with fractions, when it is defined, is the time. -/
theorem toInt_metadataTimestamp {offset : UInt64} {t : Int64}
    (h : metadataTimestamp .rational md offset = some t) :
    t.toInt = md.exactTimestamp offset := by
  obtain ⟨ms, hms, hadd⟩ := Option.bind_eq_some_iff.mp h
  have htrunc := trunc_of_toInt64 hms
  change Platform.rational.trunc (Platform.rational.mul (Platform.rational.div
    (some (offset.toNat : ℚ)) (some (md.byteRate.toNat : ℚ))) (some (1000 : ℚ))) = _ at htrunc
  have hrate : (md.byteRate.toNat : ℚ) ≠ 0 := by
    intro hzero
    rw [hzero] at htrunc
    cases htrunc
  have hmul : Platform.rational.mul (Platform.rational.div (some (offset.toNat : ℚ))
      (some (md.byteRate.toNat : ℚ))) (some (1000 : ℚ)) =
        some ((offset.toNat : ℚ) / md.byteRate.toNat * 1000) := by
    simp only [Platform.rational, Option.bind_some, if_neg hrate, Option.map_some]
  set x : ℚ := (offset.toNat : ℚ) / md.byteRate.toNat * 1000 with hx
  have hnonneg : 0 ≤ x.num := Rat.num_nonneg.mpr (by positivity)
  rw [hmul] at htrunc
  have hfloor : ⌊x⌋ = x.num.tdiv x.den :=
    (Rat.floor_def x).trans (Int.tdiv_eq_ediv_of_nonneg hnonneg).symm
  have hquotient : x.num.tdiv x.den = ms.toInt := Option.some.inj htrunc
  rw [toInt_of_addInt64 hadd, exactTimestamp, ← hx, hfloor, hquotient]

end Metadata

/-! ### Formats that CREATE admits -/

section Creates

variable {P : Platform} (b : Backend P)

/-- CREATE replies that the stream is created, with these metadata. -/
def Creates (cmd : Command P.Double) (out : Buffer P.Double) (s : Store) (isFinal : Bool)
    (md : Metadata) : Prop :=
  ∃ streamId s', cmd.args.head? = some (.str streamId) ∧
    (command b .create).run (serializeArgs cmd) out s isFinal =
      some (packNullWithStatusOk [], s') ∧
    metadataGet s'.disk.metadata (racsHash (cString streamId)) = some md

variable {b} {cmd : Command P.Double} {out : Buffer P.Double} {s : Store} {isFinal : Bool}
  {md : Metadata}

/-- What CREATE stores is what it lets pass. -/
theorem Creates.numbers (h : Creates b cmd out s isFinal md) :
    ∃ streamId, ∃ sampleRate channels bitDepth : Int64, cmd.args.map CommandArg.item =
        [.str streamId, .int sampleRate, .int channels, .int bitDepth] ∧
      Accepts .create (cmd.args.map CommandArg.item) out s ∧
      sampleRate.toUInt64.toUInt32 = md.sampleRate ∧ channels.toUInt64.toUInt16 = md.channels ∧
      bitDepth.toUInt64.toUInt16 = md.bitDepth := by
  obtain ⟨streamId, s', hhead, hrun, hmd⟩ := h
  rcases @create_cases P b cmd out s isFinal with ⟨-, reply, hreply, hstatus⟩ |
    ⟨-, streamId', sampleRate, channels, bitDepth, heq, haccepts, streamId₁, s₁, md₁, hhead₁, hrun₁,
      hmd₁, hnumbers⟩
  · obtain ⟨rfl, -⟩ := Prod.mk.inj (Option.some.inj (hrun.symm.trans hreply))
    exact absurd rfl hstatus
  · obtain rfl : streamId = streamId₁ :=
      CommandArg.str.inj (Option.some.inj (hhead.symm.trans hhead₁))
    obtain ⟨-, rfl⟩ := Prod.mk.inj (Option.some.inj (hrun.symm.trans hrun₁))
    obtain rfl : md = md₁ := Option.some.inj (hmd.symm.trans hmd₁)
    simp only [List.cons.injEq, Nat.cast_inj, and_true] at hnumbers
    obtain ⟨hrate, hchannels, hdepth⟩ := hnumbers
    exact ⟨streamId', sampleRate, channels, bitDepth, heq, haccepts, UInt32.toNat_inj.mp hrate,
      UInt16.toNat_inj.mp hchannels, UInt16.toNat_inj.mp hdepth⟩

/-- **What CREATE admits**: 16 or 24 bits, and one channel or two. -/
theorem Creates.format (h : Creates b cmd out s isFinal md) :
    (md.bitDepth = 16 ∨ md.bitDepth = 24) ∧ (md.channels = 1 ∨ md.channels = 2) := by
  obtain ⟨streamId, sampleRate, channels, bitDepth, heq, haccepts, -, hchannels, hdepth⟩ :=
    h.numbers
  obtain ⟨_, _, channels', bitDepth', heq', -, -, -, hbits, hnumber, -⟩ := haccepts
  obtain ⟨-, -, rfl, rfl⟩ : _ ∧ _ ∧ channels = channels' ∧ bitDepth = bitDepth' := by
    simpa using heq.symm.trans heq'
  rw [← hchannels, ← hdepth]
  exact ⟨hbits, hnumber⟩

theorem toInt64_nonneg {x : UInt64} (h : x.toNat < 2 ^ 63) : 0 ≤ x.toInt64 := by
  have hlt : 2 * x.toBitVec.toNat < 2 ^ 64 := by
    rw [UInt64.toNat_toBitVec]
    omega
  have hint : x.toInt64.toInt = x.toNat := BitVec.toInt_eq_toNat_of_lt hlt
  rw [Int64.le_iff_toInt_le, hint]
  exact Int.natCast_nonneg _

/-- CREATE admits every rate of 32 bits. -/
theorem exists_creates (b : Backend P) (out : Buffer P.Double) (isFinal : Bool)
    {streamId : List UInt8}
    (hfresh : metadataGet s.disk.metadata (racsHash (cString streamId)) = none)
    (sampleRate : UInt32) {channels bitDepth : UInt16} (hdepth : bitDepth = 16 ∨ bitDepth = 24)
    (hchannels : channels = 1 ∨ channels = 2) :
    ∃ md, Creates b ⟨0, ascii "CREATE", [.str streamId, .int sampleRate.toUInt64.toInt64,
        .int channels.toUInt64.toInt64, .int bitDepth.toUInt64.toInt64]⟩ out s isFinal md ∧
      md.sampleRate = sampleRate ∧ md.channels = channels ∧ md.bitDepth = bitDepth := by
  set cmd : Command P.Double := ⟨0, ascii "CREATE", [.str streamId,
    .int sampleRate.toUInt64.toInt64, .int channels.toUInt64.toInt64,
    .int bitDepth.toUInt64.toInt64]⟩
  have hrate := sampleRate.toNat_lt
  have hnumber := channels.toNat_lt
  have hbits := bitDepth.toNat_lt
  have haccepts : Accepts .create (cmd.args.map CommandArg.item) out s := by
    refine ⟨streamId, _, _, _, rfl, ?_, ?_, ?_, ?_, ?_, hfresh⟩
    · exact toInt64_nonneg (by rw [UInt32.toNat_toUInt64]; omega)
    · exact toInt64_nonneg (by rw [UInt16.toNat_toUInt64]; omega)
    · exact toInt64_nonneg (by rw [UInt16.toNat_toUInt64]; omega)
    · simpa using hdepth
    · simpa using hchannels
  rcases @create_cases P b cmd out s isFinal with ⟨hnot, -⟩ |
    ⟨-, streamId', sampleRate', channels', bitDepth', heq, -, streamId₁, s', md, hhead, hrun, hmd,
      hnumbers⟩
  · exact absurd haccepts hnot
  · simp only [cmd, List.map_cons, List.map_nil, CommandArg.item, List.cons.injEq, Item.int.injEq,
      and_true] at heq
    obtain ⟨-, rfl, rfl, rfl⟩ := heq
    simp only [List.cons.injEq, Nat.cast_inj, and_true] at hnumbers
    obtain ⟨hrate', hchannels', hdepth'⟩ := hnumbers
    refine ⟨md, ⟨streamId₁, s', hhead, hrun, hmd⟩, UInt32.toNat_inj.mp ?_, UInt16.toNat_inj.mp ?_,
      UInt16.toNat_inj.mp ?_⟩
    · simpa using hrate'.symm
    · simpa using hchannels'.symm
    · simpa using hdepth'.symm

/-- **When the times of a stream follow its audio**: its rate is not zero, and a second has less
than 2^32 bytes. -/
theorem timesFollowAudio_iff (h : Creates b cmd out s isFinal md) :
    md.TimesFollowAudio ↔ 0 < md.sampleRate.toNat ∧ md.exactByteRate < 2 ^ 32 := by
  obtain ⟨hdepth, hchannels⟩ := h.format
  have hbytes : 0 < md.bitDepth.toNat / 8 := by
    rcases hdepth with hdepth | hdepth
    · rw [hdepth]
      decide
    · rw [hdepth]
      decide
  have hnumber : 0 < md.channels.toNat := by
    rcases hchannels with hchannels | hchannels
    · rw [hchannels]
      decide
    · rw [hchannels]
      decide
  rw [Metadata.timesFollowAudio_iff_exactByteRate, Metadata.exactByteRate]
  refine and_congr_left fun _ => ?_
  rw [Nat.mul_pos_iff_of_pos_right hbytes, Nat.mul_pos_iff_of_pos_left hnumber]

/-- A stereo stream of 16 bits with the rate zero, and one of 2^31 samples a second. -/
theorem not_timesFollowAudio :
    (∃ md, Creates .idle ⟨0, ascii "CREATE", [.str (ascii "a"), .int 0, .int 2, .int 16]⟩ []
      (Store.init (.small 1 (by decide))) true md ∧ ¬ md.TimesFollowAudio) ∧
    ∃ md, Creates .idle ⟨0, ascii "CREATE",
      [.str (ascii "a"), .int 2147483648, .int 2, .int 16]⟩ []
      (Store.init (.small 1 (by decide))) true md ∧ ¬ md.TimesFollowAudio := by
  have hfresh : metadataGet (Store.init (.small 1 (by decide))).disk.metadata
      (racsHash (cString (ascii "a"))) = none := rfl
  constructor
  · obtain ⟨md, hcreates, hrate, hchannels, hdepth⟩ := exists_creates .idle [] true hfresh 0
      (.inl rfl : (16 : UInt16) = 16 ∨ (16 : UInt16) = 24) (.inr rfl : (2 : UInt16) = 1 ∨ _)
    refine ⟨md, hcreates, fun htimes => htimes.nonzero ?_⟩
    rw [Metadata.byteRate, hrate, hchannels, hdepth]
    decide
  · obtain ⟨md, hcreates, hrate, hchannels, hdepth⟩ := exists_creates .idle [] true hfresh
      2147483648 (.inl rfl : (16 : UInt16) = 16 ∨ (16 : UInt16) = 24)
      (.inr rfl : (2 : UInt16) = 1 ∨ _)
    refine ⟨md, hcreates, fun htimes => htimes.nonzero ?_⟩
    rw [Metadata.byteRate, hrate, hchannels, hdepth]
    decide

/-- A stereo stream of 16 bits with 44100 samples a second. -/
theorem timesFollowAudio_stereo :
    ∃ md, Creates .idle ⟨0, ascii "CREATE", [.str (ascii "a"), .int 44100, .int 2, .int 16]⟩ []
      (Store.init (.small 1 (by decide))) true md ∧ md.TimesFollowAudio := by
  have hfresh : metadataGet (Store.init (.small 1 (by decide))).disk.metadata
      (racsHash (cString (ascii "a"))) = none := rfl
  obtain ⟨md, hcreates, hrate, hchannels, hdepth⟩ := exists_creates .idle [] true hfresh 44100
    (.inl rfl : (16 : UInt16) = 16 ∨ (16 : UInt16) = 24) (.inr rfl : (2 : UInt16) = 1 ∨ _)
  refine ⟨md, hcreates, (timesFollowAudio_iff hcreates).mpr ?_⟩
  rw [Metadata.exactByteRate, hrate, hchannels, hdepth]
  decide

end Creates

end Racs
