import Racs.Bindings
import Racs.InverseOps
import Racs.Foundation.RoundedIntegers

/-!
# Mixing

`racs_ops_mix` adds two vectors sample by sample, with zeros where one of them has ended. It
converts both samples to `float`, adds them as `float` and converts the sum back. A `float` has 24
binary digits, so that samples of 24 bits and less are added exactly and longer ones nearly. The
sum of the largest samples is no `racs_int32` and the conversion is undefined; so is that of a
sum which is rounded to 2^31.

Only the Scheme interpreter reaches this operation and `racs_ops_merge`.

## Main definitions

* `Racs.mixSample`, `Racs.opsMix`.
* `Racs.scmMix`, `Racs.scmMerge` — the procedures.

## Main results

* `Racs.opsMix_sum` — the result of mixing is nearly the sum, in either order of the arguments.
* `Racs.opsMix_channels` — stereo vectors are mixed as their channels are.
-/

namespace Racs

open RoundedIntegers

/-! ### The operation -/

/-- `(float) x`, a number with 24 binary digits. -/
def toFloat (x : Int32) : ℤ := round 24 x.toInt

/-- The sum of two integers of the type `float`. -/
def addFloat (x y : ℤ) : ℤ := round 24 (x + y)

/-- `(racs_int32) x` for an integer of the type `float`. -/
def floatToInt32 (x : ℤ) : Option Int32 :=
  if -2 ^ 31 ≤ x ∧ x < 2 ^ 31 then some (Int32.ofInt x) else none

/-- The loop body of `racs_ops_mix`. -/
def mixSample (a b : Int32) : Option Int32 := floatToInt32 (addFloat (toFloat a) (toFloat b))

/-- The samples of `racs_ops_mix`. -/
def mixSamples (samplesA samplesB : List Int32) : Option (List Int32) :=
  (List.range (max samplesA.length samplesB.length)).mapM fun i =>
    mixSample (samplesA.getD i 0) (samplesB.getD i 0)

variable (P : Platform)

/-- `racs_ops_mix`: the header is that of the first vector, and the one of the second is not looked
at. -/
def opsMix (audioA audioB : Audio) : Option (Option Audio) :=
  if P.alloc (audioBytes (max audioA.samples.length audioB.samples.length)) then
    (mixSamples audioA.samples audioB.samples).map fun samples =>
      some { audioA with samples := samples }
  else some none

/-! ### The procedures -/

/-- The vector arguments of a procedure with two of them. -/
def scmAudios {δ : Type} (inA inB : Scm δ) : Checked (Audio × Audio) := do
  let samplesA ← scmS32Elements inA
  let samplesB ← scmS32Elements inB
  match Audio.ofWords samplesA, Audio.ofWords samplesB with
  | some audioA, some audioB => return (audioA, audioB)
  | _, _ => throw "Missing input data."

/-- `racs_scm_mix`. -/
def scmMix (inA inB : Scm P.Double) : Checked (Scm P.Double) := do
  let (audioA, audioB) ← scmAudios inA inB
  scmTakeS32Vector (opsMix P audioA audioB)

/-- `racs_scm_merge`. -/
def scmMerge (inA inB : Scm P.Double) : Checked (Scm P.Double) := do
  let (audioA, audioB) ← scmAudios inA inB
  if audioA.channels ≠ 1 ∨ audioB.channels ≠ 1 then throw "Inputs must be mono."
  if audioA.sampleRate ≠ audioB.sampleRate then throw "Inputs must have the same sample rate."
  if audioA.format &&& 0x0000ffff ≠ audioB.format &&& 0x0000ffff then
    throw "Inputs must have the same bit depth."
  scmTakeS32Vector (opsMerge P audioA audioB)

/-! ### The sum of two samples -/

/-- The sum of two samples is a `racs_int32`, and not one of the last 255 before 2^31. -/
def SumFits (a b : Int32) : Prop :=
  -2 ^ 31 ≤ a.toInt + b.toInt ∧ a.toInt + b.toInt ≤ 2 ^ 31 - 2 ^ 8

instance (a b : Int32) : Decidable (SumFits a b) := inferInstanceAs (Decidable (_ ∧ _))

/-- A `racs_int32` as a `float` is wrong by half a unit of the last place of 31 digits at most. -/
theorem natAbs_toFloat_sub_le (x : Int32) : (toFloat x - x.toInt).natAbs ≤ 2 ^ 6 := by
  rcases (Int32.le_toInt x).lt_or_eq with hlow | hmin
  · have hhigh := Int32.toInt_lt x
    have hhalf := @two_mul_natAbs_round_sub_le 24 7 x.toInt (by omega)
    rw [toFloat]
    omega
  · have hround : toFloat x = x.toInt := by
      rw [toFloat, ← hmin]
      decide
    rw [hround, sub_self]
    exact Nat.zero_le _

/-- The sum of two samples that fits is converted, also where rounding leads below -2^31. -/
theorem mixSample_eq_some {a b : Int32} (hfits : SumFits a b) :
    ∃ z, mixSample a b = some z ∧ z.toInt = addFloat (toFloat a) (toFloat b) := by
  obtain ⟨hlow, hhigh⟩ := hfits
  have ha := natAbs_toFloat_sub_le a
  have hb := natAbs_toFloat_sub_le b
  have hround : (round 24 (toFloat a + toFloat b)).natAbs ≤ 2 ^ 31 := by
    rw [natAbs_round]
    exact roundNat_le_two_pow (by decide) (by decide) (by omega)
  have herror := natAbs_round_sub_le 24 (toFloat a + toFloat b)
  have hrange : -2 ^ 31 ≤ addFloat (toFloat a) (toFloat b) ∧
      addFloat (toFloat a) (toFloat b) < 2 ^ 31 := by
    rw [addFloat]
    rcases le_or_gt (toFloat a + toFloat b) (-2 ^ 31) with hbelow | habove
    · omega
    · have hhalf := @two_mul_natAbs_round_sub_le 24 7 (toFloat a + toFloat b) (by omega)
      omega
  exact ⟨_, if_pos hrange, Int32.toInt_ofInt_of_le hrange.1 hrange.2⟩

/-- A mixed sample is nearly the sum of the two samples, and exactly where 24 digits are enough or
the samples cancel out. -/
structure NearSum (a b z : Int32) : Prop where
  error : 2 ^ 22 * (z.toInt - (a.toInt + b.toInt)).natAbs ≤ a.toInt.natAbs + b.toInt.natAbs
  eq_sum : a.toInt.natAbs ≤ 2 ^ 24 → b.toInt.natAbs ≤ 2 ^ 24 →
    (a.toInt + b.toInt).natAbs ≤ 2 ^ 24 → z.toInt = a.toInt + b.toInt
  eq_zero : a.toInt + b.toInt = 0 → z = 0

theorem nearSum_addFloat {a b z : Int32} (hz : z.toInt = addFloat (toFloat a) (toFloat b)) :
    NearSum a b z := by
  rw [addFloat] at hz
  refine ⟨?_, fun ha hb hsum => ?_, fun hcancel => ?_⟩
  · -- each of the three roundings is wrong by a 2^24-th of what it rounds
    have ha := natAbs_round_sub_le 24 a.toInt
    have hb := natAbs_round_sub_le 24 b.toInt
    have hab := natAbs_round_sub_le 24 (toFloat a + toFloat b)
    rw [hz]
    simp only [toFloat] at hab ⊢
    omega
  · rw [hz, toFloat, toFloat, round_of_natAbs_le (by decide) ha,
      round_of_natAbs_le (by decide) hb, round_of_natAbs_le (by decide) hsum]
  · have hneg : b.toInt = -a.toInt := by omega
    rw [toFloat, toFloat, hneg, round_neg, add_neg_cancel, round_zero] at hz
    exact Int32.toInt_inj.mp hz

theorem mixSample_comm (a b : Int32) : mixSample a b = mixSample b a := by
  rw [mixSample, mixSample, addFloat, addFloat, add_comm]

theorem mixSamples_comm (samplesA samplesB : List Int32) :
    mixSamples samplesA samplesB = mixSamples samplesB samplesA := by
  rw [mixSamples, mixSamples, max_comm]
  exact congrArg (List.mapM · _) (funext fun i => mixSample_comm _ _)

theorem mixSample_zero : mixSample 0 0 = some 0 := by decide

/-- A mixed vector, sample by sample; it is zero where both vectors have ended. -/
theorem mixSamples_eq_some_iff {samplesA samplesB samples : List Int32} :
    mixSamples samplesA samplesB = some samples ↔
      samples.length = max samplesA.length samplesB.length ∧
        ∀ i, mixSample (samplesA.getD i 0) (samplesB.getD i 0) = some (samples.getD i 0) := by
  rw [mixSamples, PartialRun.mapM_eq_some_iff, List.forall₂_iff_get]
  constructor
  · rintro ⟨hlen, h⟩
    rw [List.length_range] at hlen
    refine ⟨hlen.symm, fun i => ?_⟩
    rcases Nat.lt_or_ge i samples.length with hi | hi
    · have hget := h i (by rwa [List.length_range, hlen]) hi
      rw [List.get_eq_getElem, List.getElem_range] at hget
      rw [hget, List.getD_eq_getElem _ _ hi, List.get_eq_getElem]
    · obtain ⟨hA, hB⟩ := max_le_iff.mp (hlen ▸ hi)
      rw [List.getD_eq_default _ _ hi, List.getD_eq_default _ _ hA, List.getD_eq_default _ _ hB,
        mixSample_zero]
  · rintro ⟨hlen, h⟩
    refine ⟨by rw [List.length_range, hlen], fun i hrange hi => ?_⟩
    rw [List.get_eq_getElem, List.getElem_range, h i, List.getD_eq_getElem _ _ hi,
      List.get_eq_getElem]

theorem exists_mixSamples {samplesA samplesB : List Int32}
    (h : ∀ i, ∃ z, mixSample (samplesA.getD i 0) (samplesB.getD i 0) = some z) :
    ∃ samples, mixSamples samplesA samplesB = some samples := by
  choose z hz using h
  refine ⟨(List.range (max samplesA.length samplesB.length)).map z, ?_⟩
  rw [mixSamples, PartialRun.mapM_eq_some_iff, List.forall₂_map_right_iff, List.forall₂_same]
  exact fun i _ => hz i

/-- **Mixing nearly adds.** Two vectors whose sums fit are mixed, in any order of the arguments to
the same samples, each nearly the sum of the two at its place. -/
theorem opsMix_sum (audioA audioB : Audio)
    (hfits : ∀ i, SumFits (audioA.samples.getD i 0) (audioB.samples.getD i 0)) :
    ∃ samples, samples.length = max audioA.samples.length audioB.samples.length ∧
      (∀ i, NearSum (audioA.samples.getD i 0) (audioB.samples.getD i 0) (samples.getD i 0)) ∧
      opsMix P audioA audioB = some (if P.alloc (audioBytes samples.length) then
        some { audioA with samples := samples } else none) ∧
      opsMix P audioB audioA = some (if P.alloc (audioBytes samples.length) then
        some { audioB with samples := samples } else none) := by
  obtain ⟨samples, hmix⟩ := exists_mixSamples fun i =>
    (mixSample_eq_some (hfits i)).imp fun _ => And.left
  obtain ⟨hlen, hsamples⟩ := mixSamples_eq_some_iff.mp hmix
  refine ⟨samples, hlen, fun i => ?_, ?_, ?_⟩
  · obtain ⟨z, hz, hsum⟩ := mixSample_eq_some (hfits i)
    obtain rfl := Option.some.inj (hz.symm.trans (hsamples i))
    exact nearSum_addFloat hsum
  · rw [opsMix, hmix, hlen]
    split_ifs <;> rfl
  · rw [opsMix, mixSamples_comm, hmix, max_comm, hlen]
    split_ifs <;> rfl

/-- A loud mono vector with a shorter one, of which the loudest sample makes up for the loud one. -/
theorem opsMix_sum_loud :
    (∀ i, SumFits ([2147483647, 5, -3].getD i 0) ([-2147483647, 7].getD i 0)) ∧
    ∃ samples, samples.length = 3 ∧
      (∀ i, NearSum ([2147483647, 5, -3].getD i 0) ([-2147483647, 7].getD i 0)
        (samples.getD i 0)) ∧
      opsMix .rational ⟨48000, 0x00010020, [2147483647, 5, -3]⟩
          ⟨48000, 0x00010020, [-2147483647, 7]⟩ =
        some (some ⟨48000, 0x00010020, samples⟩) := by
  have hfits : ∀ i, SumFits ([2147483647, 5, -3].getD i 0) ([-2147483647, 7].getD i 0) := by
    intro i
    match i with
    | 0 => decide
    | 1 => decide
    | 2 => decide
    | i + 3 => exact (by decide : SumFits 0 0)
  obtain ⟨samples, hlen, hsum, hmix, -⟩ := opsMix_sum .rational
    ⟨48000, 0x00010020, [2147483647, 5, -3]⟩ ⟨48000, 0x00010020, [-2147483647, 7]⟩ hfits
  refine ⟨hfits, samples, hlen, hsum, hmix.trans ?_⟩
  rw [hlen]
  rfl

/-! ### Channels -/

/-- An operation on the results of two others. -/
def onBoth (op : Audio → Audio → Option (Option Audio)) (outA outB : Option (Option Audio)) :
    Option (Option Audio) :=
  outA.bind fun a => outB.bind fun b => nonNull (fun audioA => nonNull (op audioA) b) a

@[simp] theorem onBoth_some (op : Audio → Audio → Option (Option Audio)) (a b : Audio) :
    onBoth op (some (some a)) (some (some b)) = op a b := rfl

theorem getD_mergeSamples (samplesA samplesB : List Int32) (i : ℕ) :
    (mergeSamples samplesA samplesB).getD i 0 =
      if i % 2 = 0 then samplesA.getD (i / 2) 0 else samplesB.getD (i / 2) 0 := by
  rcases Nat.lt_or_ge i (mergeSamples samplesA samplesB).length with hi | hi
  · rw [List.getD_eq_getElem _ _ hi]
    simp only [mergeSamples_eq, List.getElem_map, List.getElem_range]
  · rw [List.getD_eq_default _ _ hi]
    rw [length_mergeSamples] at hi
    rw [List.getD_eq_default samplesA _ (by omega), List.getD_eq_default samplesB _ (by omega),
      ite_self]

theorem mixSamples_mergeSamples {left right left' right' left'' right'' : List Int32}
    (hleft : mixSamples left left' = some left'')
    (hright : mixSamples right right' = some right'') :
    mixSamples (mergeSamples left right) (mergeSamples left' right') =
      some (mergeSamples left'' right'') := by
  obtain ⟨hlen, hleft⟩ := mixSamples_eq_some_iff.mp hleft
  obtain ⟨hlen', hright⟩ := mixSamples_eq_some_iff.mp hright
  refine mixSamples_eq_some_iff.mpr ⟨?_, fun i => ?_⟩
  · simp only [length_mergeSamples, hlen, hlen']
    omega
  · rw [getD_mergeSamples, getD_mergeSamples, getD_mergeSamples]
    split_ifs
    · exact hleft _
    · exact hright _

/-- Two vectors in turn are mixed with two others as each of them is with one of these. -/
theorem mixSamples_merge (left right left' right' : List Int32) :
    mixSamples (mergeSamples left right) (mergeSamples left' right') =
      (mixSamples left left').bind fun left'' => (mixSamples right right').map fun right'' =>
        mergeSamples left'' right'' := by
  ext samples
  simp only [Option.bind_eq_some_iff, Option.map_eq_some_iff]
  constructor
  · intro hmix
    have hsamples := (mixSamples_eq_some_iff.mp hmix).2
    simp only [getD_mergeSamples] at hsamples
    obtain ⟨left'', hleft⟩ : ∃ left'', mixSamples left left' = some left'' := by
      refine exists_mixSamples fun i => ⟨samples.getD (i * 2) 0, ?_⟩
      have hi := hsamples (i * 2)
      rwa [if_pos (by omega), if_pos (by omega), Nat.mul_div_cancel _ two_pos] at hi
    obtain ⟨right'', hright⟩ : ∃ right'', mixSamples right right' = some right'' := by
      refine exists_mixSamples fun i => ⟨samples.getD (i * 2 + 1) 0, ?_⟩
      have hi := hsamples (i * 2 + 1)
      rwa [if_neg (by omega), if_neg (by omega), show (i * 2 + 1) / 2 = i by omega] at hi
    refine ⟨left'', hleft, right'', hright, ?_⟩
    exact Option.some.inj ((mixSamples_mergeSamples hleft hright).symm.trans hmix)
  · rintro ⟨left'', hleft, right'', hright, rfl⟩
    exact mixSamples_mergeSamples hleft hright

/-- A channel of a stereo vector, as `racs_ops_split` returns it. -/
def Audio.channel (audio : Audio) (channel : ℕ) : Audio :=
  ⟨audio.sampleRate, audio.format &&& 0x0000ffff ||| 0x00010000,
    channelSamples audio.samples channel⟩

section Memory

variable {P}

/-- There is memory for vectors with up to so many samples. -/
def Platform.HasMemory (P : Platform) (samples : ℕ) : Prop :=
  ∀ n ≤ samples, P.alloc (audioBytes n) = true

theorem opsMix_eq {audioA audioB : Audio} {n : ℕ} (hmem : P.HasMemory n)
    (hA : audioA.samples.length ≤ n) (hB : audioB.samples.length ≤ n) :
    opsMix P audioA audioB = (mixSamples audioA.samples audioB.samples).map fun samples =>
      some { audioA with samples := samples } :=
  if_pos (hmem _ (max_le hA hB))

/-- Two mixed vectors that are put together as the channels of one. -/
theorem onBoth_opsMerge_opsMix {left right left' right' : Audio} {n : ℕ}
    (hmem : P.HasMemory (n * 2)) (hmono : left.channels = 1) (hmono' : right.channels = 1)
    (hrate : left.sampleRate = right.sampleRate)
    (hdepth : left.format &&& 0x0000ffff = right.format &&& 0x0000ffff)
    (hleft : max left.samples.length left'.samples.length ≤ n)
    (hright : max right.samples.length right'.samples.length ≤ n) :
    onBoth (opsMerge P) (opsMix P left left') (opsMix P right right') =
      (mixSamples (mergeSamples left.samples right.samples)
        (mergeSamples left'.samples right'.samples)).map fun samples =>
          some ⟨left.sampleRate, left.format &&& 0x0000ffff ||| 0x00020000, samples⟩ := by
  obtain ⟨hl, hl'⟩ := max_le_iff.mp hleft
  obtain ⟨hr, hr'⟩ := max_le_iff.mp hright
  rw [mixSamples_merge, opsMix_eq hmem (by omega) (by omega), opsMix_eq hmem (by omega) (by omega)]
  cases hmix : mixSamples left.samples left'.samples with
  | none => rfl
  | some samples =>
    cases hmix' : mixSamples right.samples right'.samples with
    | none => rfl
    | some samples' =>
      have hlen := (mixSamples_eq_some_iff.mp hmix).1
      have hlen' := (mixSamples_eq_some_iff.mp hmix').1
      have hmerge := @opsMerge_eq P { left with samples := samples }
        { right with samples := samples' } hmono hmono' hrate hdepth
      dsimp only at hmerge
      rw [if_pos (hmem _ (Nat.mul_le_mul_right 2 (by omega)))] at hmerge
      exact hmerge

/-- Mixing stereo vectors is mixing their channels. -/
theorem opsMix_stereo {audioA audioB : Audio} (hstereoA : audioA.channels = 2)
    (hstereoB : audioB.channels = 2) (hevenA : audioA.samples.length % 2 = 0)
    (hevenB : audioB.samples.length % 2 = 0)
    (hmem : P.HasMemory (max audioA.samples.length audioB.samples.length)) :
    opsMix P audioA audioB = onBoth (opsMerge P)
      (onBoth (opsMix P) (opsSplit P audioA 0) (opsSplit P audioB 0))
      (onBoth (opsMix P) (opsSplit P audioA 1) (opsSplit P audioB 1)) := by
  have hsplit : ∀ audio : Audio, audio.channels = 2 → ∀ channel : UInt16, channel.toNat < 2 →
      audio.samples.length ≤ max audioA.samples.length audioB.samples.length →
      opsSplit P audio channel = some (some (audio.channel channel.toNat)) := by
    intro audio hstereo channel hchannel hle
    rw [opsSplit_eq P hstereo hchannel, if_pos (hmem _ (by omega)), Audio.channel]
  have hhalf : P.HasMemory (max audioA.samples.length audioB.samples.length / 2 * 2) :=
    fun m hm => hmem m (hm.trans (Nat.div_mul_le_self _ _))
  have hlen : ∀ channel, max (audioA.channel channel).samples.length
      (audioB.channel channel).samples.length ≤
        max audioA.samples.length audioB.samples.length / 2 := by
    intro channel
    simp only [Audio.channel, length_channelSamples]
    omega
  rw [hsplit audioA hstereoA 0 (by decide) (le_max_left _ _),
    hsplit audioB hstereoB 0 (by decide) (le_max_right _ _),
    hsplit audioA hstereoA 1 (by decide) (le_max_left _ _),
    hsplit audioB hstereoB 1 (by decide) (le_max_right _ _), UInt16.toNat_zero, UInt16.toNat_one,
    onBoth_some, onBoth_some,
    @onBoth_opsMerge_opsMix P (audioA.channel 0) (audioA.channel 1) (audioB.channel 0)
      (audioB.channel 1) _ hhalf (channels_mono _ _ _) (channels_mono _ _ _) rfl rfl (hlen 0)
      (hlen 1), opsMix_eq hmem (le_max_left _ _) (le_max_right _ _)]
  simp only [Audio.channel, mergeSamples_channelSamples hevenA,
    mergeSamples_channelSamples hevenB, stereo_of_mono hstereoA]

/-- Mixing stereo vectors that were put together is putting together what their channels are mixed
to. -/
theorem opsMix_mono {left right left' right' : Audio} {n : ℕ} (hmem : P.HasMemory (n * 2))
    (hmono : left.channels = 1 ∧ right.channels = 1 ∧ left'.channels = 1 ∧ right'.channels = 1)
    (hrate : left.sampleRate = right.sampleRate ∧ left'.sampleRate = right'.sampleRate)
    (hdepth : left.format &&& 0x0000ffff = right.format &&& 0x0000ffff ∧
      left'.format &&& 0x0000ffff = right'.format &&& 0x0000ffff)
    (hleft : max left.samples.length left'.samples.length ≤ n)
    (hright : max right.samples.length right'.samples.length ≤ n) :
    onBoth (opsMerge P) (opsMix P left left') (opsMix P right right') =
      onBoth (opsMix P) (opsMerge P left right) (opsMerge P left' right') := by
  rw [onBoth_opsMerge_opsMix hmem hmono.1 hmono.2.1 hrate.1 hdepth.1 hleft hright,
    opsMerge_eq P hmono.1 hmono.2.1 hrate.1 hdepth.1,
    opsMerge_eq P hmono.2.2.1 hmono.2.2.2 hrate.2 hdepth.2,
    if_pos (hmem _ (by omega)), if_pos (hmem _ (by omega)), onBoth_some,
    opsMix_eq hmem (by rw [length_mergeSamples]; omega) (by rw [length_mergeSamples]; omega)]

end Memory

/-- **Mixing treats every channel for itself**, with the header of the first vector. -/
theorem opsMix_channels :
    (∀ audioA audioB : Audio, audioA.channels = 2 → audioB.channels = 2 →
      audioA.samples.length % 2 = 0 → audioB.samples.length % 2 = 0 →
      P.HasMemory (max audioA.samples.length audioB.samples.length) →
      opsMix P audioA audioB = onBoth (opsMerge P)
        (onBoth (opsMix P) (opsSplit P audioA 0) (opsSplit P audioB 0))
        (onBoth (opsMix P) (opsSplit P audioA 1) (opsSplit P audioB 1))) ∧
    ∀ left right left' right' : Audio, left.channels = 1 → right.channels = 1 →
      left'.channels = 1 → right'.channels = 1 →
      left.sampleRate = right.sampleRate → left'.sampleRate = right'.sampleRate →
      left.format &&& 0x0000ffff = right.format &&& 0x0000ffff →
      left'.format &&& 0x0000ffff = right'.format &&& 0x0000ffff →
      P.HasMemory (max (max left.samples.length left'.samples.length)
        (max right.samples.length right'.samples.length) * 2) →
      onBoth (opsMerge P) (opsMix P left left') (opsMix P right right') =
        onBoth (opsMix P) (opsMerge P left right) (opsMerge P left' right') :=
  ⟨fun _ _ hstereoA hstereoB hevenA hevenB hmem =>
      opsMix_stereo hstereoA hstereoB hevenA hevenB hmem,
    fun _ _ _ _ hleft hright hleft' hright' hrate hrate' hdepth hdepth' hmem =>
      opsMix_mono hmem ⟨hleft, hright, hleft', hright'⟩ ⟨hrate, hrate'⟩ ⟨hdepth, hdepth'⟩
        (le_max_left _ _) (le_max_right _ _)⟩

/-- Two frames with one. -/
theorem opsMix_channels_frames :
    onBoth (opsMerge .rational)
        (onBoth (opsMix .rational) (opsSplit .rational ⟨48000, 0x00020010, [1, 2, 3, 4]⟩ 0)
          (opsSplit .rational ⟨48000, 0x00020010, [10, 20]⟩ 0))
        (onBoth (opsMix .rational) (opsSplit .rational ⟨48000, 0x00020010, [1, 2, 3, 4]⟩ 1)
          (opsSplit .rational ⟨48000, 0x00020010, [10, 20]⟩ 1)) =
      some (some ⟨48000, 0x00020010, [11, 22, 3, 4]⟩) := by
  refine ((opsMix_channels .rational).1 ⟨48000, 0x00020010, [1, 2, 3, 4]⟩
    ⟨48000, 0x00020010, [10, 20]⟩ (by decide) (by decide) (by decide) (by decide) ?_).symm.trans
    (by decide)
  intro n hn
  have hn : n ≤ 4 := hn
  refine decide_eq_true ?_
  rw [audioBytes]
  omega

end Racs
