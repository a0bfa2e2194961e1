import Racs.Foundation.PartialRun
import Racs.Foundation.Ramp
import Racs.Ops

/-!
# Fades

`racs_ops_fade` (`ops.c`) scales every sample with a gain. Over the first samples the gain goes up
from zero to one, over the last ones it goes down again, and where the two ramps overlap the smaller
one counts. A count of samples that is greater than the number of samples is cut down to it before
the loop.

The gain is computed with fractions here. How seconds become a count of samples is left open, and so
is whether there is memory for the result.

## Main definitions

* `Racs.checkedFadeGain` — the gain, with the subtractions and divisions of the loop.
* `Racs.Fades` — the vector is faded in and out, and otherwise left as it is.

## Main results

* `Racs.checkedFadeGain_eq` — no subtraction goes below zero, and no division is by zero.
* `Racs.opsFade_fades` — FADE fades.
-/

namespace Racs

open PartialRun Ramp

/-! ### The gain -/

/-- The difference of two numbers without sign, none when it would wrap around. -/
def checkedSub (a b : ℕ) : Option ℕ := if b ≤ a then some (a - b) else none

/-- The quotient of two numbers as a fraction, none when it would be by zero. -/
def checkedDiv (a b : ℕ) : Option ℚ := if b = 0 then none else some ((a : ℚ) / b)

/-- The gain of a sample as the loop of `racs_ops_fade` computes it, for counts that have been cut
down. -/
def checkedFadeGain (len fadeIn fadeOut i : ℕ) : Option ℚ :=
  (if i < fadeIn then checkedDiv i fadeIn else some 1).bind fun gain =>
  (checkedSub len fadeOut).bind fun start =>
  if start ≤ i then
    (checkedSub i start).bind fun fadeOutPos =>
    (checkedDiv fadeOutPos fadeOut).map fun quotient =>
      if 1 - quotient < gain then 1 - quotient else gain
  else some gain

/-- Fractions as doubles, with any conversion to a size and any allocator. -/
def Platform.exact (toSize : Option ℚ → Option UInt64) (alloc : ℕ → Bool) : Platform :=
  { Platform.rational with toSize := toSize, alloc := alloc }

/-- The two ramps of a fade, of which the smaller one counts. -/
def rampGain (len fadeIn fadeOut i : ℕ) : ℚ :=
  min (rise fadeIn i) (fall (len - fadeOut) fadeOut i)

variable {toSize : Option ℚ → Option UInt64} {alloc : ℕ → Bool} {len fadeIn fadeOut i j : ℕ}

/-- **No subtraction goes below zero, and no division is by zero**: the gain is that of the two
ramps. -/
theorem checkedFadeGain_eq (hlen : fadeOut ≤ len) (hi : i < len) :
    checkedFadeGain len fadeIn fadeOut i = some (rampGain len fadeIn fadeOut i) := by
  have hrise : (if i < fadeIn then checkedDiv i fadeIn else some 1) = some (rise fadeIn i) := by
    rw [rise]
    split_ifs with h
    · rw [checkedDiv, if_neg (by omega)]
    · rfl
  rw [checkedFadeGain, hrise, checkedSub, if_pos hlen, Option.bind_some, Option.bind_some, rampGain,
    fall]
  by_cases hstart : len - fadeOut ≤ i
  · rw [if_pos hstart, if_pos hstart, checkedSub, if_pos hstart, Option.bind_some, checkedDiv,
      if_neg (by omega), Option.map_some, min_comm, min_def_lt]
  · rw [if_neg hstart, if_neg hstart, min_eq_left rise_le_one]

/-- A fraction as a double. -/
def fraction (toSize : Option ℚ → Option UInt64) (alloc : ℕ → Bool) (q : ℚ) :
    (Platform.exact toSize alloc).Double := some q

theorem exact_div {a b : ℕ} (hb : b ≠ 0) : (Platform.exact toSize alloc).div
    ((Platform.exact toSize alloc).ofInt a) ((Platform.exact toSize alloc).ofInt b) =
      fraction toSize alloc (a / b) := by
  simp [Platform.exact, Platform.rational, fraction, hb]

theorem exact_sub (q : ℚ) : (Platform.exact toSize alloc).sub
    ((Platform.exact toSize alloc).ofInt 1) (fraction toSize alloc q) =
      fraction toSize alloc (1 - q) := by
  simp [Platform.exact, Platform.rational, fraction]

theorem exact_lt (q q' : ℚ) : (Platform.exact toSize alloc).lt (fraction toSize alloc q)
    (fraction toSize alloc q') = decide (q < q') := rfl

/-- The gain of the code is that one. -/
theorem fadeGain_exact (hlen : fadeOut ≤ len) (hi : i < len) :
    fadeGain (.exact toSize alloc) len fadeIn fadeOut i =
      fraction toSize alloc (rampGain len fadeIn fadeOut i) := by
  have hrise : (if i < fadeIn then (Platform.exact toSize alloc).div
      ((Platform.exact toSize alloc).ofInt i) ((Platform.exact toSize alloc).ofInt fadeIn)
        else (Platform.exact toSize alloc).ofInt 1) = fraction toSize alloc (rise fadeIn i) := by
    rw [rise]
    split_ifs with h
    · exact exact_div (by omega)
    · rfl
  simp only [fadeGain]
  rw [hrise, rampGain, fall]
  by_cases hstart : len - fadeOut ≤ i
  · rw [if_pos hstart, if_pos hstart, exact_div (by omega), exact_sub, exact_lt, min_comm,
      min_def_lt, apply_ite (fraction toSize alloc)]
    simp only [decide_eq_true_eq]
  · rw [if_neg hstart, if_neg hstart, min_eq_left rise_le_one]

theorem rampGain_mem (hlen : fadeOut ≤ len) (hi : i < len) :
    0 ≤ rampGain len fadeIn fadeOut i ∧ rampGain len fadeIn fadeOut i ≤ 1 :=
  ⟨le_min rise_nonneg (fall_nonneg (by omega)), (min_le_left _ _).trans rise_le_one⟩

/-- In front of the last samples the gain goes up. -/
theorem rampGain_le_of_le (hij : i ≤ j) (hj : j < len - fadeOut) :
    rampGain len fadeIn fadeOut i ≤ rampGain len fadeIn fadeOut j := by
  rw [rampGain, rampGain, fall_of_lt hj, fall_of_lt (hij.trans_lt hj)]
  exact min_le_min_right 1 (rise_monotone fadeIn hij)

/-- Behind the first samples it goes down. -/
theorem rampGain_le_of_ge (hi : fadeIn ≤ i) (hij : i ≤ j) :
    rampGain len fadeIn fadeOut j ≤ rampGain len fadeIn fadeOut i := by
  rw [rampGain, rampGain, rise_of_le hi, rise_of_le (hi.trans hij)]
  exact min_le_min_left 1 (fall_antitone (len - fadeOut) fadeOut hij)

theorem rampGain_eq_one (hin : fadeIn ≤ i) (hout : i < len - fadeOut) :
    rampGain len fadeIn fadeOut i = 1 := by
  rw [rampGain, rise_of_le hin, fall_of_lt hout, min_self]

/-! ### The samples -/

/-- A sample scaled with a gain. -/
def fadedSample (x : Int32) (gain : ℚ) : Int32 := Int32.ofInt (towardsZero (x.toInt * gain))

/-- The second vector is the first one faded in over so many samples at its front, and faded out
over so many at its end. -/
structure Fades (audio faded : Audio) (fadeIn fadeOut : ℕ) (gain : ℕ → ℚ) : Prop where
  sampleRate : faded.sampleRate = audio.sampleRate
  format : faded.format = audio.format
  length : faded.samples.length = audio.samples.length
  /-- The gain is the one that the loop computes, without a fault. -/
  defined : ∀ i < audio.samples.length, checkedFadeGain audio.samples.length
    (min fadeIn audio.samples.length) (min fadeOut audio.samples.length) i = some (gain i)
  scaled : ∀ i (h : i < faded.samples.length) (h' : i < audio.samples.length),
    faded.samples[i].toInt = towardsZero (audio.samples[i].toInt * gain i)
  between : ∀ i (h : i < faded.samples.length) (h' : i < audio.samples.length),
    (0 ≤ faded.samples[i].toInt ∧ faded.samples[i].toInt ≤ audio.samples[i].toInt) ∨
      (audio.samples[i].toInt ≤ faded.samples[i].toInt ∧ faded.samples[i].toInt ≤ 0)
  rises : ∀ i j, i ≤ j → j + fadeOut < audio.samples.length → gain i ≤ gain j
  falls : ∀ i j, fadeIn ≤ i → i ≤ j → j < audio.samples.length → gain j ≤ gain i
  unchanged : ∀ i, fadeIn ≤ i → i + fadeOut < audio.samples.length →
    faded.samples[i]? = audio.samples[i]?

/-- A sample scaled with a gain between zero and one is a sample. -/
theorem toInt_fadedSample {q : ℚ} (h : 0 ≤ q ∧ q ≤ 1) (x : Int32) :
    -2 ^ 31 ≤ towardsZero (x.toInt * q) ∧ towardsZero (x.toInt * q) < 2 ^ 31 ∧
      (fadedSample x q).toInt = towardsZero (x.toInt * q) := by
  have hlow := x.le_toInt
  have hhigh := x.toInt_lt
  rcases towardsZero_mul_mem h.1 h.2 x.toInt with ⟨hzero, hx⟩ | ⟨hx, hzero⟩
  · have hlt := hx.trans_lt hhigh
    have hle : -2 ^ 31 ≤ towardsZero (x.toInt * q) := le_trans (by decide) hzero
    exact ⟨hle, hlt, Int32.toInt_ofInt_of_le hle hlt⟩
  · have hle := hlow.trans hx
    have hlt : towardsZero (x.toInt * q) < 2 ^ 31 := lt_of_le_of_lt hzero (by decide)
    exact ⟨hle, hlt, Int32.toInt_ofInt_of_le hle hlt⟩

/-- One round of the loop. -/
theorem toInt32_exact {q : ℚ} (h : 0 ≤ q ∧ q ≤ 1) (x : Int32) :
    (Platform.exact toSize alloc).toInt32 ((Platform.exact toSize alloc).mul
      ((Platform.exact toSize alloc).ofInt x.toInt) (fraction toSize alloc q)) =
        some (fadedSample x q) := by
  obtain ⟨hlow, hhigh, -⟩ := toInt_fadedSample h x
  exact if_pos ⟨hlow, hhigh⟩

/-- The vector that the loop fills. -/
def Audio.faded (audio : Audio) (gain : ℕ → ℚ) : Audio :=
  { audio with samples := audio.samples.zipIdx.map fun p => fadedSample p.1 (gain p.2) }

theorem Audio.getElem_faded (audio : Audio) (gain : ℕ → ℚ) {i : ℕ}
    (h : i < (audio.faded gain).samples.length) (h' : i < audio.samples.length) :
    (audio.faded gain).samples[i] = fadedSample audio.samples[i] (gain i) := by
  simp [Audio.faded]

/-- The loop fills that vector. -/
theorem Audio.fadeLoop_eq (audio : Audio) (hlen : fadeOut ≤ audio.samples.length) :
    audio.samples.zipIdx.mapM (fun ((x, i) : Int32 × ℕ) => (Platform.exact toSize alloc).toInt32
      ((Platform.exact toSize alloc).mul ((Platform.exact toSize alloc).ofInt x.toInt)
        (fadeGain (.exact toSize alloc) audio.samples.length fadeIn fadeOut i))) =
      some (audio.faded (rampGain audio.samples.length fadeIn fadeOut)).samples := by
  rw [mapM_eq_some_iff, Audio.faded, List.forall₂_map_right_iff, List.forall₂_same]
  rintro ⟨x, i⟩ hp
  have hi : i < audio.samples.length := by simpa using List.snd_lt_of_mem_zipIdx hp
  dsimp only
  rw [fadeGain_exact hlen hi]
  exact toInt32_exact (rampGain_mem hlen hi) x

/-- **FADE fades**, whatever the counts of samples are, unless there is no memory for the
result. -/
theorem opsFade_fades (audio : Audio) {fadeInSeconds fadeOutSeconds : Option ℚ}
    {fadeIn fadeOut : UInt64}
    (hin : sampleCount (.exact toSize alloc) audio fadeInSeconds = some fadeIn)
    (hout : sampleCount (.exact toSize alloc) audio fadeOutSeconds = some fadeOut) :
    ∃ gain faded, Fades audio faded fadeIn.toNat fadeOut.toNat gain ∧
      opsFade (.exact toSize alloc) audio fadeInSeconds fadeOutSeconds =
        some (if alloc (audioBytes audio.samples.length) then some faded else none) := by
  set len := audio.samples.length with hlen
  set gain := rampGain len (min fadeIn.toNat len) (min fadeOut.toNat len) with hgain
  have hle : min fadeOut.toNat len ≤ len := min_le_right _ _
  have hmem : ∀ i < len, 0 ≤ gain i ∧ gain i ≤ 1 := fun i hi => rampGain_mem hle hi
  have hlength : (audio.faded gain).samples.length = len := by simp [Audio.faded, hlen]
  refine ⟨gain, audio.faded gain, ⟨rfl, rfl, hlength, ?_, ?_, ?_, ?_, ?_, ?_⟩, ?_⟩
  · exact fun i hi => checkedFadeGain_eq hle hi
  · intro i h h'
    rw [audio.getElem_faded gain h h']
    exact (toInt_fadedSample (hmem i h') _).2.2
  · intro i h h'
    rw [audio.getElem_faded gain h h', (toInt_fadedSample (hmem i h') _).2.2]
    exact towardsZero_mul_mem (hmem i h').1 (hmem i h').2 _
  · exact fun i j hij hj => rampGain_le_of_le hij (by omega)
  · exact fun i j hi hij hj => rampGain_le_of_ge (by omega) hij
  · intro i hi hend
    have hone : gain i = 1 := rampGain_eq_one (by omega) (by omega)
    have hsame : ∀ x : Int32, fadedSample x 1 = x := fun x => by
      rw [fadedSample, mul_one, towardsZero_intCast, Int32.ofInt_toInt]
    rw [List.getElem?_eq_getElem (hlength ▸ by omega), List.getElem?_eq_getElem (by omega),
      audio.getElem_faded gain _ (by omega), hone, hsame]
  · have hloop := @Audio.fadeLoop_eq toSize alloc (min fadeIn.toNat len) (min fadeOut.toNat len)
      audio hle
    have hmemory : (Platform.exact toSize alloc).alloc (audioBytes len) = alloc (audioBytes len) :=
      rfl
    simp only [opsFade]
    rw [hin, hout, ← hlen, hmemory, Option.bind_some, Option.bind_some, hloop]
    split_ifs <;> rfl

/-- One second in and two seconds out, for a mono vector of two samples for each second: the ramps
overlap, and the second one is longer than the vector. -/
theorem opsFade_overlapping : ∃ gain faded,
    Fades ⟨2, 0x00010010, [100, -100, 100]⟩ faded 2 4 gain ∧
      opsFade .rational ⟨2, 0x00010010, [100, -100, 100]⟩ (some 1) (some 2) = some (some faded) :=
  @opsFade_fades Platform.rational.toSize Platform.rational.alloc ⟨2, 0x00010010, [100, -100, 100]⟩
    (some 1) (some 2) 2 4 (by decide +kernel) (by decide +kernel)

end Racs
