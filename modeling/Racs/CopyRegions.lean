import Racs.Ops
import Mathlib.Data.UInt

/-!
# The regions that TRIM and PAD copy

`racs_ops_trim` and `racs_ops_pad` add the numbers of samples of two durations in 64 bits. TRIM
compares the sum with the length of the payload, and copies what is left of the payload. PAD
allocates the sum of all sizes and copies the payload into it. When the sum wraps around, the
buffer and the payload do not have the room that is copied.

## Main definitions

* `Racs.trimLength`, `Racs.padLength` — the sizes that TRIM and PAD compute.
* `Racs.TrimInside`, `Racs.PadInside` — TRIM and PAD stay inside of their buffers.

## Main results

* `Racs.copyInside_iff` — when they do.
-/

namespace Racs

/-! ### The sizes in TRIM and PAD -/

variable (P : Platform)

/-- The number of samples that `racs_ops_trim` copies of a payload of `len` samples, behind the
first `leftTrim`, when it returns a buffer. -/
def trimLength (len leftTrim rightTrim : UInt64) : Option UInt64 :=
  if len ≤ leftTrim + rightTrim then none
  else if P.alloc (audioBytes (len - leftTrim - rightTrim).toNat) then
    some (len - leftTrim - rightTrim)
  else none

/-- The number of words in the buffer of `racs_ops_pad`, when it returns one. -/
def padLength (len leftPad rightPad : UInt64) : Option UInt64 :=
  let outLen := 2 + leftPad + len + rightPad
  if P.alloc (4 * outLen.toNat) then some outLen else none

theorem opsTrim_eq {audio : Audio} {leftSeconds rightSeconds : P.Double} {left right : UInt64}
    (hleft : sampleCount P audio leftSeconds = some left)
    (hright : sampleCount P audio rightSeconds = some right) :
    opsTrim P audio leftSeconds rightSeconds =
      match trimLength P (UInt64.ofNat audio.samples.length) left right with
      | none => some none
      | some copyLen => (loadSamples audio.samples left.toNat copyLen.toNat).map fun samples =>
          some { audio with samples := samples } := by
  simp only [opsTrim, hleft, hright, Option.bind_some, trimLength]
  split_ifs <;> rfl

theorem opsPad_eq {audio : Audio} {leftSeconds rightSeconds : P.Double} {left right : UInt64}
    (hleft : sampleCount P audio leftSeconds = some left)
    (hright : sampleCount P audio rightSeconds = some right) :
    opsPad P audio leftSeconds rightSeconds =
      match padLength P (UInt64.ofNat audio.samples.length) left right with
      | none => some none
      | some outLen =>
        if 2 + left.toNat + audio.samples.length ≤ outLen.toNat then
          some (some { audio with
            samples := List.replicate left.toNat 0 ++ audio.samples ++
              List.replicate (outLen.toNat - 2 - left.toNat - audio.samples.length) 0 })
        else none := by
  simp only [opsPad, hleft, hright, Option.bind_some, padLength]
  by_cases halloc : P.alloc (4 * (2 + left + UInt64.ofNat audio.samples.length + right).toNat)
  · rw [if_pos halloc, if_pos halloc]
  · rw [if_neg halloc, if_neg halloc]

/-- What TRIM copies: the length without the sum of the two counts, of which 64 bits are left. -/
theorem trimLength_eq_some_iff {len left right copyLen : UInt64} :
    trimLength P len left right = some copyLen ↔
      (left.toNat + right.toNat) % 2 ^ 64 < len.toNat ∧
        copyLen.toNat = len.toNat - (left.toNat + right.toNat) % 2 ^ 64 ∧
        P.alloc (audioBytes copyLen.toNat) = true := by
  have hle : len ≤ left + right ↔ len.toNat ≤ (left.toNat + right.toNat) % 2 ^ 64 := by
    rw [UInt64.le_iff_toNat_le, UInt64.toNat_add]
  have hsub : (left.toNat + right.toNat) % 2 ^ 64 < len.toNat →
      (len - left - right).toNat = len.toNat - (left.toNat + right.toNat) % 2 ^ 64 := by
    intro hlt
    have hlen := len.toNat_lt
    have hl := left.toNat_lt
    have hr := right.toNat_lt
    rw [UInt64.toNat_sub, UInt64.toNat_sub]
    omega
  rw [trimLength]
  constructor
  · intro h
    split_ifs at h with hnull halloc
    obtain rfl := Option.some.inj h
    have hlt := not_le.mp (hle.not.mp hnull)
    exact ⟨hlt, hsub hlt, halloc⟩
  · rintro ⟨hlt, heq, halloc⟩
    obtain rfl : len - left - right = copyLen := UInt64.toNat_inj.mp ((hsub hlt).trans heq.symm)
    rw [if_neg (hle.not.mpr (not_le.mpr hlt)), if_pos halloc]

/-- The size of the buffer of PAD, of which 64 bits are left. -/
theorem padLength_eq_some_iff {len left right outLen : UInt64} :
    padLength P len left right = some outLen ↔
      outLen.toNat = (2 + left.toNat + len.toNat + right.toNat) % 2 ^ 64 ∧
        P.alloc (4 * outLen.toNat) = true := by
  have hsum : (2 + left + len + right).toNat =
      (2 + left.toNat + len.toNat + right.toNat) % 2 ^ 64 := by
    have htwo : (2 : UInt64).toNat = 2 := rfl
    rw [UInt64.toNat_add, UInt64.toNat_add, UInt64.toNat_add, htwo]
    omega
  rw [padLength]
  constructor
  · intro h
    split_ifs at h with halloc
    obtain rfl := Option.some.inj h
    exact ⟨hsum, halloc⟩
  · rintro ⟨heq, halloc⟩
    obtain rfl : 2 + left + len + right = outLen := UInt64.toNat_inj.mp (hsum.trans heq.symm)
    exact if_pos halloc

/-- `racs_ops_trim` stays inside of its buffers: when it returns one, the samples that it copies are
in the payload, the buffer has room for them, and no sum or difference of sizes wraps around. -/
structure TrimInside (audio : Audio) (leftSeconds rightSeconds : P.Double)
    (left right : UInt64) : Prop where
  defined : opsTrim P audio leftSeconds rightSeconds ≠ none
  lengths : ∀ copyLen,
    trimLength P (UInt64.ofNat audio.samples.length) left right = some copyLen →
    left.toNat + right.toNat < 2 ^ 64 ∧
      left.toNat + copyLen.toNat + right.toNat = audio.samples.length ∧
      (2 + copyLen).toNat = 2 + copyLen.toNat

/-- `racs_ops_pad` stays inside of its buffers: when it returns one, the buffer has room for the
silence in front, the payload and the silence behind, and no sum of sizes wraps around. -/
structure PadInside (audio : Audio) (leftSeconds rightSeconds : P.Double)
    (left right : UInt64) : Prop where
  defined : opsPad P audio leftSeconds rightSeconds ≠ none
  lengths : ∀ outLen,
    padLength P (UInt64.ofNat audio.samples.length) left right = some outLen →
    2 + left.toNat + audio.samples.length + right.toNat < 2 ^ 64 ∧
      outLen.toNat = 2 + left.toNat + audio.samples.length + right.toNat

variable {audio : Audio} {leftSeconds rightSeconds : P.Double} {left right : UInt64}

theorem toNat_samples (hlen : audio.words.length < 2 ^ 64) :
    (UInt64.ofNat audio.samples.length).toNat = audio.samples.length := by
  rw [Audio.words, List.length_cons, List.length_cons] at hlen
  rw [UInt64.toNat_ofNat', Nat.mod_eq_of_lt (by omega)]

theorem loadSamples_eq_none_iff {samples : List Int32} {start n : ℕ} :
    loadSamples samples start n = none ↔ samples.length < start + n := by
  rw [loadSamples]
  split_ifs with h
  · exact iff_of_false id (not_lt.mpr h)
  · exact iff_of_true rfl (not_le.mp h)

/-- **When TRIM stays inside of its buffers**: the sum of the counts is less than 2^64, or what is
left of it covers the payload, or there is no memory for the samples that it does not cover. -/
theorem trimInside_iff (hlen : audio.words.length < 2 ^ 64)
    (hleft : sampleCount P audio leftSeconds = some left)
    (hright : sampleCount P audio rightSeconds = some right) :
    TrimInside P audio leftSeconds rightSeconds left right ↔
      (2 ^ 64 ≤ left.toNat + right.toNat →
        left.toNat + right.toNat - 2 ^ 64 < audio.samples.length →
        P.alloc (audioBytes
          (audio.samples.length - (left.toNat + right.toNat - 2 ^ 64))) = false) := by
  have hn := toNat_samples hlen
  have hl := left.toNat_lt
  have hr := right.toNat_lt
  rw [Audio.words, List.length_cons, List.length_cons] at hlen
  have hmod (hwrap : 2 ^ 64 ≤ left.toNat + right.toNat) :
      (left.toNat + right.toNat) % 2 ^ 64 = left.toNat + right.toNat - 2 ^ 64 := by
    omega
  constructor
  · rintro ⟨-, hlengths⟩ hwrap hlt
    by_contra halloc
    rw [Bool.not_eq_false] at halloc
    obtain ⟨copyLen, hcopy⟩ : ∃ copyLen : UInt64, copyLen.toNat =
        audio.samples.length - (left.toNat + right.toNat - 2 ^ 64) :=
      ⟨UInt64.ofNat (audio.samples.length - (left.toNat + right.toNat - 2 ^ 64)),
        by rw [UInt64.toNat_ofNat', Nat.mod_eq_of_lt (by omega)]⟩
    rw [← hcopy] at halloc
    rw [← hmod hwrap, ← hn] at hcopy hlt
    have hsum := (hlengths copyLen ((trimLength_eq_some_iff P).mpr ⟨hlt, hcopy, halloc⟩)).1
    omega
  · intro h
    have hlengths : ∀ copyLen,
        trimLength P (UInt64.ofNat audio.samples.length) left right = some copyLen →
        left.toNat + right.toNat < 2 ^ 64 ∧
          left.toNat + copyLen.toNat + right.toNat = audio.samples.length := by
      intro copyLen hsome
      obtain ⟨hlt, hcopy, halloc⟩ := (trimLength_eq_some_iff P).mp hsome
      rw [hn] at hlt hcopy
      by_cases hwrap : 2 ^ 64 ≤ left.toNat + right.toNat
      · rw [hmod hwrap] at hlt hcopy
        rw [hcopy, h hwrap hlt] at halloc
        cases halloc
      · omega
    refine ⟨?_, fun copyLen hsome => ?_⟩
    · rw [opsTrim_eq P hleft hright]
      rcases hsome : trimLength P (UInt64.ofNat audio.samples.length) left right with - | copyLen
      · exact Option.some_ne_none _
      · obtain ⟨-, hsum⟩ := hlengths copyLen hsome
        rw [Ne, Option.map_eq_none_iff, loadSamples_eq_none_iff]
        omega
    · obtain ⟨hsum, heq⟩ := hlengths copyLen hsome
      refine ⟨hsum, heq, ?_⟩
      have htwo : (2 : UInt64).toNat = 2 := rfl
      rw [UInt64.toNat_add, htwo]
      omega

/-- **When PAD stays inside of its buffers**: the sum of the sizes is less than 2^64, or there is
no memory for what is left of it. -/
theorem padInside_iff (hlen : audio.words.length < 2 ^ 64)
    (hleft : sampleCount P audio leftSeconds = some left)
    (hright : sampleCount P audio rightSeconds = some right) :
    PadInside P audio leftSeconds rightSeconds left right ↔
      (2 ^ 64 ≤ 2 + left.toNat + audio.samples.length + right.toNat →
        P.alloc (4 * ((2 + left.toNat + audio.samples.length + right.toNat) % 2 ^ 64)) =
          false) := by
  have hn := toNat_samples hlen
  have hr := right.toNat_lt
  constructor
  · rintro ⟨-, hlengths⟩ hwrap
    by_contra halloc
    rw [Bool.not_eq_false] at halloc
    obtain ⟨outLen, hout⟩ : ∃ outLen : UInt64, outLen.toNat =
        (2 + left.toNat + audio.samples.length + right.toNat) % 2 ^ 64 :=
      ⟨UInt64.ofNat _, UInt64.toNat_ofNat'⟩
    rw [← hout] at halloc
    rw [← hn] at hout
    have hsum := (hlengths outLen ((padLength_eq_some_iff P).mpr ⟨hout, halloc⟩)).1
    omega
  · intro h
    have hlengths : ∀ outLen,
        padLength P (UInt64.ofNat audio.samples.length) left right = some outLen →
        2 + left.toNat + audio.samples.length + right.toNat < 2 ^ 64 ∧
          outLen.toNat = 2 + left.toNat + audio.samples.length + right.toNat := by
      intro outLen hsome
      obtain ⟨hout, halloc⟩ := (padLength_eq_some_iff P).mp hsome
      rw [hn] at hout
      by_cases hwrap : 2 ^ 64 ≤ 2 + left.toNat + audio.samples.length + right.toNat
      · rw [hout, h hwrap] at halloc
        cases halloc
      · omega
    refine ⟨?_, hlengths⟩
    rw [opsPad_eq P hleft hright]
    rcases hsome : padLength P (UInt64.ofNat audio.samples.length) left right with - | outLen
    · exact Option.some_ne_none _
    · obtain ⟨-, hout⟩ := hlengths outLen hsome
      dsimp only
      rw [if_pos (by omega)]
      exact Option.some_ne_none _

/-- **When TRIM and PAD stay inside of their buffers.** -/
theorem copyInside_iff (hlen : audio.words.length < 2 ^ 64)
    (hleft : sampleCount P audio leftSeconds = some left)
    (hright : sampleCount P audio rightSeconds = some right) :
    (TrimInside P audio leftSeconds rightSeconds left right ↔
      (2 ^ 64 ≤ left.toNat + right.toNat →
        left.toNat + right.toNat - 2 ^ 64 < audio.samples.length →
        P.alloc (audioBytes
          (audio.samples.length - (left.toNat + right.toNat - 2 ^ 64))) = false)) ∧
      (PadInside P audio leftSeconds rightSeconds left right ↔
        (2 ^ 64 ≤ 2 + left.toNat + audio.samples.length + right.toNat →
          P.alloc (4 * ((2 + left.toNat + audio.samples.length + right.toNat) % 2 ^ 64)) =
            false)) :=
  ⟨trimInside_iff P hlen hleft hright, padInside_iff P hlen hleft hright⟩

/-- Two durations whose counts add up to 2^64: TRIM copies the one sample from behind the vector. -/
theorem not_trimInside_wrap :
    sampleCount .rational ⟨1, 0x00010010, [7]⟩ (some (2 ^ 63)) = some (2 ^ 63) ∧
      ¬ TrimInside .rational ⟨1, 0x00010010, [7]⟩ (some (2 ^ 63)) (some (2 ^ 63))
        (2 ^ 63) (2 ^ 63) := by
  refine ⟨by decide +kernel, fun h => h.defined ?_⟩
  decide +kernel

/-- One second off both ends of three, and silence of one second around them. -/
theorem copyInside_seconds :
    TrimInside .rational ⟨1, 0x00010010, [7, 8, 9]⟩ (some 1) (some 1) 1 1 ∧
      PadInside .rational ⟨1, 0x00010010, [7, 8, 9]⟩ (some 1) (some 1) 1 1 := by
  have h := @copyInside_iff .rational ⟨1, 0x00010010, [7, 8, 9]⟩ (some 1) (some 1) 1 1 (by decide)
    (by decide +kernel) (by decide +kernel)
  exact ⟨h.1.mpr fun hwrap => absurd hwrap (by decide),
    h.2.mpr fun hwrap => absurd hwrap (by decide)⟩

end Racs
