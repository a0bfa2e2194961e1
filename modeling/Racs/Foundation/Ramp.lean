import Mathlib.Algebra.Order.Field.Basic
import Mathlib.Algebra.Order.Floor.Ring
import Mathlib.Data.Rat.Floor

/-!
# Ramps and truncation

A rising ramp goes from zero up to one over its first `n` places, and a falling ramp goes down from
one behind a place `start`. What is scaled by a factor between zero and one and truncated towards
zero is between zero and itself.

## Main definitions

* `Ramp.rise`, `Ramp.fall` — the ramps.
* `Ramp.towardsZero` — truncation.

## Main results

* `Ramp.rise_monotone`, `Ramp.fall_antitone`.
* `Ramp.towardsZero_mul_mem` — a scaled and truncated integer.
-/

namespace Ramp

section Field

variable {𝕜 : Type*} [Field 𝕜] {start n i j : ℕ}

/-- The ramp from zero up to one over the first `n` places. -/
def rise (n i : ℕ) : 𝕜 := if i < n then (i : 𝕜) / n else 1

/-- The ramp from one down to zero over the `n` places from `start` on. -/
def fall (start n i : ℕ) : 𝕜 := if start ≤ i then 1 - ((i - start : ℕ) : 𝕜) / n else 1

theorem rise_of_le (h : n ≤ i) : rise n i = (1 : 𝕜) := if_neg (not_lt.mpr h)

theorem fall_of_lt (h : i < start) : fall start n i = (1 : 𝕜) := if_neg (not_le.mpr h)

variable [LinearOrder 𝕜] [IsStrictOrderedRing 𝕜]

theorem rise_nonneg : 0 ≤ (rise n i : 𝕜) := by
  rw [rise]
  split_ifs
  · exact div_nonneg (Nat.cast_nonneg i) (Nat.cast_nonneg n)
  · exact zero_le_one

theorem rise_le_one : (rise n i : 𝕜) ≤ 1 := by
  rw [rise]
  split_ifs with h
  · exact div_le_one_of_le₀ (Nat.cast_le.mpr h.le) (Nat.cast_nonneg n)
  · exact le_rfl

theorem rise_monotone (n : ℕ) : Monotone (rise n : ℕ → 𝕜) := by
  intro i j hij
  rcases lt_or_ge j n with hj | hj
  · rw [rise, rise, if_pos (hij.trans_lt hj), if_pos hj]
    exact div_le_div_of_nonneg_right (Nat.cast_le.mpr hij) (Nat.cast_nonneg n)
  · exact rise_le_one.trans_eq (rise_of_le hj).symm

theorem fall_le_one : (fall start n i : 𝕜) ≤ 1 := by
  rw [fall]
  split_ifs
  · exact sub_le_self 1 (div_nonneg (Nat.cast_nonneg _) (Nat.cast_nonneg n))
  · exact le_rfl

/-- The ramp does not leave the places that it is for below zero. -/
theorem fall_nonneg (h : i ≤ start + n) : 0 ≤ (fall start n i : 𝕜) := by
  rw [fall]
  split_ifs
  · have hle : i - start ≤ n := by omega
    exact sub_nonneg.mpr (div_le_one_of_le₀ (Nat.cast_le.mpr hle) (Nat.cast_nonneg n))
  · exact zero_le_one

theorem fall_antitone (start n : ℕ) : Antitone (fall start n : ℕ → 𝕜) := by
  intro i j hij
  rcases lt_or_ge i start with hi | hi
  · exact fall_le_one.trans_eq (fall_of_lt hi).symm
  · rw [fall, fall, if_pos hi, if_pos (hi.trans hij)]
    have hle : i - start ≤ j - start := Nat.sub_le_sub_right hij start
    exact sub_le_sub_left
      (div_le_div_of_nonneg_right (Nat.cast_le.mpr hle) (Nat.cast_nonneg n)) 1

end Field

/-! ### Truncation -/

/-- The integer part of a rational number. -/
def towardsZero (q : ℚ) : ℤ := q.num.tdiv q.den

theorem towardsZero_of_nonneg {q : ℚ} (h : 0 ≤ q) : towardsZero q = ⌊q⌋ :=
  (Int.tdiv_eq_ediv_of_nonneg (Rat.num_nonneg.mpr h)).trans (Rat.floor_def q).symm

theorem towardsZero_neg (q : ℚ) : towardsZero (-q) = -towardsZero q := by
  rw [towardsZero, Rat.num_neg_eq_neg_num, Rat.den_neg_eq_den, Int.neg_tdiv, towardsZero]

theorem towardsZero_intCast (z : ℤ) : towardsZero z = z := by
  rw [towardsZero, Rat.num_intCast, Rat.den_intCast, Nat.cast_one, Int.tdiv_one]

/-- **A scaled integer** is between zero and itself. -/
theorem towardsZero_mul_mem {q : ℚ} (hnonneg : 0 ≤ q) (hle : q ≤ 1) (z : ℤ) :
    (0 ≤ towardsZero (z * q) ∧ towardsZero (z * q) ≤ z) ∨
      (z ≤ towardsZero (z * q) ∧ towardsZero (z * q) ≤ 0) := by
  have hpos : ∀ z : ℤ, 0 ≤ z → 0 ≤ towardsZero (z * q) ∧ towardsZero (z * q) ≤ z := by
    intro z hz
    have hz' : (0 : ℚ) ≤ z := Int.cast_nonneg hz
    have hmul : (z : ℚ) * q ≤ z := mul_le_of_le_one_right hz' hle
    rw [towardsZero_of_nonneg (mul_nonneg hz' hnonneg)]
    exact ⟨Int.floor_nonneg.mpr (mul_nonneg hz' hnonneg), Int.floor_le_iff.mpr (by linarith)⟩
  rcases le_total 0 z with hz | hz
  · exact .inl (hpos z hz)
  · obtain ⟨hlow, hhigh⟩ := hpos (-z) (neg_nonneg.mpr hz)
    rw [Int.cast_neg, neg_mul, towardsZero_neg] at hlow hhigh
    exact .inr ⟨neg_le_neg_iff.mp hhigh, neg_nonneg.mp hlow⟩

end Ramp
