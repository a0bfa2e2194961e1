import Mathlib.Algebra.Order.Ring.Int
import Mathlib.Data.Int.Order.Lemmas
import Mathlib.Data.Nat.Log
import Mathlib.Tactic.Linarith

/-!
# Integers in a format with so many binary digits

`round p z` is the number with at most `p` significant binary digits that is nearest to `z`, and of
two such numbers the one whose last digit is even. As far as the exponents of a floating-point
format reach, this is how an integer is converted to it, and the sum of two integers of the format
is the rounded sum.

## Main definitions

* `RoundedIntegers.roundNat`, `RoundedIntegers.round`.

## Main results

* `RoundedIntegers.round_of_natAbs_le` — small numbers stay as they are.
* `RoundedIntegers.natAbs_round_sub_le` — the error of the others.
* `RoundedIntegers.roundNat_le_two_pow` — no number is rounded beyond a power of two above it.
-/

namespace RoundedIntegers

/-- A natural number rounded to `p` digits. -/
def roundNat (p n : ℕ) : ℕ :=
  let e := n.log2 + 1 - p
  let q := n / 2 ^ e
  let r := n % 2 ^ e
  if 2 * r < 2 ^ e ∨ 2 * r = 2 ^ e ∧ q % 2 = 0 then q * 2 ^ e else (q + 1) * 2 ^ e

/-- An integer rounded to `p` digits. -/
def round (p : ℕ) (z : ℤ) : ℤ := z.sign * roundNat p z.natAbs

/-- The rounded number is one of the two multiples of the last place around the number, and not the
one that is further away. -/
theorem two_mul_roundNat_bounds (p n : ℕ) :
    2 * roundNat p n ≤ 2 * n + 2 ^ (n.log2 + 1 - p) ∧
      2 * n ≤ 2 * roundNat p n + 2 ^ (n.log2 + 1 - p) := by
  have hdiv := Nat.div_add_mod n (2 ^ (n.log2 + 1 - p))
  have hlt := Nat.mod_lt n (Nat.two_pow_pos (n.log2 + 1 - p))
  rw [Nat.mul_comm] at hdiv
  rw [roundNat]
  split_ifs with hlow
  · omega
  · rw [Nat.add_mul]
    omega

theorem roundNat_zero (p : ℕ) : roundNat p 0 = 0 := by
  simp [roundNat]

theorem roundNat_of_lt {p n : ℕ} (h : n < 2 ^ p) : roundNat p n = n := by
  rcases n.eq_zero_or_pos with rfl | hpos
  · exact roundNat_zero p
  · have hlog := (Nat.log2_lt hpos.ne').mpr h
    have hlast : n.log2 + 1 - p = 0 := by omega
    rw [roundNat, hlast]
    simp [Nat.mod_one]

/-- A power of two has one digit. -/
theorem roundNat_of_le {p n : ℕ} (hp : 0 < p) (h : n ≤ 2 ^ p) : roundNat p n = n := by
  rcases h.lt_or_eq with hlt | rfl
  · exact roundNat_of_lt hlt
  · obtain ⟨q, rfl⟩ := Nat.exists_eq_succ_of_ne_zero hp.ne'
    have hlast : (2 ^ (q + 1)).log2 + 1 - (q + 1) = 1 := by rw [Nat.log2_two_pow]; omega
    rw [roundNat, hlast, Nat.pow_succ, pow_one, Nat.mul_div_cancel _ two_pos, Nat.mul_mod_left]
    exact if_pos (.inl two_pos)

/-- A little more than a power of two is rounded down to it, also when it is as far from the next
number: the last digit of the power is zero. -/
theorem roundNat_eq_two_pow {p m n : ℕ} (hp : 2 ≤ p) (hm : p ≤ m) (hlow : 2 ^ m ≤ n)
    (hhigh : 2 * n ≤ 2 ^ (m + 1) + 2 ^ (m + 1 - p)) : roundNat p n = 2 ^ m := by
  have hplace : 2 ^ (m + 1 - p) ≤ 2 ^ m := Nat.pow_le_pow_right two_pos (by omega)
  have hlog : n.log2 = m := by
    have hpos := Nat.two_pow_pos m
    rw [Nat.log2_eq_iff (by omega)]
    rw [Nat.pow_succ] at hhigh ⊢
    omega
  obtain ⟨r, rfl⟩ := Nat.exists_eq_add_of_le hlow
  have hdigits : 2 ^ m = 2 ^ (p - 1) * 2 ^ (m + 1 - p) := by
    rw [← Nat.pow_add]
    congr 1
    omega
  have heven : 2 ^ (p - 1) % 2 = 0 := by
    obtain ⟨q, hq⟩ := Nat.exists_eq_add_of_le hp
    rw [show p - 1 = q + 1 by omega, Nat.pow_succ, Nat.mul_mod_left]
  have hpos := Nat.two_pow_pos (m + 1 - p)
  have hr : 2 * r ≤ 2 ^ (m + 1 - p) := by rw [Nat.pow_succ] at hhigh; omega
  have hrem : r < 2 ^ (m + 1 - p) := by omega
  have hdiv : (2 ^ m + r) / 2 ^ (m + 1 - p) = 2 ^ (p - 1) := by
    rw [hdigits, Nat.mul_comm, Nat.mul_add_div hpos, Nat.div_eq_of_lt hrem, Nat.add_zero]
  have hmod : (2 ^ m + r) % 2 ^ (m + 1 - p) = r := by
    rw [hdigits, Nat.mul_comm, Nat.mul_add_mod, Nat.mod_eq_of_lt hrem]
  rw [roundNat, hlog, hdiv, hmod, ← hdigits]
  refine if_pos ?_
  omega

/-- Up to half a place beyond a power of two, no number is rounded to more than this power. -/
theorem roundNat_le_two_pow {p m n : ℕ} (hp : 2 ≤ p) (hm : p ≤ m)
    (hn : 2 * n ≤ 2 ^ (m + 1) + 2 ^ (m + 1 - p)) : roundNat p n ≤ 2 ^ m := by
  rcases Nat.lt_or_ge n (2 ^ m) with hlt | hge
  · rcases Nat.lt_or_ge n (2 ^ p) with hsmall | hlarge
    · rw [roundNat_of_lt hsmall]
      exact hlt.le
    · have hne : n ≠ 0 := (Nat.two_pow_pos p).trans_le hlarge |>.ne'
      have hlog := (Nat.log2_lt hne).mpr hlt
      have hlog' := (Nat.le_log2 hne).mpr hlarge
      have hdigits : 2 ^ (n.log2 + 1) = 2 ^ (n.log2 + 1 - p) * 2 ^ p := by
        rw [← Nat.pow_add, Nat.sub_add_cancel (by omega)]
      have hquot : n / 2 ^ (n.log2 + 1 - p) < 2 ^ p :=
        Nat.div_lt_of_lt_mul (hdigits ▸ Nat.lt_log2_self)
      have hpow : 2 ^ (n.log2 + 1) ≤ 2 ^ m := Nat.pow_le_pow_right two_pos hlog
      rw [roundNat]
      split_ifs
      · exact (Nat.div_mul_le_self _ _).trans hlt.le
      · refine (Nat.mul_le_mul_right _ hquot).trans ?_
        rwa [Nat.mul_comm, ← hdigits]
  · exact (roundNat_eq_two_pow hp hm hge hn).le

/-- The error is at most a `2 ^ p`-th of the number. -/
theorem two_pow_mul_roundNat_bounds (p n : ℕ) :
    2 ^ p * roundNat p n ≤ 2 ^ p * n + n ∧ 2 ^ p * n ≤ 2 ^ p * roundNat p n + n := by
  rcases Nat.lt_or_ge n (2 ^ p) with hlt | hge
  · rw [roundNat_of_lt hlt]
    omega
  · have hne : n ≠ 0 := (Nat.two_pow_pos p).trans_le hge |>.ne'
    obtain ⟨hlow, hhigh⟩ := two_mul_roundNat_bounds p n
    have hlog : p ≤ n.log2 := (Nat.le_log2 hne).mpr hge
    -- the last place times the range of the digits is the number or twice the number
    have hplace : 2 ^ p * 2 ^ (n.log2 + 1 - p) ≤ 2 * n := by
      rw [← Nat.pow_add, Nat.add_sub_cancel' (by omega), Nat.pow_succ, Nat.mul_comm]
      exact Nat.mul_le_mul_left 2 (Nat.log2_self_le hne)
    have hlow' := Nat.mul_le_mul_left (2 ^ p) hlow
    have hhigh' := Nat.mul_le_mul_left (2 ^ p) hhigh
    rw [Nat.mul_add, Nat.mul_left_comm, Nat.mul_left_comm (2 ^ p) 2] at hlow' hhigh'
    omega

/-! ### Integers -/

@[simp] theorem round_zero (p : ℕ) : round p 0 = 0 := by simp [round]

/-- Rounding does not look at the sign. -/
theorem round_neg (p : ℕ) (z : ℤ) : round p (-z) = -round p z := by
  rw [round, round, Int.sign_neg, Int.natAbs_neg, Int.neg_mul]

/-- **Small numbers stay as they are.** -/
theorem round_of_natAbs_le {p : ℕ} (hp : 0 < p) {z : ℤ} (h : z.natAbs ≤ 2 ^ p) :
    round p z = z := by
  rw [round, roundNat_of_le hp h, Int.sign_mul_natAbs]

theorem natAbs_round (p : ℕ) (z : ℤ) : (round p z).natAbs = roundNat p z.natAbs := by
  rcases eq_or_ne z 0 with rfl | hz
  · simp [roundNat_zero]
  · rw [round, Int.natAbs_mul, Int.natAbs_sign_of_ne_zero hz, Nat.one_mul, Int.natAbs_natCast]

theorem natAbs_round_sub_eq (p : ℕ) (z : ℤ) :
    (round p z - z).natAbs = ((roundNat p z.natAbs : ℤ) - z.natAbs).natAbs := by
  rw [round]
  rcases lt_trichotomy z 0 with hneg | rfl | hpos
  · rw [Int.sign_eq_neg_one_of_neg hneg]
    omega
  · simp [roundNat_zero]
  · rw [Int.sign_eq_one_of_pos hpos]
    omega

/-- A number with `k` digits more than the format is wrong by half a unit of the last place at
most. -/
theorem two_mul_natAbs_round_sub_le {p k : ℕ} {z : ℤ} (h : z.natAbs < 2 ^ (p + k)) :
    2 * (round p z - z).natAbs ≤ 2 ^ k := by
  rcases eq_or_ne z 0 with rfl | hz
  · simp
  · obtain ⟨hlow, hhigh⟩ := two_mul_roundNat_bounds p z.natAbs
    have hlog := (Nat.log2_lt (Int.natAbs_ne_zero.mpr hz)).mpr h
    have hplace := Nat.pow_le_pow_right two_pos (show z.natAbs.log2 + 1 - p ≤ k by omega)
    rw [natAbs_round_sub_eq]
    omega

/-- **The error of a rounded number** is at most a `2 ^ p`-th of the number. -/
theorem natAbs_round_sub_le (p : ℕ) (z : ℤ) : 2 ^ p * (round p z - z).natAbs ≤ z.natAbs := by
  obtain ⟨hlow, hhigh⟩ := two_pow_mul_roundNat_bounds p z.natAbs
  have hmul : 2 ^ p * ((roundNat p z.natAbs : ℤ) - z.natAbs).natAbs =
      (((2 ^ p * roundNat p z.natAbs : ℕ) : ℤ) - (2 ^ p * z.natAbs : ℕ)).natAbs := by
    push_cast
    rw [← Int.mul_sub, Int.natAbs_mul, Int.natAbs_pow]
    rfl
  rw [natAbs_round_sub_eq, hmul]
  omega

end RoundedIntegers
