import Mathlib.Order.Monotone.Basic
import Mathlib.Order.Lattice.Nat

/-!
# A queue that is served once per tick

Requests arrive over time, `a j` of them up to the tick `j`, and each tick serves one request if one
waits. After `t` ticks, `served a t` requests are served: the smallest of the numbers
`a j + (t - j)`, where from the tick `j` on every tick found a request.

## Main definitions

* `TickQueue.served` — the number of requests that are served after a number of ticks.

## Main results

* `TickQueue.le_served_iff` — when a number of requests is served.
-/

namespace TickQueue

/-- The requests served up to a tick; a tick serves one if there is one that was not served. -/
def served (a : ℕ → ℕ) : ℕ → ℕ
  | 0 => 0
  | t + 1 => if served a t < a (t + 1) then served a t + 1 else served a t

variable {a : ℕ → ℕ}

/-- No more is served than has arrived. -/
theorem served_le (ha : Monotone a) (t : ℕ) : served a t ≤ a t := by
  induction t with
  | zero => exact Nat.zero_le _
  | succ t ih =>
    have hle : a t ≤ a (t + 1) := ha (Nat.le_succ t)
    rw [served]
    split_ifs with h
    · exact h
    · exact ih.trans hle

theorem served_succ (ha : Monotone a) (t : ℕ) :
    served a (t + 1) = min (served a t + 1) (a (t + 1)) := by
  have hle : served a t ≤ a (t + 1) := (served_le ha t).trans (ha (Nat.le_succ t))
  rw [served]
  split_ifs with h
  · exact (min_eq_left h).symm
  · omega

/-- **When `n` requests are served**: from every tick on, the ticks that are left are enough for the
requests among the first `n` that have not arrived. -/
theorem le_served_iff (ha : Monotone a) (h₀ : a 0 = 0) {n t : ℕ} :
    n ≤ served a t ↔ ∀ j ≤ t, n ≤ a j + (t - j) := by
  induction t generalizing n with
  | zero => simp [served, h₀]
  | succ t ih =>
    have hstep : n ≤ served a t + 1 ↔ ∀ j ≤ t, n ≤ a j + (t + 1 - j) := by
      rw [← Nat.sub_le_iff_le_add, ih]
      refine forall₂_congr fun j hj => ?_
      omega
    rw [served_succ ha, le_min_iff, hstep]
    constructor
    · rintro ⟨hbefore, hlast⟩ j hj
      rcases Nat.le_succ_iff.mp hj with hj | rfl
      · exact hbefore j hj
      · exact hlast.trans (Nat.le_add_right _ _)
    · intro h
      refine ⟨fun j hj => h j (Nat.le_succ_of_le hj), ?_⟩
      have hlast := h (t + 1) (le_refl _)
      rwa [Nat.sub_self, Nat.add_zero] at hlast

end TickQueue
