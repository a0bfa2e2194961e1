import Mathlib.Data.List.Basic
import Mathlib.Tactic.Ring

/-!
# Byte buffers: slices and little-endian words

A buffer is a list of bytes. `slice buf off n` is the `n` bytes from `off` on, undefined when they
reach past the end of the buffer, so that a program that reads through `slice` is undefined
exactly where it reads outside its memory. `encode w n` lists the `w` low bytes of `n`, least
significant first, and `decode` reads them back.

## Main results

* `ByteBuffer.decode_encode` — the bytes of `n` read back as `n` modulo `256 ^ w`.
* `ByteBuffer.Holds.slice_eq` — a slice at the offset of a part of a buffer is that part.
-/

namespace ByteBuffer

/-- The `w` low bytes of `n`, least significant first. -/
def encode : ℕ → ℕ → List UInt8
  | 0, _ => []
  | w + 1, n => UInt8.ofNat n :: encode w (n / 256)

/-- The number with these bytes, least significant first. -/
def decode : List UInt8 → ℕ
  | [] => 0
  | b :: bs => b.toNat + 256 * decode bs

@[simp] theorem length_encode (w n : ℕ) : (encode w n).length = w := by
  induction w generalizing n with
  | zero => rfl
  | succ w ih => rw [encode, List.length_cons, ih]

theorem decode_encode (w n : ℕ) : decode (encode w n) = n % 256 ^ w := by
  induction w generalizing n with
  | zero => simp [encode, decode, Nat.mod_one]
  | succ w ih =>
    have hb : (UInt8.ofNat n).toNat = n % 256 := UInt8.toNat_ofNat'
    rw [encode, decode, ih, hb, pow_succ', Nat.mod_mul]

theorem decode_encode_of_lt {w n : ℕ} (h : n < 256 ^ w) : decode (encode w n) = n := by
  rw [decode_encode, Nat.mod_eq_of_lt h]

/-- The bytes of the number with these bytes. -/
theorem encode_decode (bs : List UInt8) : encode bs.length (decode bs) = bs := by
  induction bs with
  | nil => rfl
  | cons b bs ih =>
    have hdiv : (b.toNat + 256 * decode bs) / 256 = decode bs := by
      have hb := b.toNat_lt
      omega
    have hmod : UInt8.ofNat (b.toNat + 256 * decode bs) = b := by
      rw [← UInt8.toNat_inj, UInt8.toNat_ofNat']
      have hb := b.toNat_lt
      omega
    rw [decode, List.length_cons, encode, hdiv, hmod, ih]

theorem decode_lt (bs : List UInt8) : decode bs < 256 ^ bs.length := by
  induction bs with
  | nil => exact Nat.one_pos
  | cons b bs ih =>
    have hb := b.toNat_lt
    rw [decode, List.length_cons, pow_succ]
    omega

/-- The bytes `buf[off], …, buf[off + n - 1]`; undefined when they reach past the end. -/
def slice (buf : List UInt8) (off n : ℕ) : Option (List UInt8) :=
  if off + n ≤ buf.length then some ((buf.drop off).take n) else none

theorem slice_eq_some {buf : List UInt8} {off n : ℕ} {bs : List UInt8} :
    slice buf off n = some bs ↔ off + n ≤ buf.length ∧ (buf.drop off).take n = bs := by
  unfold slice
  split_ifs with h <;> simp [h]

theorem le_length_of_slice {buf : List UInt8} {off n : ℕ} {bs : List UInt8}
    (h : slice buf off n = some bs) : off + n ≤ buf.length := (slice_eq_some.mp h).1

/-- The buffer holds the bytes `s` from the offset `off` to its end. -/
def Holds (buf : List UInt8) (off : ℕ) (s : List UInt8) : Prop :=
  ∃ a : List UInt8, a.length = off ∧ buf = a ++ s

theorem holds_append (a s : List UInt8) : Holds (a ++ s) a.length s := ⟨a, rfl, rfl⟩

theorem holds_of_eq {buf s : List UInt8} (h : buf = s) : Holds buf 0 s := ⟨[], rfl, h⟩

theorem holds_zero (s : List UInt8) : Holds s 0 s := ⟨[], rfl, rfl⟩

namespace Holds

variable {buf b c : List UInt8} {off : ℕ}

/-- The length of a buffer, from what it holds behind an offset. -/
theorem length_eq (h : Holds buf off b) : buf.length = off + b.length := by
  obtain ⟨a, rfl, rfl⟩ := h
  exact List.length_append

theorem drop_eq (h : Holds buf off b) : buf.drop off = b := by
  obtain ⟨a, rfl, rfl⟩ := h
  exact List.drop_left

/-- What a buffer holds behind the first part of `b ++ c`. -/
theorem skip (h : Holds buf off (b ++ c)) : Holds buf (off + b.length) c := by
  obtain ⟨a, rfl, rfl⟩ := h
  exact ⟨a ++ b, List.length_append, (List.append_assoc ..).symm⟩

/-- A slice of the length of the bytes at the offset is these bytes. -/
theorem slice_eq (h : Holds buf off (b ++ c)) {n : ℕ} (hn : n = b.length) :
    slice buf off n = some b := by
  subst hn
  rw [slice_eq_some, h.drop_eq, h.length_eq, List.length_append, List.take_left]
  exact ⟨by omega, rfl⟩

/-- What a buffer holds at the offset of a slice begins with the slice. -/
theorem of_slice {bs s : List UInt8} {n : ℕ} (h : Holds buf off s)
    (hslice : slice buf off n = some bs) : bs.length = n ∧ ∃ c, s = bs ++ c := by
  obtain ⟨hle, rfl⟩ := slice_eq_some.mp hslice
  rw [h.drop_eq]
  refine ⟨?_, s.drop n, (List.take_append_drop n s).symm⟩
  rw [h.length_eq] at hle
  rw [List.length_take, min_eq_left (by omega)]

end Holds

/-- A slice that stays inside `a` does not see what follows `a`. -/
theorem slice_append_of_le (a b : List UInt8) {off n : ℕ} (h : off + n ≤ a.length) :
    slice (a ++ b) off n = slice a off n := by
  have hle : off + n ≤ (a ++ b).length := by
    rw [List.length_append]
    omega
  rw [slice, if_pos hle, slice, if_pos h, List.drop_append_of_le_length (by omega),
    List.take_append_of_le_length (by rw [List.length_drop]; omega)]

end ByteBuffer
