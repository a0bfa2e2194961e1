import Mathlib.Data.Nat.Log
import Racs.Crc32c

/-!
# The checksum with the instruction of the processor

`crc32c_hw` runs the `crc32` instruction over three stretches of the buffer at once and joins the
three registers: appending `len` zeros to a message multiplies its register by a matrix over the
field of two elements, which `crc32c_zeros_op` finds by repeated squaring, and adding the register
of the next stretch appends that stretch.

A matrix is the list of its 32 columns, the images of the single bits. The instruction is the one of
the processor manual: the remainder, on division by the polynomial `0x11EDC6F41`, of the reversed
operand moved up by the length of the register and the reversed register moved up by the length of
the operand, reversed again.

## Main definitions

* `Racs.crc32Instruction`, `Racs.gf2MatrixTimes`, `Racs.crc32cZerosOp`, `Racs.crc32cHw`.
* `Racs.crc32cEntry` — the function `crc32c`, which chooses between the ways.

## Main results

* `Racs.crc32Instruction_eq` — the instruction feeds its operand to the register.
* `Racs.crc32cZerosOp_eq` — repeated squaring, for every length.
* `Racs.crc32cHw_eq`, `Racs.crc32cEntry_eq` — the checksum, whichever way it is computed.
-/

namespace Racs

open ByteBuffer ShiftRegister

/-! ### The instruction -/

/-- `crc32` with a destination of 64 bits and an operand of `n` bits: the upper half of the
destination is cleared. -/
def crc32Instruction {n : ℕ} (dest : UInt64) (src : BitVec n) : UInt64 :=
  let dividend := src.reverse.toNat <<< 32 ^^^ dest.toUInt32.toBitVec.reverse.toNat <<< n
  (UInt32.ofBitVec (BitVec.ofNat 32 (modTwo 32 0x11EDC6F41 n dividend)).reverse).toUInt64

/-- `crc32b`. -/
def crc32b (crc0 : UInt64) (b : UInt8) : UInt64 := crc32Instruction crc0 b.toBitVec

/-- `crc32q`. -/
def crc32q (crc0 v : UInt64) : UInt64 := crc32Instruction crc0 v.toBitVec

theorem testBit_divisor (i : ℕ) : (0x11EDC6F41).testBit i =
    (decide (i = 32) || (decide (i < 32) && crcPoly.toBitVec.getLsbD (32 - 1 - i))) := by
  have hlow : ∀ i : Fin 33, (0x11EDC6F41).testBit i =
      (decide ((i : ℕ) = 32) ||
        (decide ((i : ℕ) < 32) && crcPoly.toBitVec.getLsbD (32 - 1 - i))) := by decide
  by_cases hi : i < 33
  · exact hlow ⟨i, hi⟩
  · rw [Nat.testBit_lt_two_pow (lt_of_lt_of_le (by decide : 0x11EDC6F41 < 2 ^ 33)
      (Nat.pow_le_pow_right (by decide) (by omega))), decide_eq_false (by omega),
      decide_eq_false (by omega), Bool.false_and, Bool.false_or]

theorem crc32Instruction_eq {n : ℕ} (crc : UInt32) (src : BitVec n) :
    crc32Instruction crc.toUInt64 src = (crcFeed crc (bits n src.toNat)).toUInt64 := by
  rw [crc32Instruction, UInt32.toUInt32_toUInt64,
    reverse_modTwo (by decide) testBit_divisor]
  rfl

theorem crc32b_eq (crc : UInt32) (b : UInt8) :
    crc32b crc.toUInt64 b = (crcFeed crc (bits 8 b.toNat)).toUInt64 :=
  crc32Instruction_eq crc b.toBitVec

theorem loads_crc32q (buf : List UInt8) : Loads buf UInt32.toUInt64 (loadLittle buf) crc32q := by
  intro crc next h
  refine ⟨_, loadLittle_eq h, ?_⟩
  rw [← bits_load h]
  exact crc32Instruction_eq crc _

/-! ### Matrices -/

/-- The loop of `gf2_matrix_times`. -/
def gf2MatrixTimesLoop : List UInt32 → UInt32 → UInt32 → UInt32
  | [], _, sum => sum
  | row :: mat, vec, sum =>
    if vec = 0 then sum
    else gf2MatrixTimesLoop mat (vec >>> 1) (if vec &&& 1 = 1 then sum ^^^ row else sum)

/-- `gf2_matrix_times`. -/
def gf2MatrixTimes (mat : List UInt32) (vec : UInt32) : UInt32 := gf2MatrixTimesLoop mat vec 0

/-- `gf2_matrix_square`. -/
def gf2MatrixSquare (mat : List UInt32) : List UInt32 := mat.map (gf2MatrixTimes mat)

/-- The loop of `crc32c_zeros_op`. -/
def crc32cZerosLoop (odd : List UInt32) (len : ℕ) : List UInt32 :=
  let even := gf2MatrixSquare odd
  if len / 2 = 0 then even
  else
    let odd := gf2MatrixSquare even
    if len / 2 / 2 = 0 then odd else crc32cZerosLoop odd (len / 2 / 2)
termination_by len

/-- The operator for one zero bit of `crc32c_zeros_op`. -/
def crc32cZeroBit : List UInt32 := crcPoly :: (List.range 31).map fun n => 1 <<< UInt32.ofNat n

/-- `crc32c_zeros_op`. -/
def crc32cZerosOp (len : ℕ) : List UInt32 :=
  let even := gf2MatrixSquare crc32cZeroBit
  let odd := gf2MatrixSquare even
  crc32cZerosLoop odd len

/-- The entry `zeros[i][n]` of `crc32c_zeros`. -/
def crc32cZeros (len : ℕ) (i n : UInt32) : UInt32 :=
  gf2MatrixTimes (crc32cZerosOp len) (n <<< (8 * i))

/-- `crc32c_shift`. -/
def crc32cShift (zeros : UInt32 → UInt32 → UInt32) (crc : UInt32) : UInt32 :=
  zeros 0 (crc &&& 0xff) ^^^ zeros 1 ((crc >>> 8) &&& 0xff) ^^^ zeros 2 ((crc >>> 16) &&& 0xff) ^^^
    zeros 3 (crc >>> 24)

/-- The columns of a map. -/
def columns (f : UInt32 → UInt32) : List UInt32 :=
  (List.range 32).map fun n => f ⟨BitVec.twoPow 32 n⟩

section Columns

variable {f : UInt32 → UInt32} (hf : ∀ a b, f (a ^^^ b) = f a ^^^ f b)

include hf

theorem map_zero_of_xor : f 0 = 0 := by
  have h := hf 0 0
  rwa [UInt32.xor_self, UInt32.xor_self] at h

omit hf in
/-- The bits of a vector from `k` on, the bit `k` apart. -/
theorem shiftLeft_shiftRight_succ (v : BitVec 32) {k : ℕ} (hk : k < 32) :
    (v >>> k) <<< k = (if v.getLsbD k then BitVec.twoPow 32 k else 0#32) ^^^
      (v >>> (k + 1)) <<< (k + 1) := by
  apply BitVec.eq_of_getLsbD_eq
  intro i hi
  have hbit : (if v.getLsbD k then BitVec.twoPow 32 k else 0#32).getLsbD i =
      (v.getLsbD k && decide (k = i)) := by
    split_ifs with h
    · rw [BitVec.getLsbD_twoPow, h, decide_eq_true hk, Bool.true_and]
    · rw [BitVec.getLsbD_zero, Bool.eq_false_iff.mpr h, Bool.false_and]
  rw [BitVec.getLsbD_xor, hbit]
  simp only [BitVec.getLsbD_shiftLeft, BitVec.getLsbD_ushiftRight, hi, decide_true, Bool.true_and]
  rcases Nat.lt_trichotomy i k with h | rfl | h
  · simp [h, h.ne', show i < k + 1 by omega]
  · simp
  · simp [h.ne, show ¬ i < k by omega, show ¬ i < k + 1 by omega,
      show k + 1 + (i - (k + 1)) = k + (i - k) by omega]

/-- The loop from the column `k` on. -/
theorem gf2MatrixTimesLoop_columns {k : ℕ} (hk : k ≤ 32) (v : BitVec 32) (sum : UInt32) :
    gf2MatrixTimesLoop ((List.range' k (32 - k)).map fun n => f ⟨BitVec.twoPow 32 n⟩) ⟨v >>> k⟩
      sum = sum ^^^ f ⟨(v >>> k) <<< k⟩ := by
  induction hd : 32 - k generalizing k sum with
  | zero =>
    have hshift : (v >>> k) <<< k = 0#32 := by
      apply BitVec.eq_of_getLsbD_eq
      intro i hi
      rw [BitVec.getLsbD_shiftLeft, decide_eq_true (show i < k by omega)]
      simp
    rw [List.range'_zero, List.map_nil, gf2MatrixTimesLoop, hshift]
    exact ((congrArg _ (map_zero_of_xor hf)).trans UInt32.xor_zero).symm
  | succ d ih =>
    rw [List.range'_succ, List.map_cons, gf2MatrixTimesLoop]
    have hlow : (UInt32.ofBitVec (v >>> k) &&& 1 = 1) ↔ v.getLsbD k = true := by
      rw [and_one_eq_one_iff]
      simp
    have hnext : UInt32.ofBitVec (v >>> k) >>> 1 = UInt32.ofBitVec (v >>> (k + 1)) := by
      rw [BitVec.shiftRight_add]
      rfl
    have hk32 : k < 32 := by omega
    have hd' : 32 - (k + 1) = d := by omega
    have hsplit := shiftLeft_shiftRight_succ v hk32
    split_ifs with hzero hbit
    · have hvec : v >>> k = 0#32 := congrArg UInt32.toBitVec hzero
      rw [hvec, BitVec.zero_shiftLeft]
      exact ((congrArg _ (map_zero_of_xor hf)).trans UInt32.xor_zero).symm
    · rw [if_pos (hlow.mp hbit)] at hsplit
      rw [hnext, ih hk32 _ hd', hsplit]
      exact (UInt32.xor_assoc ..).trans (congrArg _ (hf ⟨_⟩ ⟨_⟩).symm)
    · rw [if_neg fun h => hbit (hlow.mpr h), BitVec.zero_xor] at hsplit
      rw [hnext, ih hk32 _ hd', hsplit]

theorem gf2MatrixTimes_columns (vec : UInt32) : gf2MatrixTimes (columns f) vec = f vec := by
  have h := gf2MatrixTimesLoop_columns hf (Nat.zero_le 32) vec.toBitVec 0
  rw [Nat.sub_zero, ← List.range_eq_range', BitVec.ushiftRight_zero, BitVec.shiftLeft_zero,
    UInt32.zero_xor] at h
  exact h

theorem gf2MatrixSquare_columns : gf2MatrixSquare (columns f) = columns (f ∘ f) := by
  rw [gf2MatrixSquare, columns, List.map_map]
  exact List.map_congr_left fun n _ => gf2MatrixTimes_columns hf _

end Columns

theorem crc32cZeroBit_eq : crc32cZeroBit = columns (crcShifts 1) := by decide

theorem gf2MatrixSquare_shifts (m : ℕ) :
    gf2MatrixSquare (columns (crcShifts m)) = columns (crcShifts (2 * m)) := by
  rw [gf2MatrixSquare_columns (crcShifts_xor m), two_mul]
  exact congrArg columns (funext fun crc => (crcShifts_add m m crc).symm)

theorem crc32cZerosLoop_eq (m len : ℕ) :
    crc32cZerosLoop (columns (crcShifts m)) len =
      columns (crcShifts (m * 2 ^ (Nat.log 2 len + 1))) := by
  induction len using Nat.strong_induction_on generalizing m with
  | _ len ih =>
    rw [crc32cZerosLoop, gf2MatrixSquare_shifts, gf2MatrixSquare_shifts]
    split_ifs with h h'
    · rw [Nat.log_of_lt (by omega : len < 2), zero_add, pow_one, mul_comm]
    · have hlog : Nat.log 2 len = 1 := by
        rw [Nat.log_eq_iff (.inl Nat.one_ne_zero)]
        omega
      rw [hlog, show 2 * (2 * m) = m * 2 ^ (1 + 1) by ring]
    · have hlog : Nat.log 2 (len / 2 / 2) + 2 = Nat.log 2 len := by
        have h2 : 1 ≤ Nat.log 2 (len / 2) := Nat.log_pos one_lt_two (by omega)
        have h4 : 1 ≤ Nat.log 2 len := Nat.log_pos one_lt_two (by omega)
        rw [Nat.log_div_base] at h2 ⊢
        rw [Nat.log_div_base]
        omega
      rw [ih _ (by omega), ← hlog,
        show ∀ l, 2 * (2 * m) * 2 ^ (l + 1) = m * 2 ^ (l + 2 + 1) from fun l => by ring]

/-- The operator appends as many zero bytes as the largest power of two that is at most `len`, and
one byte when `len` is zero. -/
theorem crc32cZerosOp_eq (len : ℕ) :
    crc32cZerosOp len = columns (crcShifts (8 * 2 ^ Nat.log 2 len)) := by
  rw [crc32cZerosOp, crc32cZeroBit_eq, gf2MatrixSquare_shifts, gf2MatrixSquare_shifts,
    crc32cZerosLoop_eq, show ∀ l, 2 * (2 * 1) * 2 ^ (l + 1) = 8 * 2 ^ l from fun l => by ring]

/-- One byte of the register in its place. -/
theorem getLsbD_byte_place (crc : UInt32) {j : ℕ} (hj : j < 4) {a b : UInt32}
    (ha : a.toNat = 8 * j) (hb : b.toNat = 8 * j) {i : ℕ} (hi : i < 32) :
    (((crc >>> a) &&& (0xff : UInt32)) <<< b).toBitVec.getLsbD i =
      (decide (i / 8 = j) && crc.toBitVec.getLsbD i) := by
  have hshift : ∀ {a : UInt32}, a.toNat = 8 * j → (a.toBitVec % 32).toNat = 8 * j := by
    intro a ha
    rw [BitVec.toNat_umod]
    change a.toNat % 32 = 8 * j
    omega
  have hmask : ∀ k, (0xff#32).getLsbD k = decide (k < 8) := by
    intro k
    rw [BitVec.getLsbD_ofNat, show 0xff = 2 ^ 8 - 1 by rfl, Nat.testBit_two_pow_sub_one]
    by_cases hk : k < 8
    · simp [hk, show k < 32 by omega]
    · simp [hk]
  rw [UInt32.toBitVec_shiftLeft, UInt32.toBitVec_and, UInt32.toBitVec_shiftRight,
    BitVec.shiftLeft_eq', BitVec.ushiftRight_eq', hshift ha, hshift hb, BitVec.getLsbD_shiftLeft,
    BitVec.getLsbD_and, BitVec.getLsbD_ushiftRight, decide_eq_true hi, Bool.true_and]
  change (!decide (i < 8 * j) && (crc.toBitVec.getLsbD (8 * j + (i - 8 * j)) &&
    (0xff#32).getLsbD (i - 8 * j))) = _
  rw [hmask]
  by_cases hij : i / 8 = j
  · rw [decide_eq_false (by omega), decide_eq_true (by omega), decide_eq_true hij,
      show 8 * j + (i - 8 * j) = i by omega]
    simp
  · rw [decide_eq_false hij, Bool.false_and]
    by_cases hlt : i < 8 * j
    · simp [hlt]
    · rw [decide_eq_false (show ¬ i - 8 * j < 8 by omega), Bool.and_false, Bool.and_false]

/-- The tables of a power of two append that many zero bytes. -/
theorem crc32cShift_zeros (k : ℕ) (crc : UInt32) :
    crc32cShift (crc32cZeros (2 ^ k)) crc = crcShifts (8 * 2 ^ k) crc := by
  have hzeros : ∀ i n, crc32cZeros (2 ^ k) i n = crcShifts (8 * 2 ^ k) (n <<< (8 * i)) := by
    intro i n
    rw [crc32cZeros, crc32cZerosOp_eq, Nat.log_pow one_lt_two,
      gf2MatrixTimes_columns (crcShifts_xor _)]
  rw [crc32cShift, hzeros, hzeros, hzeros, hzeros, ← crcShifts_xor, ← crcShifts_xor,
    ← crcShifts_xor]
  congr 1
  rw [← UInt32.toBitVec_inj]
  apply BitVec.eq_of_getLsbD_eq
  intro i hi
  have htop : crc >>> 24 = crc >>> 24 &&& (0xff : UInt32) := by
    rw [← UInt32.toNat_inj]
    have hlt := crc.toNat_lt
    have hnat : (crc >>> 24).toNat = crc.toNat / 2 ^ 24 := by
      rw [UInt32.toNat_shiftRight]
      exact Nat.shiftRight_eq_div_pow _ 24
    refine Eq.symm ((toNat_and_byte _).trans ?_)
    change (crc >>> 24).toNat % 256 = _
    omega
  have hzero : crc &&& (0xff : UInt32) = crc >>> 0 &&& (0xff : UInt32) := by
    rw [UInt32.shiftRight_zero]
  have hplace := fun a b j hj ha hb => @getLsbD_byte_place crc j hj a b ha hb i hi
  rw [htop, hzero, UInt32.toBitVec_xor, UInt32.toBitVec_xor, UInt32.toBitVec_xor,
    BitVec.getLsbD_xor, BitVec.getLsbD_xor, BitVec.getLsbD_xor,
    hplace 0 (8 * 0) 0 (by decide) rfl rfl, hplace 8 (8 * 1) 1 (by decide) rfl rfl,
    hplace 16 (8 * 2) 2 (by decide) rfl rfl, hplace 24 (8 * 3) 3 (by decide) rfl rfl]
  obtain h | h | h | h : i / 8 = 0 ∨ i / 8 = 1 ∨ i / 8 = 2 ∨ i / 8 = 3 := by omega
  all_goals simp [h]

/-! ### Three lanes -/

/-- The inner loop of `crc32c_hw` over three stretches of `size` bytes, the first of which ends at
`stop`. -/
def crc32cLanes (buf : List UInt8) (size stop : ℕ) (crc0 crc1 crc2 : UInt64) (next : ℕ) :
    Option (UInt64 × UInt64 × UInt64 × ℕ) :=
  (loadLittle buf next).bind fun v0 =>
  (loadLittle buf (next + size)).bind fun v1 =>
  (loadLittle buf (next + 2 * size)).bind fun v2 =>
    let crc0 := crc32q crc0 v0
    let crc1 := crc32q crc1 v1
    let crc2 := crc32q crc2 v2
    if next + 8 < stop then crc32cLanes buf size stop crc0 crc1 crc2 (next + 8)
    else some (crc0, crc1, crc2, next + 8)
termination_by stop - next

/-- `while (len >= size*3)`, for the stretches of a size and the tables for it. -/
def crc32cTriples (buf : List UInt8) (zeros : UInt32 → UInt32 → UInt32) {size : ℕ}
    (hsize : 0 < size) (crc0 : UInt64) (next len : ℕ) : Option (UInt64 × ℕ × ℕ) :=
  if size * 3 ≤ len then
    (crc32cLanes buf size (next + size) crc0 0 0 next).bind fun (crc0, crc1, crc2, next) =>
      let crc0 := (crc32cShift zeros crc0.toUInt32).toUInt64 ^^^ crc1
      let crc0 := (crc32cShift zeros crc0.toUInt32).toUInt64 ^^^ crc2
      crc32cTriples buf zeros hsize crc0 (next + size * 2) (len - size * 3)
  else some (crc0, next, len)
termination_by len

/-- `while (next < end)`. -/
def crc32cQuads (buf : List UInt8) (stop : ℕ) (crc0 : UInt64) (next : ℕ) : Option (UInt64 × ℕ) :=
  if next < stop then
    (loadLittle buf next).bind fun v => crc32cQuads buf stop (crc32q crc0 v) (next + 8)
  else some (crc0, next)
termination_by stop - next

/-- `LONG`. -/
def crcLong : ℕ := 8192

/-- `SHORT`. -/
def crcShort : ℕ := 256

/-- `crc32c_hw`, of a buffer at the address `addr`; `crc32c_long` and `crc32c_short` are the tables
of `crc32c_init_hw`. -/
def crc32cHw (addr : ℕ) (crc : UInt32) (buf : List UInt8) (len : ℕ) : Option UInt32 :=
  (leadingBytes crc32b addr buf (~~~ crc).toUInt64 0 len).bind fun (crc0, next, len) =>
  (crc32cTriples buf (crc32cZeros crcLong) (by decide : 0 < crcLong) crc0 next len).bind
    fun (crc0, next, len) =>
  (crc32cTriples buf (crc32cZeros crcShort) (by decide : 0 < crcShort) crc0 next len).bind
    fun (crc0, next, len) =>
  (crc32cQuads buf (next + (len - len % 8)) crc0 next).bind fun (crc0, next) =>
  (trailingBytes crc32b buf crc0 next (len % 8)).map fun crc0 => (~~~ crc0).toUInt32

/-- `crc32c`: a build for x86-64 asks the processor for SSE 4.2. -/
def crc32cEntry (x8664 sse42 little : Bool) : ℕ → UInt32 → List UInt8 → ℕ → Option UInt32 :=
  if x8664 then if sse42 then crc32cHw else crc32cSw little else crc32cSw little

variable {buf : List UInt8}

theorem crc32cLanes_eq {size n : ℕ} (a b c : UInt32) {next : ℕ} (hn : 0 < n)
    (h : next + 2 * size + 8 * n ≤ buf.length) :
    crc32cLanes buf size (next + 8 * n) a.toUInt64 b.toUInt64 c.toUInt64 next =
      some ((crcFeed a (byteBits (left buf next (8 * n)))).toUInt64,
        (crcFeed b (byteBits (left buf (next + size) (8 * n)))).toUInt64,
        (crcFeed c (byteBits (left buf (next + 2 * size) (8 * n)))).toUInt64, next + 8 * n) := by
  induction n generalizing a b c next with
  | zero => exact absurd hn (lt_irrefl 0)
  | succ n ih =>
    obtain ⟨v0, hv0, hword0⟩ := loads_crc32q buf a next (by omega)
    obtain ⟨v1, hv1, hword1⟩ := loads_crc32q buf b (next + size) (by omega)
    obtain ⟨v2, hv2, hword2⟩ := loads_crc32q buf c (next + 2 * size) (by omega)
    rw [crc32cLanes, hv0, hv1, hv2]
    simp only [Option.bind_some, hword0, hword1, hword2]
    rcases Nat.eq_zero_or_pos n with rfl | hpos
    · rw [if_neg (by omega)]
    · have hnext : ∀ p, next + p + 8 = next + 8 + p := fun p => by ring
      rw [if_pos (by omega), show next + 8 * (n + 1) = next + 8 + 8 * n by ring,
        ih _ _ _ hpos (by omega), ← hnext size, ← hnext (2 * size), mul_add, mul_one,
        add_comm (8 * n) 8]
      simp only [left_add, byteBits_append, crcFeed_append]

/-- Three stretches of one size, joined. -/
theorem crcFeed_join (crc : UInt32) {a b c : List UInt8} {size : ℕ} (hb : b.length = size)
    (hc : c.length = size) :
    crcFeed crc (byteBits (a ++ b ++ c)) =
      crcShifts (8 * size) (crcShifts (8 * size) (crcFeed crc (byteBits a)) ^^^
        crcFeed 0 (byteBits b)) ^^^ crcFeed 0 (byteBits c) := by
  have hfeed : ∀ (crc : UInt32) (bs : List UInt8), crcFeed crc (byteBits bs) =
      crcShifts (8 * bs.length) crc ^^^ crcFeed 0 (byteBits bs) := by
    intro crc bs
    have h := @feed_eq 32 crcPoly.toBitVec crc.toBitVec (byteBits bs)
    rw [length_byteBits] at h
    exact congrArg UInt32.ofBitVec h
  rw [byteBits_append, byteBits_append, crcFeed_append, crcFeed_append, hfeed _ c, hfeed _ b, hb,
    hc]

theorem crc32cTriples_keeps {zeros : UInt32 → UInt32 → UInt32} {size n : ℕ} (hsize : 0 < size)
    (hn : size = 8 * n) (hzeros : ∀ crc, crc32cShift zeros crc = crcShifts (8 * size) crc)
    (crc : UInt32) {next len : ℕ} (h : next + len ≤ buf.length) :
    ∃ p : UInt32 × ℕ × ℕ,
      crc32cTriples buf zeros hsize crc.toUInt64 next len = some (p.1.toUInt64, p.2) ∧
        Keeps buf (crc, next, len) p := by
  induction len using Nat.strong_induction_on generalizing crc next with
  | _ len ih =>
    rw [crc32cTriples]
    split_ifs with hlen
    · have hlanes := @crc32cLanes_eq buf size n crc 0 0 next (by omega) (by omega)
      rw [← hn] at hlanes
      have hsecond := length_left (show next + size + size ≤ buf.length by omega)
      have hthird := length_left (show next + 2 * size + size ≤ buf.length by omega)
      have hparts : left buf next (size * 3) = left buf next size ++ left buf (next + size) size ++
          left buf (next + 2 * size) size := by
        rw [show size * 3 = size + size + size by ring, left_add, left_add, two_mul]
      have hle : next + size + size * 2 + (len - size * 3) ≤ buf.length := by omega
      obtain ⟨p, hp, hkeeps⟩ := ih (len - size * 3) (by omega)
        (crcFeed crc (byteBits (left buf next (size * 3)))) hle
      refine ⟨p, ?_, .trans ?_ hkeeps⟩
      · rw [hparts, crcFeed_join crc hsecond hthird, ← hzeros, ← hzeros, UInt32.toUInt64_xor] at hp
        have hzero : (0 : UInt32).toUInt64 = 0 := rfl
        rw [hzero] at hlanes
        simp only [hlanes, Option.bind_some, ← UInt32.toUInt64_xor, UInt32.toUInt32_toUInt64]
        simpa only [UInt32.toUInt64_xor] using hp
      · have hskip : Keeps buf (crc, next, size * 3 + (len - size * 3)) _ :=
          .skip crc next (size * 3) (len - size * 3)
        rwa [show size * 3 + (len - size * 3) = len by omega,
          show next + size * 3 = next + size + size * 2 by ring] at hskip
    · exact ⟨_, rfl, .refl _⟩

theorem crc32cQuads_eq (n : ℕ) (crc : UInt32) {next : ℕ} (h : next + 8 * n ≤ buf.length) :
    crc32cQuads buf (next + 8 * n) crc.toUInt64 next =
      some ((crcFeed crc (byteBits (left buf next (8 * n)))).toUInt64, next + 8 * n) := by
  induction n generalizing crc next with
  | zero =>
    rw [mul_zero, add_zero, crc32cQuads, if_neg (lt_irrefl _), left, List.take_zero]
    rfl
  | succ n ih =>
    obtain ⟨v, hload, hword⟩ := loads_crc32q buf crc next (by omega)
    have hleft : left buf next (8 * (n + 1)) = left buf next 8 ++ left buf (next + 8) (8 * n) := by
      rw [mul_add, mul_one, add_comm, left_add]
    rw [crc32cQuads, if_pos (by omega), hload, Option.bind_some, hword,
      show next + 8 * (n + 1) = next + 8 + 8 * n by ring, ih _ (by omega), hleft, byteBits_append,
      crcFeed_append]

/-- The instruction computes the checksum of the first `len` bytes of a buffer at any address, and
no load leaves the buffer. -/
theorem crc32cHw_eq (addr : ℕ) (crc : UInt32) {len : ℕ} (h : len ≤ buf.length) :
    crc32cHw addr crc buf len = some (crc32c crc (buf.take len)) := by
  have hlong : ∀ crc, crc32cShift (crc32cZeros crcLong) crc = crcShifts (8 * crcLong) crc :=
    crc32cShift_zeros 13
  have hshort : ∀ crc, crc32cShift (crc32cZeros crcShort) crc = crcShifts (8 * crcShort) crc :=
    crc32cShift_zeros 8
  obtain ⟨⟨crc1, next1, len1⟩, h1, hkeeps1⟩ := leadingBytes_keeps crc32b_eq addr (~~~ crc)
    (show 0 + len ≤ buf.length by omega)
  have hle1 : next1 + len1 ≤ buf.length := hkeeps1.upto.le.trans (by simpa using h)
  obtain ⟨⟨crc2, next2, len2⟩, h2, hkeeps2⟩ := crc32cTriples_keeps
    (by decide : 0 < crcLong) (by decide : crcLong = 8 * 1024) hlong crc1 hle1
  have hle2 : next2 + len2 ≤ buf.length := hkeeps2.upto.le.trans hle1
  obtain ⟨⟨crc3, next3, len3⟩, h3, hkeeps3⟩ := crc32cTriples_keeps
    (by decide : 0 < crcShort) (by decide : crcShort = 8 * 32) hshort crc2 hle2
  have hle3 : next3 + len3 ≤ buf.length := hkeeps3.upto.le.trans hle2
  have hfeed : crcFeed crc3 (byteBits (left buf next3 len3)) =
      crcFeed (~~~ crc) (byteBits (buf.take len)) := ((hkeeps1.trans hkeeps2).trans hkeeps3).feed
  have hwords : next3 + (len3 - len3 % 8) = next3 + 8 * (len3 / 8) := by omega
  have hparts : left buf next3 len3 =
      left buf next3 (8 * (len3 / 8)) ++ left buf (next3 + 8 * (len3 / 8)) (len3 % 8) := by
    rw [← left_add]
    congr 1
    omega
  rw [crc32cHw, h1, Option.bind_some]
  dsimp only at h2 h3 ⊢
  rw [h2, Option.bind_some]
  dsimp only
  rw [h3, Option.bind_some]
  dsimp only
  rw [hwords, crc32cQuads_eq _ _ (by omega), Option.bind_some]
  dsimp only
  rw [trailingBytes_eq crc32b_eq (by omega), Option.map_some, ← crcFeed_append, ← byteBits_append,
    ← hparts, hfeed, crc32c_eq_feed, UInt64.toUInt32_not, UInt32.toUInt32_toUInt64]

/-- Whichever way the processor and the build choose, `crc32c` is the checksum a byte at a time. -/
theorem crc32cEntry_eq (x8664 sse42 little : Bool) (addr : ℕ) (crc : UInt32) {len : ℕ}
    (h : len ≤ buf.length) :
    crc32cEntry x8664 sse42 little addr crc buf len = some (crc32c crc (buf.take len)) := by
  unfold crc32cEntry
  split_ifs
  · exact crc32cHw_eq addr crc h
  · exact crc32cSw_eq little addr crc h
  · exact crc32cSw_eq little addr crc h

theorem crc32cEntry_eq_hardware :
    crc32cEntry true true true 3 0 (List.replicate 30000 7) 29000 =
      some (crc32c 0 ((List.replicate 30000 7).take 29000)) :=
  crc32cEntry_eq true true true 3 0
    (by rw [List.length_replicate]; decide : 29000 ≤ (List.replicate 30000 (7 : UInt8)).length)

end Racs
