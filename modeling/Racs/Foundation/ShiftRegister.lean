import Mathlib.Data.List.Induction
import Mathlib.Data.Nat.Bitwise
import Mathlib.Logic.Function.Iterate
import Racs.Foundation.ByteBuffer

/-!
# Cyclic redundancy checks as shift registers

A register of `w` bits is shifted to the right, and the bit that leaves it adds the polynomial,
given by its coefficients in reversed order, to what is left. A message is fed bit by bit: a bit is
added to the lowest one of the register before the shift. Shifting is linear over the field of two
elements, so any way to group the bits of a message computes the same register.

## Main definitions

* `ShiftRegister.step`, `ShiftRegister.steps` — the shift, and the shift several times.
* `ShiftRegister.feed` — the register after the bits of a message.
* `ShiftRegister.bits`, `ShiftRegister.byteBits` — the bits of a number and of a list of bytes.

## Main results

* `ShiftRegister.steps_xor`, `ShiftRegister.feed_xor` — linearity.
* `ShiftRegister.steps_setWidth_xor` — a register that is wider than the polynomial takes as many
  bits at once as it is wide.
* `ShiftRegister.steps_eight_succ` — a byte of the register at a time.
* `ShiftRegister.feed_ne_of_burst` — messages that differ within the width of the register.
* `ShiftRegister.parity_feed` — the parity of the register under a polynomial of odd parity.
-/

namespace ShiftRegister

variable {w : ℕ} (poly : BitVec w)

/-- The shift by one bit. -/
def step (s : BitVec w) : BitVec w :=
  if s.getLsbD 0 then (s >>> 1) ^^^ poly else s >>> 1

/-- The shift by `n` bits. -/
def steps (n : ℕ) (s : BitVec w) : BitVec w := (step poly)^[n] s

/-- The register after one bit of the message. -/
def feedBit (s : BitVec w) (b : Bool) : BitVec w :=
  step poly (s ^^^ (BitVec.ofBool b).setWidth w)

/-- The register after the bits of a message. -/
def feed (s : BitVec w) (message : List Bool) : BitVec w := message.foldl (feedBit poly) s

/-- The `k` low bits of a number, the lowest one first. -/
def bits : ℕ → ℕ → List Bool
  | 0, _ => []
  | k + 1, n => n.testBit 0 :: bits k (n / 2)

/-- The bits of the bytes, in their order. -/
def byteBits (bs : List UInt8) : List Bool := bs.flatMap fun b => bits 8 b.toNat

/-! ### Bits -/

@[simp] theorem length_bits (k n : ℕ) : (bits k n).length = k := by
  induction k generalizing n with
  | zero => rfl
  | succ k ih => rw [bits, List.length_cons, ih]

@[simp] theorem byteBits_nil : byteBits [] = [] := rfl

theorem byteBits_cons (b : UInt8) (bs : List UInt8) :
    byteBits (b :: bs) = bits 8 b.toNat ++ byteBits bs := rfl

theorem byteBits_append (as bs : List UInt8) :
    byteBits (as ++ bs) = byteBits as ++ byteBits bs := List.flatMap_append

@[simp] theorem length_byteBits (bs : List UInt8) : (byteBits bs).length = 8 * bs.length := by
  induction bs with
  | nil => rfl
  | cons b bs ih =>
    rw [byteBits_cons, List.length_append, length_bits, ih, List.length_cons]
    ring

theorem bits_add (a b n : ℕ) : bits (a + b) n = bits a n ++ bits b (n / 2 ^ a) := by
  induction a generalizing n with
  | zero => simp [bits]
  | succ a ih =>
    rw [Nat.succ_add, bits, bits, ih, Nat.div_div_eq_div_mul, ← pow_succ', List.cons_append]

theorem bits_mod (k n : ℕ) : bits k (n % 2 ^ k) = bits k n := by
  induction k generalizing n with
  | zero => rfl
  | succ k ih =>
    have hdiv : n % 2 ^ (k + 1) / 2 = n / 2 % 2 ^ k := by
      rw [pow_succ', Nat.mod_mul_right_div_self]
    have hbit : (n % 2 ^ (k + 1)).testBit 0 = n.testBit 0 := by
      rw [Nat.testBit_mod_two_pow]
      simp
    rw [bits, bits, hdiv, hbit, ih]

/-- A word of bytes, the least significant one first, has the bits of the bytes. -/
theorem bits_decode (bs : List UInt8) :
    bits (8 * bs.length) (ByteBuffer.decode bs) = byteBits bs := by
  induction bs with
  | nil => rfl
  | cons b bs ih =>
    have hb := b.toNat_lt
    have hdiv : (b.toNat + 256 * ByteBuffer.decode bs) / 2 ^ 8 = ByteBuffer.decode bs := by omega
    have hmod : (b.toNat + 256 * ByteBuffer.decode bs) % 2 ^ 8 = b.toNat := by omega
    rw [ByteBuffer.decode, List.length_cons, mul_add, mul_one, add_comm, bits_add, hdiv, ih,
      ← bits_mod, hmod, byteBits_cons]

theorem testBit_decode (bs : List UInt8) (i : ℕ) :
    (ByteBuffer.decode bs).testBit i = (bs.getD (i / 8) 0).toNat.testBit (i % 8) := by
  induction bs generalizing i with
  | nil => simp [ByteBuffer.decode]
  | cons b bs ih =>
    rw [ByteBuffer.decode, add_comm, show 256 = 2 ^ 8 by rfl,
      Nat.testBit_two_pow_mul_add _ b.toNat_lt]
    split_ifs with hi
    · rw [Nat.div_eq_of_lt hi, Nat.mod_eq_of_lt hi, List.getD_cons_zero]
    · rw [ih, show i / 8 = (i - 8) / 8 + 1 by omega, List.getD_cons_succ,
        show (i - 8) % 8 = i % 8 by omega]

/-! ### Linearity -/

variable {poly}

theorem getLsbD_step (s : BitVec w) (i : ℕ) :
    (step poly s).getLsbD i = (s.getLsbD (i + 1) ^^ (s.getLsbD 0 && poly.getLsbD i)) := by
  unfold step
  split_ifs with h
  · rw [BitVec.getLsbD_xor, BitVec.getLsbD_ushiftRight, add_comm, h, Bool.true_and]
  · rw [BitVec.getLsbD_ushiftRight, add_comm, Bool.eq_false_iff.mpr h, Bool.false_and,
      Bool.xor_false]

@[simp] theorem step_zero : step poly 0#w = 0#w := by simp [step]

theorem step_xor (a b : BitVec w) : step poly (a ^^^ b) = step poly a ^^^ step poly b := by
  apply BitVec.eq_of_getLsbD_eq
  intro i _
  simp only [BitVec.getLsbD_xor, getLsbD_step]
  cases a.getLsbD 0 <;> cases b.getLsbD 0 <;> cases poly.getLsbD i <;> simp

theorem steps_add (m n : ℕ) (s : BitVec w) :
    steps poly (m + n) s = steps poly m (steps poly n s) := Function.iterate_add_apply ..

theorem steps_succ (n : ℕ) (s : BitVec w) :
    steps poly (n + 1) s = steps poly n (step poly s) := Function.iterate_succ_apply ..

@[simp] theorem steps_zero_right (n : ℕ) : steps poly n 0#w = 0#w :=
  Function.iterate_fixed step_zero n

theorem steps_xor (n : ℕ) (a b : BitVec w) :
    steps poly n (a ^^^ b) = steps poly n a ^^^ steps poly n b := by
  induction n generalizing a b with
  | zero => rfl
  | succ n ih => rw [steps_succ, steps_succ, steps_succ, step_xor, ih]

@[simp] theorem feed_nil (s : BitVec w) : feed poly s [] = s := rfl

theorem feed_cons (s : BitVec w) (b : Bool) (message : List Bool) :
    feed poly s (b :: message) = feed poly (feedBit poly s b) message := rfl

theorem feed_append (s : BitVec w) (a b : List Bool) :
    feed poly s (a ++ b) = feed poly (feed poly s a) b := List.foldl_append

/-- What a message makes of a register is what it makes of the empty one and the register, moved by
its length. -/
theorem feed_eq (s : BitVec w) (message : List Bool) :
    feed poly s message = steps poly message.length s ^^^ feed poly 0#w message := by
  induction message generalizing s with
  | nil => exact (BitVec.xor_zero).symm
  | cons b message ih =>
    have hbit : feedBit poly s b = step poly s ^^^ feedBit poly 0#w b := by
      rw [feedBit, feedBit, step_xor, BitVec.zero_xor]
    rw [feed_cons, feed_cons, ih, ih (feedBit poly 0#w b), hbit, steps_xor, List.length_cons,
      steps_succ, BitVec.xor_assoc]

/-- The difference of two registers after one message. -/
theorem feed_xor_feed (s t : BitVec w) (message : List Bool) :
    feed poly s message ^^^ feed poly t message = steps poly message.length (s ^^^ t) := by
  rw [feed_eq s, feed_eq t, steps_xor, BitVec.xor_assoc, BitVec.xor_comm _ (feed poly 0#w message),
    ← BitVec.xor_assoc (feed poly 0#w message) (feed poly 0#w message), BitVec.xor_self,
    BitVec.zero_xor]

theorem getLsbD_feedBit (hw : 0 < w) (s : BitVec w) (b : Bool) (i : ℕ) :
    (feedBit poly s b).getLsbD i =
      (s.getLsbD (i + 1) ^^ ((s.getLsbD 0 ^^ b) && poly.getLsbD i)) := by
  have hzero : ((BitVec.ofBool b).setWidth w).getLsbD 0 = b := by simp [hw]
  have hsucc : ((BitVec.ofBool b).setWidth w).getLsbD (i + 1) = false := by simp
  rw [feedBit, getLsbD_step, BitVec.getLsbD_xor, BitVec.getLsbD_xor, hzero, hsucc, Bool.xor_false]

/-! ### Words -/

/-- One shift of a register that is wider than the polynomial, with the next bits of the message
above the one that is fed. -/
theorem step_setWidth_xor {W : ℕ} (hw : 0 < w) (s : BitVec w) (v : BitVec W) (hW : w ≤ W) :
    step (poly.setWidth W) (s.setWidth W ^^^ v) =
      (feedBit poly s (v.getLsbD 0)).setWidth W ^^^ (v >>> 1) := by
  apply BitVec.eq_of_getLsbD_eq
  intro i hi
  have hhigh : (s.setWidth W).getLsbD (i + 1) = s.getLsbD (i + 1) := by
    rw [BitVec.getLsbD_setWidth]
    by_cases h : i + 1 < W
    · simp [h]
    · simp [BitVec.getLsbD_of_ge s (i + 1) (by omega)]
  simp only [getLsbD_step, getLsbD_feedBit hw, BitVec.getLsbD_xor, BitVec.getLsbD_ushiftRight,
    hhigh, BitVec.getLsbD_setWidth, hi, show 0 < W by omega, decide_true, Bool.true_and,
    add_comm 1 i]
  cases s.getLsbD 0 <;> cases v.getLsbD 0 <;> cases poly.getLsbD i <;> cases v.getLsbD (i + 1) <;>
    simp

/-- Shifts of a register that is wider than the polynomial feed it the bits above it. -/
theorem steps_setWidth_xor {W : ℕ} (hw : 0 < w) (hW : w ≤ W) (n : ℕ) (s : BitVec w)
    (v : BitVec W) :
    steps (poly.setWidth W) n (s.setWidth W ^^^ v) =
      (feed poly s (bits n v.toNat)).setWidth W ^^^ (v >>> n) := by
  induction n generalizing s v with
  | zero => rw [BitVec.ushiftRight_zero]; rfl
  | succ n ih =>
    have hshift : (v >>> 1).toNat = v.toNat / 2 := by
      rw [BitVec.toNat_ushiftRight, Nat.shiftRight_one]
    rw [steps_succ, step_setWidth_xor hw s v hW, ih, hshift, bits, feed_cons,
      ← BitVec.shiftRight_add, add_comm 1 n]
    rfl

/-- A word that fills no more than the wide register, fed by shifts of it. -/
theorem setWidth_feed_bits {W : ℕ} (hw : 0 < w) (hW : w ≤ W) {n : ℕ} (s : BitVec w)
    (v : BitVec W) (hv : v.toNat < 2 ^ n) :
    (feed poly s (bits n v.toNat)).setWidth W =
      steps (poly.setWidth W) n (s.setWidth W ^^^ v) := by
  have hzero : v >>> n = 0#W := by
    apply BitVec.eq_of_toNat_eq
    rw [BitVec.toNat_ushiftRight, Nat.shiftRight_eq_div_pow, Nat.div_eq_of_lt hv,
      BitVec.toNat_ofNat, Nat.zero_mod]
  rw [steps_setWidth_xor hw hW, hzero, BitVec.xor_zero]

/-- The bits that are fed are those of the low part of a word. -/
theorem steps_eq_feed (hw : 0 < w) (n : ℕ) (s : BitVec w) :
    steps poly n s = feed poly 0#w (bits n s.toNat) ^^^ (s >>> n) := by
  have h := @steps_setWidth_xor w poly w hw le_rfl n 0#w s
  simpa only [BitVec.setWidth_eq, BitVec.zero_xor] using h

/-- A word that is not longer than the register is added to it at once. -/
theorem feed_bits (hw : 0 < w) {n : ℕ} (s v : BitVec w) (hv : v.toNat < 2 ^ n) :
    feed poly s (bits n v.toNat) = steps poly n (s ^^^ v) := by
  have h := @setWidth_feed_bits w poly w hw le_rfl n s v hv
  simpa only [BitVec.setWidth_eq] using h

theorem steps_setWidth {W : ℕ} (hw : 0 < w) (hW : w ≤ W) (n : ℕ) (s : BitVec w) :
    steps (poly.setWidth W) n (s.setWidth W) = (steps poly n s).setWidth W := by
  have hstep : ∀ s : BitVec w,
      step (poly.setWidth W) (s.setWidth W) = (step poly s).setWidth W := by
    intro s
    have h := @step_setWidth_xor w poly W hw s 0#W hW
    simpa [feedBit] using h
  induction n generalizing s with
  | zero => rfl
  | succ n ih => rw [steps_succ, steps_succ, hstep, ih]

/-- The shift by `n` bits acts on the `n` low bits `lo`; the others only move down. -/
theorem steps_low (hw : 0 < w) (n : ℕ) {s lo : BitVec w} (hlo : lo.toNat = s.toNat % 2 ^ n) :
    steps poly n s = steps poly n lo ^^^ (s >>> n) := by
  have hzero : lo >>> n = 0#w := by
    apply BitVec.eq_of_toNat_eq
    rw [BitVec.toNat_ushiftRight, Nat.shiftRight_eq_div_pow, hlo,
      Nat.div_eq_of_lt (Nat.mod_lt _ (Nat.two_pow_pos n)), BitVec.toNat_ofNat, Nat.zero_mod]
  rw [steps_eq_feed hw, steps_eq_feed hw n lo, hlo, bits_mod, hzero, BitVec.xor_zero]

/-- The shift by some bytes, the lowest byte `lo` of the register apart. -/
theorem steps_eight_succ (hw : 0 < w) (k : ℕ) {s lo : BitVec w}
    (hlo : lo.toNat = s.toNat % 256) :
    steps poly (8 * (k + 1)) s = steps poly (8 * (k + 1)) lo ^^^ steps poly (8 * k) (s >>> 8) := by
  rw [mul_add, mul_one, steps_add, steps_add _ _ lo, steps_low hw 8 hlo, steps_xor]

/-! ### Errors that change the register -/

/-- A polynomial whose lowest coefficient is one: the shift loses nothing. -/
theorem step_injective (hpoly : poly.getLsbD (w - 1) = true) :
    Function.Injective (step poly) := by
  intro a b h
  have hbit : ∀ i, (a.getLsbD (i + 1) ^^ (a.getLsbD 0 && poly.getLsbD i)) =
      (b.getLsbD (i + 1) ^^ (b.getLsbD 0 && poly.getLsbD i)) := by
    intro i
    rw [← getLsbD_step, ← getLsbD_step, h]
  have hlow : a.getLsbD 0 = b.getLsbD 0 := by
    have hw := hbit (w - 1)
    have ha : a.getLsbD (w - 1 + 1) = false := BitVec.getLsbD_of_ge _ _ (by omega)
    have hb : b.getLsbD (w - 1 + 1) = false := BitVec.getLsbD_of_ge _ _ (by omega)
    simpa only [hpoly, ha, hb, Bool.and_true, Bool.false_xor] using hw
  apply BitVec.eq_of_getLsbD_eq
  intro i _
  cases i with
  | zero => exact hlow
  | succ i =>
    have hi := hbit i
    rw [hlow] at hi
    exact Bool.xor_left_inj.mp hi

theorem steps_injective (hpoly : poly.getLsbD (w - 1) = true) (n : ℕ) :
    Function.Injective (steps poly n) := (step_injective hpoly).iterate n

/-- Registers that differ still differ after a message. -/
theorem feed_injective (hpoly : poly.getLsbD (w - 1) = true) (message : List Bool) :
    Function.Injective fun s => feed poly s message := by
  intro s t h
  have hzero : steps poly message.length (s ^^^ t) = steps poly message.length 0#w := by
    rw [← feed_xor_feed, steps_zero_right]
    exact BitVec.xor_eq_zero_iff.mpr h
  exact BitVec.xor_eq_zero_iff.mp (steps_injective hpoly _ hzero)

/-- The number with these bits, the lowest one first. -/
def ofBits : List Bool → ℕ
  | [] => 0
  | b :: message => b.toNat + 2 * ofBits message

theorem bits_ofBits (message : List Bool) : bits message.length (ofBits message) = message := by
  induction message with
  | nil => rfl
  | cons b message ih =>
    have hdiv : (b.toNat + 2 * ofBits message) / 2 = ofBits message := by
      have hb := b.toNat_le
      omega
    have hbit : (b.toNat + 2 * ofBits message).testBit 0 = b := by
      rw [Nat.testBit_zero]
      cases b <;> simp
    rw [ofBits, List.length_cons, bits, hdiv, hbit, ih]

theorem ofBits_lt (message : List Bool) : ofBits message < 2 ^ message.length := by
  induction message with
  | nil => exact Nat.one_pos
  | cons b message ih =>
    have hb := b.toNat_le
    rw [ofBits, List.length_cons, pow_succ]
    omega

/-- A register tells apart the messages of one length that are no longer than it is. -/
theorem eq_of_feed_eq (hpoly : poly.getLsbD (w - 1) = true) {s : BitVec w} {x y : List Bool}
    (hlen : x.length = y.length) (hw : x.length ≤ w) (h : feed poly s x = feed poly s y) :
    x = y := by
  rcases Nat.eq_zero_or_pos w with rfl | hpos
  · rw [List.eq_nil_of_length_eq_zero (by omega : x.length = 0),
      List.eq_nil_of_length_eq_zero (by omega : y.length = 0)]
  · have hword : ∀ z : List Bool, z.length = x.length →
        (BitVec.ofNat w (ofBits z)).toNat = ofBits z ∧
          feed poly s z = steps poly x.length (s ^^^ BitVec.ofNat w (ofBits z)) := by
      intro z hz
      have hlt := ofBits_lt z
      have hnat : (BitVec.ofNat w (ofBits z)).toNat = ofBits z :=
        Nat.mod_eq_of_lt (hlt.trans_le (Nat.pow_le_pow_right (by omega) (by omega)))
      refine ⟨hnat, ?_⟩
      rw [← feed_bits hpos s _ (by rw [hnat, ← hz]; exact hlt), hnat, ← hz, bits_ofBits]
    obtain ⟨hx, hfx⟩ := hword x rfl
    obtain ⟨hy, hfy⟩ := hword y hlen.symm
    rw [hfx, hfy] at h
    have hnat := congrArg BitVec.toNat ((BitVec.xor_right_inj s).mp (steps_injective hpoly _ h))
    rw [hx, hy] at hnat
    rw [← bits_ofBits x, ← bits_ofBits y, hnat, hlen]

/-- Messages that differ only within as many bits as the register has leave different registers. -/
theorem feed_ne_of_burst (hpoly : poly.getLsbD (w - 1) = true) (s : BitVec w)
    {a x y b : List Bool} (hlen : x.length = y.length) (hw : x.length ≤ w) (hne : x ≠ y) :
    feed poly s (a ++ x ++ b) ≠ feed poly s (a ++ y ++ b) := by
  intro h
  rw [feed_append, feed_append, feed_append _ _ b, feed_append _ a y] at h
  exact hne (eq_of_feed_eq hpoly hlen hw (feed_injective hpoly b h))

/-- Whether an odd number of the bits are set. -/
def parity (message : List Bool) : Bool := message.foldr xor false

@[simp] theorem parity_nil : parity [] = false := rfl

@[simp] theorem parity_cons (b : Bool) (message : List Bool) :
    parity (b :: message) = (b ^^ parity message) := rfl

theorem parity_append (x y : List Bool) : parity (x ++ y) = (parity x ^^ parity y) := by
  induction x with
  | nil => exact (Bool.false_xor _).symm
  | cons b x ih => rw [List.cons_append, parity_cons, parity_cons, ih, Bool.xor_assoc]

theorem parity_eq_true_iff (message : List Bool) :
    parity message = true ↔ message.count true % 2 = 1 := by
  induction message with
  | nil => simp
  | cons b message ih =>
    rw [parity_cons, List.count_cons]
    cases b
    · simpa using ih
    · rw [Bool.true_xor, Bool.not_eq_true', ← Bool.not_eq_true, ih, beq_self_eq_true, if_pos rfl]
      omega

theorem parity_zipWith {x y : List Bool} (h : x.length = y.length) :
    parity (List.zipWith xor x y) = (parity x ^^ parity y) := by
  induction x generalizing y with
  | nil => rw [List.eq_nil_of_length_eq_zero h.symm]; rfl
  | cons a x ih =>
    cases y with
    | nil => cases h
    | cons b y =>
      rw [List.zipWith_cons_cons, parity_cons, parity_cons, parity_cons, ih (Nat.succ.inj h)]
      cases a <;> cases b <;> cases parity x <;> cases parity y <;> rfl

theorem bits_xor (k m n : ℕ) :
    bits k (m ^^^ n) = List.zipWith xor (bits k m) (bits k n) := by
  induction k generalizing m n with
  | zero => rfl
  | succ k ih =>
    have hdiv : (m ^^^ n) / 2 = m / 2 ^^^ n / 2 := by
      apply Nat.eq_of_testBit_eq
      intro i
      rw [Nat.testBit_xor, Nat.testBit_div_two, Nat.testBit_div_two, Nat.testBit_div_two,
        Nat.testBit_xor]
    rw [bits, bits, bits, List.zipWith_cons_cons, hdiv, ih, Nat.testBit_xor]

/-- Whether an odd number of the bits of the register are set. -/
def registerParity (s : BitVec w) : Bool := parity (bits w s.toNat)

theorem registerParity_xor (s t : BitVec w) :
    registerParity (s ^^^ t) = (registerParity s ^^ registerParity t) := by
  rw [registerParity, BitVec.toNat_xor, bits_xor, parity_zipWith (by simp)]
  rfl

theorem registerParity_ushiftRight (s : BitVec w) :
    registerParity (s >>> 1) = (registerParity s ^^ s.getLsbD 0) := by
  cases w with
  | zero => simp [registerParity, bits]
  | succ w =>
    have hlt : s.toNat / 2 / 2 ^ w = 0 := by
      rw [Nat.div_div_eq_div_mul, ← pow_succ', Nat.div_eq_of_lt s.isLt]
    have htop : bits (w + 1) (s.toNat / 2) = bits w (s.toNat / 2) ++ [false] := by
      rw [bits_add, hlt]
      rfl
    rw [registerParity, registerParity, BitVec.toNat_ushiftRight, Nat.shiftRight_one, htop, bits,
      parity_append, parity_cons, BitVec.testBit_toNat]
    cases s.getLsbD 0 <;> simp

/-- Under a polynomial with an odd number of coefficients in the register, the parity of the
register follows that of the message. -/
theorem registerParity_feed (hw : 0 < w) (hpoly : registerParity poly = true) (s : BitVec w)
    (message : List Bool) :
    registerParity (feed poly s message) = (registerParity s ^^ parity message) := by
  have hstep : ∀ s : BitVec w, registerParity (step poly s) = registerParity s := by
    intro s
    unfold step
    split_ifs with h
    · rw [registerParity_xor, registerParity_ushiftRight, hpoly, h]
      cases registerParity s <;> rfl
    · rw [registerParity_ushiftRight, Bool.eq_false_iff.mpr h, Bool.xor_false]
  have hone : ∀ b : Bool, registerParity ((BitVec.ofBool b).setWidth w) = b := by
    intro b
    have hzero : registerParity 0#w = false := by
      have h := registerParity_xor 0#w 0#w
      rwa [BitVec.xor_self, Bool.xor_self] at h
    have hshift : (BitVec.ofBool b).setWidth w >>> 1 = 0#w := by
      apply BitVec.eq_of_getLsbD_eq
      intro i _
      simp [BitVec.getLsbD_ushiftRight, add_comm 1 i]
    have hlow : ((BitVec.ofBool b).setWidth w).getLsbD 0 = b := by simp [hw]
    have h := registerParity_ushiftRight ((BitVec.ofBool b).setWidth w)
    rw [hshift, hzero, hlow] at h
    revert h
    cases registerParity ((BitVec.ofBool b).setWidth w) <;> cases b <;> simp
  induction message generalizing s with
  | nil => exact (Bool.xor_false _).symm
  | cons b message ih =>
    rw [feed_cons, ih, feedBit, hstep, registerParity_xor, hone, parity_cons, Bool.xor_assoc]

/-- Messages of one length that differ in an odd number of bits leave different registers. -/
theorem feed_ne_of_odd (hw : 0 < w) (hpoly : registerParity poly = true) (s : BitVec w)
    {x y : List Bool} (hlen : x.length = y.length)
    (hodd : (List.zipWith xor x y).count true % 2 = 1) : feed poly s x ≠ feed poly s y := by
  intro h
  have hparity := (parity_eq_true_iff _).mpr hodd
  have heq := congrArg registerParity h
  rw [registerParity_feed hw hpoly, registerParity_feed hw hpoly] at heq
  rw [parity_zipWith hlen, Bool.xor_right_inj.mp heq, Bool.xor_self] at hparity
  exact Bool.noConfusion hparity

/-! ### Division of polynomials -/

/-- The remainder of the polynomial `t` of degree below `n + w` on division by one of degree `w`, as
long division computes it: the coefficients of a polynomial are the bits of a number, and the
divisor is subtracted at each power whose coefficient is set, from the highest on. -/
def modTwo (w divisor : ℕ) : ℕ → ℕ → ℕ
  | 0, t => t
  | n + 1, t => modTwo w divisor n (if t.testBit (n + w) then t ^^^ divisor <<< n else t)

/-- What is left of a dividend is the reversed register behind the reversed rest of the message. -/
theorem testBit_modTwo (hw : 0 < w) {divisor : ℕ}
    (hdivisor : ∀ i, divisor.testBit i =
      (decide (i = w) || (decide (i < w) && poly.getLsbD (w - 1 - i))))
    (n : ℕ) (s : BitVec w) (message t : ℕ)
    (ht : ∀ i, t.testBit i =
      ((decide (w ≤ i ∧ i < w + n) && message.testBit (w + n - 1 - i)) ^^
        (decide (n ≤ i ∧ i < n + w) && s.getLsbD (n + w - 1 - i)))) (i : ℕ) :
    (modTwo w divisor n t).testBit i =
      (decide (i < w) && (feed poly s (bits n message)).getLsbD (w - 1 - i)) := by
  induction n generalizing s message t with
  | zero =>
    have hfalse : (decide (w ≤ i ∧ i < w + 0)) = false := decide_eq_false (by omega)
    rw [modTwo, ht, hfalse, Bool.false_and, Bool.false_xor, bits, feed_nil]
    simp
  | succ n ih =>
    rw [modTwo, bits, feed_cons]
    apply ih
    intro j
    have htop : t.testBit (n + w) = (s.getLsbD 0 ^^ message.testBit 0) := by
      rw [ht, decide_eq_true (by omega), decide_eq_true (by omega), Bool.true_and, Bool.true_and,
        show w + (n + 1) - 1 - (n + w) = 0 by omega, show n + 1 + w - 1 - (n + w) = 0 by omega,
        Bool.xor_comm]
    have hbit : (if t.testBit (n + w) = true then t ^^^ divisor <<< n else t).testBit j =
        (t.testBit j ^^ ((s.getLsbD 0 ^^ message.testBit 0) &&
          (decide (n ≤ j) && divisor.testBit (j - n)))) := by
      rw [← htop]
      split_ifs with h
      · rw [Nat.testBit_xor, Nat.testBit_shiftLeft, h, Bool.true_and]
      · rw [Bool.eq_false_iff.mpr h, Bool.false_and, Bool.xor_false]
    rw [hbit, hdivisor]
    rcases Nat.lt_trichotomy j (n + w) with hj | rfl | hj
    · have hmsg : (decide (w ≤ j ∧ j < w + (n + 1)) && message.testBit (w + (n + 1) - 1 - j)) =
          (decide (w ≤ j ∧ j < w + n) && (message / 2).testBit (w + n - 1 - j)) := by
        rw [Nat.testBit_div_two, show w + n - 1 - j + 1 = w + (n + 1) - 1 - j by omega]
        exact congrArg (· && _) (decide_eq_decide.mpr (by omega))
      rw [ht, hmsg, decide_eq_false (show ¬ j - n = w by omega), Bool.false_or, Bool.xor_assoc]
      congr 1
      by_cases hn : n ≤ j
      · have hreg : (decide (n + 1 ≤ j ∧ j < n + 1 + w) && s.getLsbD (n + 1 + w - 1 - j)) =
            s.getLsbD (n + w - 1 - j + 1) := by
          rcases hn.eq_or_lt with rfl | hlt
          · rw [BitVec.getLsbD_of_ge s (n + w - 1 - n + 1) (by omega), decide_eq_false (by omega),
              Bool.false_and]
          · rw [decide_eq_true (by omega), Bool.true_and]
            congr 1
            omega
        rw [hreg, getLsbD_feedBit hw, decide_eq_true (show n ≤ j ∧ j < n + w by omega),
          decide_eq_true hn, decide_eq_true (show j - n < w by omega), Bool.true_and,
          Bool.true_and, Bool.true_and, show w - 1 - (j - n) = n + w - 1 - j by omega]
      · rw [decide_eq_false (show ¬ (n + 1 ≤ j ∧ j < n + 1 + w) by omega), decide_eq_false hn,
          decide_eq_false (show ¬ (n ≤ j ∧ j < n + w) by omega), Bool.false_and, Bool.false_and,
          Bool.false_and, Bool.and_false, Bool.xor_false]
    · rw [htop, decide_eq_true (by omega), decide_eq_true (by omega), Bool.true_or, Bool.true_and,
        Bool.and_true, Bool.xor_self, decide_eq_false (by omega), decide_eq_false (by omega),
        Bool.false_and, Bool.false_and, Bool.xor_self]
    · rw [ht, decide_eq_false (show ¬ (w ≤ j ∧ j < w + (n + 1)) by omega),
        decide_eq_false (show ¬ (n + 1 ≤ j ∧ j < n + 1 + w) by omega),
        decide_eq_false (show ¬ (w ≤ j ∧ j < w + n) by omega),
        decide_eq_false (show ¬ (n ≤ j ∧ j < n + w) by omega),
        decide_eq_false (show ¬ j - n = w by omega), decide_eq_false (show ¬ j - n < w by omega)]
      simp

/-- Feeding a word is a division of polynomials: the reversed word and the reversed register, each
moved up by the length of the other, leave the reversed register after the word. -/
theorem reverse_modTwo (hw : 0 < w) {divisor : ℕ}
    (hdivisor : ∀ i, divisor.testBit i =
      (decide (i = w) || (decide (i < w) && poly.getLsbD (w - 1 - i))))
    {n : ℕ} (s : BitVec w) (word : BitVec n) :
    (BitVec.ofNat w (modTwo w divisor n
      (word.reverse.toNat <<< w ^^^ s.reverse.toNat <<< n))).reverse =
      feed poly s (bits n word.toNat) := by
  have hshift : ∀ {v : ℕ} (x : BitVec v) (k i : ℕ), (x.reverse.toNat <<< k).testBit i =
      (decide (k ≤ i ∧ i < k + v) && x.getLsbD (k + v - 1 - i)) := by
    intro v x k i
    rw [Nat.testBit_shiftLeft, BitVec.testBit_toNat, BitVec.getLsbD_reverse, BitVec.getMsbD]
    by_cases hk : k ≤ i
    · rw [decide_eq_true hk, Bool.true_and, show v - 1 - (i - k) = k + v - 1 - i by omega]
      exact congrArg (· && _) (decide_eq_decide.mpr (by omega))
    · rw [decide_eq_false hk, decide_eq_false (show ¬ (k ≤ i ∧ i < k + v) by omega),
        Bool.false_and, Bool.false_and]
  have hmod := testBit_modTwo hw hdivisor n s word.toNat
    (word.reverse.toNat <<< w ^^^ s.reverse.toNat <<< n) fun i => by
      rw [Nat.testBit_xor, hshift, hshift, BitVec.testBit_toNat]
  apply BitVec.eq_of_getLsbD_eq
  intro i hi
  rw [BitVec.getLsbD_reverse, BitVec.getMsbD, BitVec.getLsbD_ofNat, hmod, decide_eq_true hi,
    decide_eq_true (show w - 1 - i < w by omega), Bool.true_and, Bool.true_and, Bool.true_and,
    show w - 1 - (w - 1 - i) = i by omega]

end ShiftRegister
