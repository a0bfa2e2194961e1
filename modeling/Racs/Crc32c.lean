import Racs.Foundation.ShiftRegister
import Racs.Hash

/-!
# The checksum from tables

`crc32c_sw` computes the checksum eight bytes at a time from tables, in one way on a little-endian
and in another on a big-endian machine. Both first bring the pointer to a multiple of eight.

The buffer is a list of bytes at the address `addr`; `next` counts from its start and `len` is what
is left. A load is undefined where it leaves the buffer. The tables that `pthread_once` fills are
functions of the index.

## Main definitions

* `Racs.crcFeed` — the checksum register.
* `Racs.crc32cSwLittle`, `Racs.crc32cSwBig`, `Racs.crc32cSw`.

## Main results

* `Racs.crc32c_eq_feed` — the checksum a byte at a time, as a shift register.
* `Racs.crc32cSw_eq` — the tables compute it too, and read only the buffer.
-/

namespace Racs

open ByteBuffer ShiftRegister

/-! ### The register -/

/-- The checksum register after the bits of a message. -/
def crcFeed (crc : UInt32) (message : List Bool) : UInt32 :=
  ⟨feed crcPoly.toBitVec crc.toBitVec message⟩

/-- The checksum register after `n` shifts. -/
def crcShifts (n : ℕ) (crc : UInt32) : UInt32 := ⟨steps crcPoly.toBitVec n crc.toBitVec⟩

/-- `crc32c_table_little[0][(crc ^ *next++) & 0xff] ^ (crc >> 8)`. -/
def crcByte (crc : UInt32) (b : UInt8) : UInt32 :=
  crc32cTable ((crc ^^^ b.toUInt32) &&& 0xff) ^^^ (crc >>> 8)

theorem and_one_eq_one_iff (crc : UInt32) : crc &&& 1 = 1 ↔ crc.toBitVec.getLsbD 0 = true := by
  have h : (crc &&& 1).toBitVec = (BitVec.ofBool (crc.toBitVec.getLsbD 0)).setWidth 32 := by
    rw [UInt32.toBitVec_and]
    exact BitVec.and_one_eq_setWidth_ofBool_getLsbD
  rw [← UInt32.toBitVec_inj, h]
  cases crc.toBitVec.getLsbD 0 <;> decide

theorem crcShift_eq (crc : UInt32) : crcShift crc = crcShifts 1 crc := by
  rw [crcShifts, steps_succ, crcShift, step]
  simp only [and_one_eq_one_iff]
  rw [← UInt32.toBitVec_inj]
  split_ifs <;> rfl

theorem crcShifts_add (m n : ℕ) (crc : UInt32) :
    crcShifts (m + n) crc = crcShifts m (crcShifts n crc) :=
  congrArg UInt32.ofBitVec (steps_add m n crc.toBitVec)

theorem crcShifts_xor (n : ℕ) (a b : UInt32) :
    crcShifts n (a ^^^ b) = crcShifts n a ^^^ crcShifts n b :=
  congrArg UInt32.ofBitVec (steps_xor n a.toBitVec b.toBitVec)

theorem crc32cTable_eq (n : UInt32) : crc32cTable n = crcShifts 8 n := by
  unfold crc32cTable
  simp only [crcShift_eq, ← crcShifts_add]

theorem toNat_and_byte (x : UInt32) : (x &&& 0xff).toBitVec.toNat = x.toBitVec.toNat % 256 := by
  rw [UInt32.toBitVec_and, BitVec.toNat_and]
  exact Nat.and_two_pow_sub_one_eq_mod _ 8

/-- The table at the lowest byte, and the other bytes moved down. -/
theorem crcShifts_eight_succ (k : ℕ) (x : UInt32) :
    crcShifts (8 * (k + 1)) x =
      crcShifts (8 * (k + 1)) (x &&& 0xff) ^^^ crcShifts (8 * k) (x >>> 8) :=
  congrArg UInt32.ofBitVec (steps_eight_succ (by decide) k (toNat_and_byte x))

theorem crcFeed_append (crc : UInt32) (a b : List Bool) :
    crcFeed crc (a ++ b) = crcFeed (crcFeed crc a) b :=
  congrArg UInt32.ofBitVec (feed_append crc.toBitVec a b)

/-- A word that is not longer than the register. -/
theorem crcFeed_bits {n : ℕ} (crc word : UInt32) (hword : word.toNat < 2 ^ n) :
    crcFeed crc (bits n word.toNat) = crcShifts n (crc ^^^ word) :=
  congrArg UInt32.ofBitVec (feed_bits (by decide) crc.toBitVec word.toBitVec hword)

theorem crcByte_eq (crc : UInt32) (b : UInt8) : crcByte crc b = crcFeed crc (bits 8 b.toNat) := by
  have hb := b.toNat_lt
  have hzero : b.toNat >>> 8 = 0 := Nat.shiftRight_eq_zero b.toNat 8 hb
  have hshift : (crc ^^^ b.toUInt32) >>> 8 = crc >>> 8 := by
    rw [← UInt32.toNat_inj, UInt32.toNat_shiftRight, UInt32.toNat_shiftRight, UInt32.toNat_xor,
      Nat.shiftRight_xor_distrib, UInt8.toNat_toUInt32]
    exact (congrArg _ hzero).trans (Nat.xor_zero _)
  have hfeed := crcFeed_bits (n := 8) crc b.toUInt32 (by rwa [UInt8.toNat_toUInt32])
  have hlow := crcShifts_eight_succ 0 (crc ^^^ b.toUInt32)
  rw [hshift] at hlow
  rw [UInt8.toNat_toUInt32] at hfeed
  rw [hfeed, crcByte, crc32cTable_eq]
  exact hlow.symm

theorem foldl_crcByte (crc : UInt32) (buf : List UInt8) :
    buf.foldl crcByte crc = crcFeed crc (byteBits buf) := by
  induction buf generalizing crc with
  | nil => rfl
  | cons b buf ih => rw [List.foldl_cons, ih, crcByte_eq, byteBits_cons, crcFeed_append]

/-- The checksum is the complement of the register, started from the complement of the seed. -/
theorem crc32c_eq_feed (crc : UInt32) (buf : List UInt8) :
    crc32c crc buf = ~~~ crcFeed (~~~ crc) (byteBits buf) :=
  congrArg (~~~ ·) (foldl_crcByte (~~~ crc) buf)

example : crc32c 0 [0x31, 0x32, 0x33, 0x34, 0x35, 0x36, 0x37, 0x38, 0x39] = 0xe3069283 := by
  decide +kernel

/-! ### Loops over a buffer -/

section Loops

variable {σ : Type*}

/-- `*(uint64_t const *) next` on a little-endian machine. -/
def loadLittle (buf : List UInt8) (next : ℕ) : Option UInt64 :=
  (slice buf next 8).map fun bs => UInt64.ofNat (decode bs)

/-- `*(uint64_t const *) next` on a big-endian machine. -/
def loadBig (buf : List UInt8) (next : ℕ) : Option UInt64 :=
  (slice buf next 8).map fun bs => UInt64.ofNat (decode bs.reverse)

/-- `while (len && ((uintptr_t) next & 7) != 0)`, with the step for one byte. -/
def leadingBytes (byte : σ → UInt8 → σ) (addr : ℕ) (buf : List UInt8) :
    σ → ℕ → ℕ → Option (σ × ℕ × ℕ)
  | crc, next, 0 => some (crc, next, 0)
  | crc, next, len + 1 =>
    if (addr + next) % 8 ≠ 0 then
      buf[next]?.bind fun b => leadingBytes byte addr buf (byte crc b) (next + 1) len
    else some (crc, next, len + 1)

/-- `while (len)`, with the step for one byte. -/
def trailingBytes (byte : σ → UInt8 → σ) (buf : List UInt8) : σ → ℕ → ℕ → Option σ
  | crc, _, 0 => some crc
  | crc, next, len + 1 =>
    buf[next]?.bind fun b => trailingBytes byte buf (byte crc b) (next + 1) len

/-- `do … while (len >= 8)` under `if (len >= 8)`, with the step for one word. -/
def words (load : ℕ → Option UInt64) (word : σ → UInt64 → σ) (crc : σ) (next len : ℕ) :
    Option (σ × ℕ × ℕ) :=
  if 8 ≤ len then (load next).bind fun v => words load word (word crc v) (next + 8) (len - 8)
  else some (crc, next, len)
termination_by len

/-- The bytes that are left. -/
def left (buf : List UInt8) (next len : ℕ) : List UInt8 := (buf.drop next).take len

theorem left_succ {buf : List UInt8} {next len : ℕ} (h : next + (len + 1) ≤ buf.length) :
    ∃ b, buf[next]? = some b ∧ left buf next (len + 1) = b :: left buf (next + 1) len := by
  refine ⟨buf[next], List.getElem?_eq_getElem (by omega), ?_⟩
  rw [left, List.drop_eq_getElem_cons (by omega), List.take_succ_cons, left]

theorem left_add {buf : List UInt8} (next a b : ℕ) :
    left buf next (a + b) = left buf next a ++ left buf (next + a) b := by
  rw [left, List.take_add, List.drop_drop]
  rfl

theorem slice_left {buf : List UInt8} {next len : ℕ} (h : next + len ≤ buf.length) :
    slice buf next len = some (left buf next len) := slice_eq_some.mpr ⟨h, rfl⟩

/-- A loop over the buffer keeps what the register becomes at its end, and where the end is. -/
structure Keeps (buf : List UInt8) (before after : UInt32 × ℕ × ℕ) : Prop where
  feed : crcFeed after.1 (byteBits (left buf after.2.1 after.2.2)) =
    crcFeed before.1 (byteBits (left buf before.2.1 before.2.2))
  upto : after.2.1 + after.2.2 = before.2.1 + before.2.2

variable {buf : List UInt8}

theorem Keeps.refl (p : UInt32 × ℕ × ℕ) : Keeps buf p p := ⟨rfl, rfl⟩

theorem Keeps.trans {p q r : UInt32 × ℕ × ℕ} (h : Keeps buf p q) (h' : Keeps buf q r) :
    Keeps buf p r := ⟨h'.feed.trans h.feed, h'.upto.trans h.upto⟩

/-- A loop that has fed the next `n` bytes. -/
theorem Keeps.skip (crc : UInt32) (next n len : ℕ) :
    Keeps buf (crc, next, n + len) (crcFeed crc (byteBits (left buf next n)), next + n, len) :=
  ⟨by rw [left_add, byteBits_append, crcFeed_append], by dsimp only; omega⟩

variable {rep : UInt32 → σ} {byte : σ → UInt8 → σ}
  (hbyte : ∀ crc b, byte (rep crc) b = rep (crcFeed crc (bits 8 b.toNat)))

include hbyte

theorem leadingBytes_keeps (addr : ℕ) (crc : UInt32) {next len : ℕ}
    (h : next + len ≤ buf.length) :
    ∃ p : UInt32 × ℕ × ℕ, leadingBytes byte addr buf (rep crc) next len = some (rep p.1, p.2) ∧
      Keeps buf (crc, next, len) p := by
  induction len generalizing crc next with
  | zero => exact ⟨_, rfl, .refl _⟩
  | succ len ih =>
    rw [leadingBytes]
    split_ifs with haligned
    · obtain ⟨b, hb, hleft⟩ := left_succ h
      have hle : next + 1 + len ≤ buf.length := by omega
      obtain ⟨p, hp, hkeeps⟩ := ih (crcFeed crc (bits 8 b.toNat)) hle
      refine ⟨p, by rw [hb, Option.bind_some, hbyte, hp], .trans ⟨?_, ?_⟩ hkeeps⟩
      · dsimp only
        rw [hleft, byteBits_cons, crcFeed_append]
      · dsimp only
        omega
    · exact ⟨_, rfl, .refl _⟩

theorem trailingBytes_eq {crc : UInt32} {next len : ℕ} (h : next + len ≤ buf.length) :
    trailingBytes byte buf (rep crc) next len =
      some (rep (crcFeed crc (byteBits (left buf next len)))) := by
  induction len generalizing crc next with
  | zero => rw [trailingBytes, left, List.take_zero]; rfl
  | succ len ih =>
    obtain ⟨b, hb, hleft⟩ := left_succ h
    rw [trailingBytes, hb, Option.bind_some, hbyte, ih (by omega), hleft, byteBits_cons,
      crcFeed_append]

omit hbyte

/-- What a load and the step for one word do together. -/
def Loads (buf : List UInt8) (rep : UInt32 → σ) (load : ℕ → Option UInt64)
    (word : σ → UInt64 → σ) : Prop :=
  ∀ crc next, next + 8 ≤ buf.length → ∃ v, load next = some v ∧
    word (rep crc) v = rep (crcFeed crc (byteBits (left buf next 8)))

theorem words_keeps {load : ℕ → Option UInt64} {word : σ → UInt64 → σ}
    (hword : Loads buf rep load word) (crc : UInt32) {next len : ℕ}
    (h : next + len ≤ buf.length) :
    ∃ p : UInt32 × ℕ × ℕ, words load word (rep crc) next len = some (rep p.1, p.2) ∧
      Keeps buf (crc, next, len) p := by
  induction len using Nat.strong_induction_on generalizing crc next with
  | _ len ih =>
    rw [words]
    split_ifs with hlen
    · obtain ⟨v, hv, hstep⟩ := hword crc next (by omega)
      have hle : next + 8 + (len - 8) ≤ buf.length := by omega
      obtain ⟨p, hp, hkeeps⟩ :=
        ih (len - 8) (by omega) (crcFeed crc (byteBits (left buf next 8))) hle
      refine ⟨p, by rw [hv, Option.bind_some, hstep, hp], .trans ?_ hkeeps⟩
      have hskip : Keeps buf (crc, next, 8 + (len - 8)) _ := .skip crc next 8 (len - 8)
      rwa [show 8 + (len - 8) = len by omega] at hskip
    · exact ⟨_, rfl, .refl _⟩

end Loops

/-! ### Tables, eight bytes at a time -/

/-- The entry `crc32c_table_little[k][n]` of `crc32c_init_sw_little`. -/
def crc32cTableLittle : ℕ → UInt32 → UInt32
  | 0, n => crc32cTable n
  | k + 1, n =>
    let crc := crc32cTableLittle k n
    crc32cTable (crc &&& 0xff) ^^^ (crc >>> 8)

/-- The body of the loop over words of `crc32c_sw_little`. -/
def crc32cWordLittle (crcw v : UInt64) : UInt64 :=
  let crcw := crcw ^^^ v
  (crc32cTableLittle 7 (crcw &&& 0xff).toUInt32 ^^^
    crc32cTableLittle 6 ((crcw >>> 8) &&& 0xff).toUInt32 ^^^
    crc32cTableLittle 5 ((crcw >>> 16) &&& 0xff).toUInt32 ^^^
    crc32cTableLittle 4 ((crcw >>> 24) &&& 0xff).toUInt32 ^^^
    crc32cTableLittle 3 ((crcw >>> 32) &&& 0xff).toUInt32 ^^^
    crc32cTableLittle 2 ((crcw >>> 40) &&& 0xff).toUInt32 ^^^
    crc32cTableLittle 1 ((crcw >>> 48) &&& 0xff).toUInt32 ^^^
    crc32cTableLittle 0 (crcw >>> 56).toUInt32).toUInt64

/-- `crc32c_sw_little`, of a buffer at the address `addr`. -/
def crc32cSwLittle (addr : ℕ) (crc : UInt32) (buf : List UInt8) (len : ℕ) : Option UInt32 :=
  (leadingBytes crcByte addr buf (~~~ crc) 0 len).bind fun (crc, next, len) =>
  (if 8 ≤ len then
    (words (loadLittle buf) crc32cWordLittle crc.toUInt64 next len).map fun (crcw, next, len) =>
      (crcw.toUInt32, next, len)
  else some (crc, next, len)).bind fun (crc, next, len) =>
  (trailingBytes crcByte buf crc next len).map (~~~ ·)

/-- `swap`, in shifts and masks. -/
def swap (x : UInt64) : UInt64 :=
  let x := ((x <<< 8) &&& (0xff00ff00ff00ff00 : UInt64)) |||
    ((x >>> 8) &&& (0xff00ff00ff00ff : UInt64))
  let x := ((x <<< 16) &&& (0xffff0000ffff0000 : UInt64)) |||
    ((x >>> 16) &&& (0xffff0000ffff : UInt64))
  (x <<< 32) ||| (x >>> 32)

/-- The entry `crc32c_table_big[k][n]` of `crc32c_init_sw_big`, whose `crc` runs through the entries
of the table for bytes. -/
def crc32cTableBig (k : ℕ) (n : UInt32) : UInt64 := swap (crc32cTableLittle k n).toUInt64

/-- The body of the loop over words of `crc32c_sw_big`. -/
def crc32cWordBig (crcw v : UInt64) : UInt64 :=
  let crcw := crcw ^^^ v
  crc32cTableBig 0 (crcw &&& 0xff).toUInt32 ^^^
    crc32cTableBig 1 ((crcw >>> 8) &&& 0xff).toUInt32 ^^^
    crc32cTableBig 2 ((crcw >>> 16) &&& 0xff).toUInt32 ^^^
    crc32cTableBig 3 ((crcw >>> 24) &&& 0xff).toUInt32 ^^^
    crc32cTableBig 4 ((crcw >>> 32) &&& 0xff).toUInt32 ^^^
    crc32cTableBig 5 ((crcw >>> 40) &&& 0xff).toUInt32 ^^^
    crc32cTableBig 6 ((crcw >>> 48) &&& 0xff).toUInt32 ^^^
    crc32cTableBig 7 (crcw >>> 56).toUInt32

/-- `crc32c_sw_big`, of a buffer at the address `addr`. -/
def crc32cSwBig (addr : ℕ) (crc : UInt32) (buf : List UInt8) (len : ℕ) : Option UInt32 :=
  (leadingBytes crcByte addr buf (~~~ crc) 0 len).bind fun (crc, next, len) =>
  (if 8 ≤ len then
    (words (loadBig buf) crc32cWordBig (swap crc.toUInt64) next len).map fun (crcw, next, len) =>
      ((swap crcw).toUInt32, next, len)
  else some (crc, next, len)).bind fun (crc, next, len) =>
  (trailingBytes crcByte buf crc next len).map (~~~ ·)

/-- `crc32c_sw`, which asks for the byte order of the machine. -/
def crc32cSw (little : Bool) : ℕ → UInt32 → List UInt8 → ℕ → Option UInt32 :=
  if little then crc32cSwLittle else crc32cSwBig

/-! ### Words in a register of sixty-four bits -/

/-- The shifts of a register of sixty-four bits with the same polynomial. -/
def wideShifts (n : ℕ) (x : UInt64) : UInt64 :=
  ⟨steps (crcPoly.toBitVec.setWidth 64) n x.toBitVec⟩

theorem wideShifts_toUInt64 (n : ℕ) (crc : UInt32) :
    wideShifts n crc.toUInt64 = (crcShifts n crc).toUInt64 :=
  congrArg UInt64.ofBitVec (steps_setWidth (by decide) (by decide) n crc.toBitVec)

/-- A word is fed by sixty-four shifts of the register with the word added to it. -/
theorem toUInt64_crcFeed_bits (crc : UInt32) (v : UInt64) :
    (crcFeed crc (bits 64 v.toNat)).toUInt64 = wideShifts 64 (crc.toUInt64 ^^^ v) :=
  congrArg UInt64.ofBitVec
    (setWidth_feed_bits (by decide) (by decide) crc.toBitVec v.toBitVec v.toBitVec.isLt)

theorem toNat_and_byte64 (x : UInt64) : (x &&& 0xff).toNat = x.toNat % 256 := by
  rw [UInt64.toNat_and]
  exact Nat.and_two_pow_sub_one_eq_mod _ 8

theorem toUInt64_toUInt32_of_lt {x : UInt64} (h : x.toNat < 256) : x.toUInt32.toUInt64 = x := by
  rw [← UInt64.toNat_inj, UInt32.toNat_toUInt64, UInt64.toNat_toUInt32]
  exact Nat.mod_eq_of_lt (h.trans (by decide))

theorem crc32cTableLittle_eq (k : ℕ) (n : UInt32) :
    crc32cTableLittle k n = crcShifts (8 * (k + 1)) n := by
  induction k with
  | zero => exact crc32cTable_eq n
  | succ k ih =>
    have h := crcShifts_eight_succ 0 (crcShifts (8 * (k + 1)) n)
    rw [crc32cTableLittle, ih, crc32cTable_eq, show 8 * (k + 1 + 1) = 8 * (0 + 1) + 8 * (k + 1) by
      ring, crcShifts_add]
    exact h.symm

/-- One byte of the wide register, through the table. -/
theorem wideShifts_eight_succ (k : ℕ) (x : UInt64) :
    wideShifts (8 * (k + 1)) x =
      (crc32cTableLittle k (x &&& 0xff).toUInt32).toUInt64 ^^^ wideShifts (8 * k) (x >>> 8) := by
  have hlow : (x &&& 0xff).toUInt32.toUInt64 = x &&& 0xff :=
    toUInt64_toUInt32_of_lt (by rw [toNat_and_byte64]; omega)
  rw [crc32cTableLittle_eq, ← wideShifts_toUInt64, hlow]
  exact congrArg UInt64.ofBitVec (steps_eight_succ (by decide) k (toNat_and_byte64 x))

theorem shiftRight_shiftRight (x : UInt64) {a b c : UInt64}
    (h : a.toNat % 64 + b.toNat % 64 = c.toNat % 64) : x >>> a >>> b = x >>> c := by
  rw [← UInt64.toNat_inj, UInt64.toNat_shiftRight, UInt64.toNat_shiftRight,
    UInt64.toNat_shiftRight, ← Nat.shiftRight_add, h]

theorem toNat_shiftRight_top (x : UInt64) : (x >>> 56).toNat = x.toNat / 2 ^ 56 := by
  rw [UInt64.toNat_shiftRight]
  exact Nat.shiftRight_eq_div_pow _ 56

/-- The highest byte needs no mask. -/
theorem shiftRight_top_and (x : UInt64) : x >>> 56 &&& (0xff : UInt64) = x >>> 56 := by
  have hlt := x.toNat_lt
  rw [← UInt64.toNat_inj, toNat_and_byte64, toNat_shiftRight_top]
  omega

theorem wideShifts_sixtyFour (x : UInt64) :
    wideShifts 64 x =
      (crc32cTableLittle 7 (x &&& 0xff).toUInt32 ^^^
        crc32cTableLittle 6 ((x >>> 8) &&& 0xff).toUInt32 ^^^
        crc32cTableLittle 5 ((x >>> 16) &&& 0xff).toUInt32 ^^^
        crc32cTableLittle 4 ((x >>> 24) &&& 0xff).toUInt32 ^^^
        crc32cTableLittle 3 ((x >>> 32) &&& 0xff).toUInt32 ^^^
        crc32cTableLittle 2 ((x >>> 40) &&& 0xff).toUInt32 ^^^
        crc32cTableLittle 1 ((x >>> 48) &&& 0xff).toUInt32 ^^^
        crc32cTableLittle 0 (x >>> 56).toUInt32).toUInt64 := by
  have hlt := x.toNat_lt
  have hzero : wideShifts (8 * 0) (x >>> 56 >>> 8) = 0 := by
    rw [← UInt64.toNat_inj]
    change (x >>> 56 >>> 8).toNat = 0
    rw [UInt64.toNat_shiftRight, toNat_shiftRight_top]
    exact Nat.shiftRight_eq_zero _ 8 (by omega)
  have hshift := fun a b c h => @shiftRight_shiftRight x a b c h
  rw [show 64 = 8 * (7 + 1) by rfl, wideShifts_eight_succ, wideShifts_eight_succ,
    wideShifts_eight_succ, wideShifts_eight_succ, wideShifts_eight_succ, wideShifts_eight_succ,
    wideShifts_eight_succ, wideShifts_eight_succ, hshift 8 8 16 rfl, hshift 16 8 24 rfl,
    hshift 24 8 32 rfl, hshift 32 8 40 rfl, hshift 40 8 48 rfl, hshift 48 8 56 rfl, hzero,
    shiftRight_top_and]
  simp only [UInt32.toUInt64_xor, UInt64.xor_zero, UInt64.xor_assoc]

theorem length_left {buf : List UInt8} {next len : ℕ} (h : next + len ≤ buf.length) :
    (left buf next len).length = len := by
  rw [left, List.length_take, List.length_drop]
  omega

theorem loadLittle_eq {buf : List UInt8} {next : ℕ} (h : next + 8 ≤ buf.length) :
    loadLittle buf next = some (UInt64.ofNat (decode (left buf next 8))) := by
  rw [loadLittle, slice_left h, Option.map_some]

/-- The bits of the word that a little-endian machine loads. -/
theorem bits_load {buf : List UInt8} {next : ℕ} (h : next + 8 ≤ buf.length) :
    bits 64 (UInt64.ofNat (decode (left buf next 8))).toNat = byteBits (left buf next 8) := by
  have hlen := length_left h
  have hlt := decode_lt (left buf next 8)
  rw [hlen] at hlt
  rw [UInt64.toNat_ofNat_of_lt' hlt, ← bits_decode, hlen]

theorem loads_little (buf : List UInt8) :
    Loads buf UInt32.toUInt64 (loadLittle buf) crc32cWordLittle := by
  intro crc next h
  refine ⟨_, loadLittle_eq h, ?_⟩
  rw [← bits_load h, toUInt64_crcFeed_bits, wideShifts_sixtyFour]
  rfl

/-! ### The order of the bytes -/

/-- Two neighbours of `k` bits change places. -/
def flip (k i : ℕ) : ℕ := if i / k % 2 = 1 then i - k else i + k

/-- One line of `swap`. -/
theorem getLsbD_flip (x hi lo : BitVec 64) (k : ℕ)
    (hhi : ∀ i : Fin 64, hi.getLsbD i = decide (i / k % 2 = 1))
    (hlo : ∀ i : Fin 64, lo.getLsbD i = decide (i / k % 2 = 0)) {i : ℕ} (h : i < 64) :
    (((x <<< k) &&& hi) ||| ((x >>> k) &&& lo)).getLsbD i = x.getLsbD (flip k i) := by
  have hhi := hhi ⟨i, h⟩
  have hlo := hlo ⟨i, h⟩
  dsimp only at hhi hlo
  rw [BitVec.getLsbD_or, BitVec.getLsbD_and, BitVec.getLsbD_and, BitVec.getLsbD_shiftLeft,
    BitVec.getLsbD_ushiftRight, hhi, hlo, flip]
  split_ifs with hk
  · have hle : k ≤ i := by
      by_contra hlt
      rw [Nat.div_eq_of_lt (by omega)] at hk
      omega
    simp [hk, h, hle]
  · simp [add_comm k i, show i / k % 2 = 0 by omega]

theorem getLsbD_swap (x : UInt64) {i : ℕ} (h : i < 64) :
    (swap x).toBitVec.getLsbD i = x.toBitVec.getLsbD (8 * (7 - i / 8) + i % 8) := by
  have hflip : ∀ i : Fin 64, flip 32 i < 64 ∧ flip 16 (flip 32 i) < 64 ∧
      flip 8 (flip 16 (flip 32 i)) = 8 * (7 - i / 8) + i % 8 := by decide
  obtain ⟨h32, h16, h8⟩ := hflip ⟨i, h⟩
  dsimp only at h32 h16 h8
  have hlast : ∀ y : BitVec 64, ((y <<< 32) ||| (y >>> 32)).getLsbD i = y.getLsbD (flip 32 i) := by
    intro y
    rw [BitVec.getLsbD_or, BitVec.getLsbD_shiftLeft, BitVec.getLsbD_ushiftRight, flip]
    split_ifs with hi
    · rw [BitVec.getLsbD_of_ge y (32 + i) (by omega), Bool.or_false, decide_eq_true h,
        decide_eq_false (show ¬ i < 32 by omega), Bool.true_and, Bool.not_false, Bool.true_and]
    · rw [decide_eq_true (show i < 32 by omega), Bool.not_true, Bool.and_false, Bool.false_and,
        Bool.false_or, add_comm]
  rw [swap, UInt64.toBitVec_or]
  refine (hlast _).trans ?_
  refine (getLsbD_flip _ 0xffff0000ffff0000#64 0xffff0000ffff#64 16 (by decide) (by decide)
    h32).trans ?_
  refine (getLsbD_flip _ 0xff00ff00ff00ff00#64 0xff00ff00ff00ff#64 8 (by decide) (by decide)
    h16).trans ?_
  rw [h8]

theorem swap_xor (x y : UInt64) : swap (x ^^^ y) = swap x ^^^ swap y := by
  rw [← UInt64.toBitVec_inj]
  apply BitVec.eq_of_getLsbD_eq
  intro i hi
  rw [UInt64.toBitVec_xor, BitVec.getLsbD_xor, getLsbD_swap _ hi, getLsbD_swap _ hi,
    getLsbD_swap _ hi, UInt64.toBitVec_xor, BitVec.getLsbD_xor]

theorem swap_swap (x : UInt64) : swap (swap x) = x := by
  rw [← UInt64.toBitVec_inj]
  apply BitVec.eq_of_getLsbD_eq
  intro i hi
  rw [getLsbD_swap _ hi, getLsbD_swap _ (by omega)]
  congr 1
  omega

theorem getLsbD_byte (x a : UInt64) (i : ℕ) :
    ((x >>> a) &&& (0xff : UInt64)).toBitVec.getLsbD i =
      (decide (i < 8) && x.toBitVec.getLsbD (a.toNat % 64 + i)) := by
  have hnat : ((x >>> a) &&& (0xff : UInt64)).toBitVec.toNat =
      (x.toBitVec.toNat >>> (a.toNat % 64)) % 2 ^ 8 := by
    refine (toNat_and_byte64 (x >>> a)).trans ?_
    rw [UInt64.toNat_shiftRight]
    rfl
  rw [← BitVec.testBit_toNat, hnat, Nat.testBit_mod_two_pow, Nat.testBit_shiftRight,
    BitVec.testBit_toNat]

/-- A byte of the swapped word. -/
theorem byte_swap (x : UInt64) {j : ℕ} (hj : j ≤ 7) {a b : UInt64} (ha : a.toNat = 8 * j)
    (hb : b.toNat = 56 - 8 * j) :
    (swap x >>> a) &&& (0xff : UInt64) = (x >>> b) &&& (0xff : UInt64) := by
  rw [← UInt64.toBitVec_inj]
  apply BitVec.eq_of_getLsbD_eq
  intro i _
  rw [getLsbD_byte, getLsbD_byte, ha, hb]
  by_cases hi : i < 8
  · rw [getLsbD_swap _ (by omega)]
    congr 2
    omega
  · rw [decide_eq_false hi, Bool.false_and, Bool.false_and]

/-- The word that a big-endian machine loads. -/
theorem ofNat_decode_reverse {bs : List UInt8} (h : bs.length = 8) :
    UInt64.ofNat (decode bs.reverse) = swap (UInt64.ofNat (decode bs)) := by
  have hbit : ∀ (bs : List UInt8) {i : ℕ}, i < 64 → (UInt64.ofNat (decode bs)).toBitVec.getLsbD i =
      (bs.getD (i / 8) 0).toNat.testBit (i % 8) := by
    intro bs i hi
    have hofNat : (UInt64.ofNat (decode bs)).toBitVec = BitVec.ofNat 64 (decode bs) := rfl
    rw [hofNat, BitVec.getLsbD_ofNat, decide_eq_true hi, Bool.true_and, testBit_decode]
  rw [← UInt64.toBitVec_inj]
  apply BitVec.eq_of_getLsbD_eq
  intro i hi
  rw [hbit _ hi, getLsbD_swap _ hi, hbit _ (by omega), List.getD_reverse _ (by omega), h,
    show (8 * (7 - i / 8) + i % 8) / 8 = 8 - 1 - i / 8 by omega,
    show (8 * (7 - i / 8) + i % 8) % 8 = i % 8 by omega]

theorem crc32cWordBig_swap (crcw v : UInt64) :
    crc32cWordBig (swap crcw) (swap v) = swap (crc32cWordLittle crcw v) := by
  have hbyte := fun x j hj a b => @byte_swap x j hj a b
  have hzero : ∀ x : UInt64, swap x &&& (0xff : UInt64) = x >>> 56 := by
    intro x
    rw [← UInt64.shiftRight_zero (a := swap x), hbyte x 0 (by decide) 0 56 rfl rfl,
      shiftRight_top_and]
  have htop : ∀ x : UInt64, swap x >>> 56 = x &&& (0xff : UInt64) := by
    intro x
    rw [← shiftRight_top_and, hbyte x 7 (by decide) 56 0 rfl rfl, UInt64.shiftRight_zero]
  simp only [crc32cWordBig, crc32cWordLittle, ← swap_xor, crc32cTableBig, ← UInt32.toUInt64_xor,
    hzero, htop]
  rw [hbyte _ 1 (by decide) 8 48 rfl rfl, hbyte _ 2 (by decide) 16 40 rfl rfl,
    hbyte _ 3 (by decide) 24 32 rfl rfl, hbyte _ 4 (by decide) 32 24 rfl rfl,
    hbyte _ 5 (by decide) 40 16 rfl rfl, hbyte _ 6 (by decide) 48 8 rfl rfl]
  congr 2
  ac_rfl

theorem loads_big (buf : List UInt8) :
    Loads buf (fun crc => swap crc.toUInt64) (loadBig buf) crc32cWordBig := by
  intro crc next h
  obtain ⟨v, hload, hword⟩ := loads_little buf crc next h
  obtain rfl := Option.some.inj ((loadLittle_eq h).symm.trans hload)
  refine ⟨swap (UInt64.ofNat (decode (left buf next 8))), ?_, ?_⟩
  · rw [loadBig, slice_left h, Option.map_some, ofNat_decode_reverse (length_left h)]
  · rw [crc32cWordBig_swap, hword]

/-! ### The checksum in software -/

/-- What the three loops compute together, of a register that the loop over words holds as `rep`
says. -/
theorem crc32cSw_loops {rep : UInt32 → UInt64} {back : UInt64 → UInt32}
    (hback : ∀ crc, back (rep crc) = crc) {load : ℕ → Option UInt64}
    {word : UInt64 → UInt64 → UInt64} {buf : List UInt8} (hword : Loads buf rep load word)
    (addr : ℕ) (crc : UInt32) {len : ℕ} (h : len ≤ buf.length) :
    ((leadingBytes crcByte addr buf (~~~ crc) 0 len).bind fun (crc, next, len) =>
      (if 8 ≤ len then
        (words load word (rep crc) next len).map fun (crcw, next, len) => (back crcw, next, len)
      else some (crc, next, len)).bind fun (crc, next, len) =>
      (trailingBytes crcByte buf crc next len).map (~~~ ·)) = some (crc32c crc (buf.take len)) := by
  obtain ⟨⟨crc1, next1, len1⟩, hlead, hkeeps⟩ :
      ∃ p : UInt32 × ℕ × ℕ, leadingBytes crcByte addr buf (~~~ crc) 0 len = some p ∧
        Keeps buf (~~~ crc, 0, len) p :=
    @leadingBytes_keeps _ buf id crcByte crcByte_eq addr (~~~ crc) 0 len (by omega)
  obtain ⟨⟨crc2, next2, len2⟩, hwords, hkeeps2⟩ : ∃ p : UInt32 × ℕ × ℕ,
      (if 8 ≤ len1 then
        (words load word (rep crc1) next1 len1).map fun (crcw, next, len) => (back crcw, next, len)
      else some (crc1, next1, len1)) = some p ∧ Keeps buf (crc1, next1, len1) p := by
    split_ifs with h8
    · have hle : next1 + len1 ≤ buf.length := hkeeps.upto.le.trans (by simpa using h)
      obtain ⟨⟨crc2, next2, len2⟩, hp, hkeeps2⟩ := words_keeps hword crc1 hle
      exact ⟨(crc2, next2, len2), by simp only [hp, Option.map_some, hback], hkeeps2⟩
    · exact ⟨_, rfl, .refl _⟩
  have hall := hkeeps.trans hkeeps2
  have hle : next2 + len2 ≤ buf.length := hall.upto.le.trans (by simpa using h)
  have htrail : trailingBytes crcByte buf crc2 next2 len2 =
      some (crcFeed crc2 (byteBits (left buf next2 len2))) :=
    @trailingBytes_eq _ buf id crcByte crcByte_eq crc2 next2 len2 hle
  have hfeed : crcFeed crc2 (byteBits (left buf next2 len2)) =
      crcFeed (~~~ crc) (byteBits (buf.take len)) := hall.feed
  rw [hlead, Option.bind_some]
  dsimp only
  rw [hwords, Option.bind_some, htrail, Option.map_some, hfeed, crc32c_eq_feed]

theorem crc32cSwLittle_eq (addr : ℕ) (crc : UInt32) {buf : List UInt8} {len : ℕ}
    (h : len ≤ buf.length) :
    crc32cSwLittle addr crc buf len = some (crc32c crc (buf.take len)) := by
  unfold crc32cSwLittle
  exact crc32cSw_loops UInt32.toUInt32_toUInt64 (loads_little buf) addr crc h

theorem crc32cSwBig_eq (addr : ℕ) (crc : UInt32) {buf : List UInt8} {len : ℕ}
    (h : len ≤ buf.length) :
    crc32cSwBig addr crc buf len = some (crc32c crc (buf.take len)) := by
  have hback : ∀ crc : UInt32, (swap (swap crc.toUInt64)).toUInt32 = crc := fun crc => by
    rw [swap_swap, UInt32.toUInt32_toUInt64]
  unfold crc32cSwBig
  exact @crc32cSw_loops (fun crc => swap crc.toUInt64) (fun crcw => (swap crcw).toUInt32) hback _ _
    buf (loads_big buf) addr crc len h

/-- The tables compute the checksum of the first `len` bytes of a buffer, on a machine of either
byte order and whatever the address of the buffer is, and no load leaves the buffer. -/
theorem crc32cSw_eq (little : Bool) (addr : ℕ) (crc : UInt32) {buf : List UInt8} {len : ℕ}
    (h : len ≤ buf.length) :
    crc32cSw little addr crc buf len = some (crc32c crc (buf.take len)) := by
  cases little
  · exact crc32cSwBig_eq addr crc h
  · exact crc32cSwLittle_eq addr crc h

theorem crc32cSw_eq_aligned :
    crc32cSw false 5 0 (List.replicate 20 7) 18 = some (crc32c 0 (List.replicate 18 7)) :=
  crc32cSw_eq false 5 0 (by decide : 18 ≤ (List.replicate 20 (7 : UInt8)).length)

end Racs
