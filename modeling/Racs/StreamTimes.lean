import Racs.TimeIndex
import Mathlib.Algebra.Order.Field.Basic
import Mathlib.Algebra.Order.Ring.Rat
import Mathlib.Tactic.Linarith

/-!
# The times of a stream

The blocks of a stream are stored under times that do not go back: the time of a block is computed
from the offset of its stream, which only grows as long as the stream gets less than `2 ^ 64` bytes
of audio, and the metadata of a stream do not change. The arithmetic of `double` has to keep the
order (`Racs.Platform.Monotone`).

## Main definitions

* `Racs.streamBytes` — the audio of a stream in bytes, without a modulus.
* `Racs.StreamTimes` — the times of every stream do not go back, and are not ahead of the offset.

## Main results

* `Racs.metadataTimestamp_mono` — a later offset has a later time.
* `Racs.StreamTimes.step` — every step keeps `Racs.StreamTimes`.
-/

namespace Racs

variable {P : Platform} {cfg : Config}

/-! ### Arithmetic that keeps the order -/

/-- What the arithmetic of `double` is relied on for where times are compared: conversions, and
products and quotients with a positive integer, keep the order, and the quotient by zero has no
integer part. -/
structure Platform.Monotone (P : Platform) : Prop where
  ofInt : ∀ {m n : ℕ}, m ≤ n → P.le (P.ofInt m) (P.ofInt n)
  div : ∀ {x y : P.Double} {n : ℕ}, 0 < n → P.le x y →
    P.le (P.div x (P.ofInt n)) (P.div y (P.ofInt n))
  mul : ∀ {x y : P.Double} {n : ℕ}, 0 < n → P.le x y →
    P.le (P.mul x (P.ofInt n)) (P.mul y (P.ofInt n))
  trunc : ∀ {x y : P.Double} {a b : ℤ}, P.le x y → P.trunc x = some a → P.trunc y = some b → a ≤ b
  trunc_div_zero : ∀ m n : ℕ,
    P.trunc (P.mul (P.div (P.ofInt m) (P.ofInt (0 : ℕ))) (P.ofInt n)) = none

/-- The quotient of integers that is rounded towards zero keeps the order of fractions. -/
theorem tdiv_le_tdiv_of_mul_le {p q r s : ℤ} (hq : 0 < q) (hs : 0 < s) (h : p * s ≤ r * q) :
    p.tdiv q ≤ r.tdiv s := by
  have hpos : ∀ {p q r s : ℤ}, 0 < q → 0 < s → 0 ≤ p → p * s ≤ r * q → p.tdiv q ≤ r.tdiv s := by
    intro p q r s hq hs hp h
    have hr : 0 ≤ r := nonneg_of_mul_nonneg_left ((mul_nonneg hp hs.le).trans h) hq
    rw [Int.tdiv_eq_ediv_of_nonneg hp, Int.tdiv_eq_ediv_of_nonneg hr, Int.le_ediv_iff_mul_le hs]
    refine le_of_mul_le_mul_right ?_ hq
    calc p / q * s * q = p / q * q * s := by ring
      _ ≤ p * s := mul_le_mul_of_nonneg_right (Int.ediv_mul_le p hq.ne') hs.le
      _ ≤ r * q := h
  rcases le_or_gt 0 p with hp | hp
  · exact hpos hq hs hp h
  · rcases le_or_gt 0 r with hr | hr
    · have hneg := Int.tdiv_nonneg (neg_nonneg.mpr hp.le) hq.le
      rw [Int.neg_tdiv, neg_nonneg] at hneg
      exact hneg.trans (Int.tdiv_nonneg hr hs.le)
    · have hneg := hpos hs hq (neg_nonneg.mpr hr.le) (by linarith : -r * q ≤ -p * s)
      rw [Int.neg_tdiv, Int.neg_tdiv] at hneg
      exact neg_le_neg_iff.mp hneg

/-- Rational numbers keep the order. -/
theorem rational_monotone : Platform.rational.Monotone where
  ofInt {m n} h := by
    simpa [Platform.rational] using h
  div {x y n} hn h := by
    rcases x with - | x
    · cases h
    · rcases y with - | y
      · cases h
      · have hpos : (0 : ℚ) < n := by exact_mod_cast hn
        simp [Platform.rational, hpos.ne'] at h ⊢
        exact div_le_div_of_nonneg_right h hpos.le
  mul {x y n} hn h := by
    rcases x with - | x
    · cases h
    · rcases y with - | y
      · cases h
      · have hpos : (0 : ℚ) < n := by exact_mod_cast hn
        simp [Platform.rational] at h ⊢
        exact mul_le_mul_of_nonneg_right h hpos.le
  trunc {x y a b} h ha hb := by
    rcases x with - | x
    · cases ha
    · rcases y with - | y
      · cases hb
      · simp [Platform.rational] at h ha hb
        subst ha hb
        exact tdiv_le_tdiv_of_mul_le (by exact_mod_cast x.den_pos) (by exact_mod_cast y.den_pos)
          ((Rat.le_iff x y).mp h)
  trunc_div_zero m n := by
    simp [Platform.rational]

/-! ### Times -/

theorem toInt_of_addInt64 {a b c : Int64} (h : addInt64 a b = some c) :
    c.toInt = a.toInt + b.toInt := by
  unfold addInt64 at h
  split_ifs at h with hfits
  rw [← Option.some.inj h, Int64.toInt_add]
  exact Int.bmod_eq_of_le (by omega) (by omega)

theorem trunc_of_toInt64 {x : P.Double} {a : Int64} (h : P.toInt64 x = some a) :
    P.trunc x = some a.toInt := by
  obtain ⟨z, hz, h⟩ := Option.bind_eq_some_iff.mp h
  split_ifs at h with hfits
  rw [hz, ← Option.some.inj h, Int64.toInt_ofInt_of_le hfits.1 hfits.2]

/-- **A later offset has a later time.** -/
theorem metadataTimestamp_mono (hP : P.Monotone) {md : Metadata} {offset offset' : UInt64}
    {t t' : Int64} (hle : offset ≤ offset') (h : metadataTimestamp P md offset = some t)
    (h' : metadataTimestamp P md offset' = some t') : t ≤ t' := by
  obtain ⟨ms, hms, hadd⟩ := Option.bind_eq_some_iff.mp h
  obtain ⟨ms', hms', hadd'⟩ := Option.bind_eq_some_iff.mp h'
  have htrunc := trunc_of_toInt64 hms
  have htrunc' := trunc_of_toInt64 hms'
  have hrate : 0 < (md.channels.toUInt32 * md.sampleRate * (md.bitDepth / 8).toUInt32).toNat := by
    rw [Nat.pos_iff_ne_zero]
    intro hzero
    rw [hzero] at htrunc
    cases (hP.trunc_div_zero offset.toNat 1000).symm.trans htrunc
  have hms_le : ms.toInt ≤ ms'.toInt :=
    hP.trunc (hP.mul (by decide) (hP.div hrate (hP.ofInt (UInt64.le_iff_toNat_le.mp hle))))
      htrunc htrunc'
  rw [Int64.le_iff_toInt_le, toInt_of_addInt64 hadd, toInt_of_addInt64 hadd']
  omega

/-! ### The audio of a stream -/

/-- The size of the audio in the block of an entry, in bytes. -/
def MemtableEntry.audioSize (P : Platform) (e : MemtableEntry) : ℕ :=
  (decodedSize P e.flags e.blockSize e.block).toNat

/-- The audio of a stream, in bytes. -/
def streamBytes (P : Platform) (streamId : UInt64) (es : List MemtableEntry) : ℕ :=
  ((entriesOf streamId es).map fun e => e.audioSize P).sum

/-- Every entry is stored under the time of an offset that its stream has passed, and the times of
a stream do not go back. -/
structure StreamTimes (P : Platform) (cfg : Config) (s : Store) (es : List MemtableEntry) :
    Prop where
  hasMemtable : ∃ mt, s.HasMemtable cfg mt
  exact_ops : s.offsets.ops.Exact
  offsets : ∀ streamId, (offsetsGet s.offsets streamId).toNat = streamBytes P streamId es
  stamped : ∀ e ∈ es, ∃ md offset, metadataGet s.disk.metadata e.key.1 = some md ∧
    offset ≤ offsetsGet s.offsets e.key.1 ∧ metadataTimestamp P md offset = some e.key.2.toInt64
  ascending : es.Pairwise fun a b => a.key.1 = b.key.1 → a.key.2.toInt64 ≤ b.key.2.toInt64

theorem streamTimes_init (P : Platform) (cfg : Config) : StreamTimes P cfg (Store.init cfg) [] where
  hasMemtable := ⟨_, Store.init_hasMemtable cfg⟩
  exact_ops := streamIdOps_exact
  offsets _ := rfl
  stamped _ he := absurd he List.not_mem_nil
  ascending := List.Pairwise.nil

variable {s s' : Store} {es : List MemtableEntry}

theorem streamBytes_concat (streamId : UInt64) (es : List MemtableEntry) (e : MemtableEntry) :
    streamBytes P streamId (es ++ [e]) =
      streamBytes P streamId es + if e.key.1 = streamId then e.audioSize P else 0 := by
  rw [streamBytes, entriesOf, List.filter_append, List.map_append, List.sum_append]
  split_ifs with h
  · simp [streamBytes, entriesOf, h]
  · simp [streamBytes, entriesOf, h]

/-- **An accepted frame** is stored under a time that is not before those of its stream. -/
theorem StreamTimes.append (hP : P.Monotone) (h : StreamTimes P cfg s es) {data : List UInt8}
    {frame : Frame} {md : Metadata} {timestamp : Int64} {mt mt' : Memtable}
    (hmt : s.HasMemtable cfg mt) (hstored : Stored P s s' data frame md timestamp mt mt')
    (lsn : UInt64)
    (hfits : streamBytes P frame.header.streamId (es ++ [frame.entry timestamp lsn]) < 2 ^ 64) :
    StreamTimes P cfg s' (es ++ [frame.entry timestamp lsn]) := by
  have hsize : (frame.entry timestamp lsn).audioSize P = (frame.decodedSize P).toNat := rfl
  have hkey : (frame.entry timestamp lsn).key = (frame.header.streamId, timestamp.toUInt64) := rfl
  have hget : ∀ streamId, offsetsGet s'.offsets streamId = if streamId = frame.header.streamId
      then offsetsGet s.offsets frame.header.streamId + frame.decodedSize P
      else offsetsGet s.offsets streamId := by
    intro streamId
    rw [hstored.offsets, offsetsGet_put h.exact_ops]
  have hoffsets : ∀ streamId, (offsetsGet s'.offsets streamId).toNat =
      streamBytes P streamId (es ++ [frame.entry timestamp lsn]) := by
    intro streamId
    rw [hget, streamBytes_concat, hkey]
    by_cases heq : streamId = frame.header.streamId
    · subst heq
      rw [streamBytes_concat, hkey, if_pos rfl, hsize] at hfits
      rw [if_pos rfl, if_pos rfl, hsize, UInt64.toNat_add, h.offsets, Nat.mod_eq_of_lt hfits]
    · rw [if_neg heq, if_neg (Ne.symm heq), h.offsets, Nat.add_zero]
  have hmono : ∀ streamId, offsetsGet s.offsets streamId ≤ offsetsGet s'.offsets streamId := by
    intro streamId
    rw [UInt64.le_iff_toNat_le, hoffsets, h.offsets, streamBytes_concat]
    exact Nat.le_add_right _ _
  have hdisk : s'.disk.metadata = s.disk.metadata := by rw [hstored.disk]
  refine ⟨⟨mt', hstored.mmt, hstored.capacity.trans hmt.2⟩, ?_, hoffsets, fun e he => ?_, ?_⟩
  · rw [hstored.offsets]
    exact h.exact_ops
  · rw [hdisk]
    rcases List.mem_append.mp he with he | he
    · obtain ⟨md', offset, hmd', hle, htime⟩ := h.stamped e he
      exact ⟨md', offset, hmd', UInt64.le_trans hle (hmono _), htime⟩
    · rw [List.mem_singleton.mp he]
      exact ⟨md, _, hstored.metadata, hmono _, hstored.time⟩
  · refine List.pairwise_append.mpr ⟨h.ascending, List.pairwise_singleton _ _, ?_⟩
    intro a ha b hb hstream
    rw [List.mem_singleton.mp hb] at hstream ⊢
    obtain ⟨md', offset, hmd', hle, htime⟩ := h.stamped a ha
    rw [hkey] at hstream
    rw [hstream] at hmd' hle
    obtain rfl : md = md' := Option.some.inj (hstored.metadata.symm.trans hmd')
    exact metadataTimestamp_mono hP hle htime hstored.time

/-- **Every step** keeps the times of the streams, as long as no stream gets too much audio. -/
theorem StreamTimes.step (hP : P.Monotone) (h : StreamTimes P cfg s es) {ev : Event} {o : Output}
    (hstep : Racs.step P s ev = some (s', o))
    (hfits : ∀ streamId, streamBytes P streamId (es ++ o.entry?.toList) < 2 ^ 64) :
    StreamTimes P cfg s' (es ++ o.entry?.toList) := by
  obtain ⟨mt, hmt⟩ := h.hasMemtable
  have hkeep : ∀ t : Store, t.mmt = s.mmt → t.offsets = s.offsets →
      MetadataExtends s.disk.metadata t.disk.metadata → StreamTimes P cfg t es := by
    intro t hmmt hoffsets hmd
    refine ⟨⟨mt, hmmt.trans hmt.1, hmt.2⟩, hoffsets ▸ h.exact_ops, hoffsets ▸ h.offsets,
      fun e he => ?_, h.ascending⟩
    obtain ⟨md, offset, hget, hle, htime⟩ := h.stamped e he
    exact ⟨md, offset, hmd _ _ hget, hoffsets ▸ hle, htime⟩
  rcases step_cases hmt hstep with ⟨rfl, md, kv, hmd, rfl⟩ |
    ⟨data, frame, md, timestamp, mt', -, rfl, hstored⟩ | ⟨i, full, disk, -, rfl, -, hdisk, rfl⟩
  · exact (List.append_nil es).symm ▸ hkeep _ rfl rfl hmd
  · exact h.append hP hmt hstored _ (hfits _)
  · refine (List.append_nil es).symm ▸ hkeep _ rfl rfl ?_
    rw [memtableFlush_metadata hdisk]
    exact fun _ _ hget => hget

end Racs
