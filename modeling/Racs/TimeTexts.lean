import Racs.SegPath
import Racs.TimeLiterals

/-!
# Times as texts

`racs_time_to_rfc3339` (`time.c`) prints a time with its year, month, day, hour, minute, second and
milliseconds, in the form that `RACS_REGEX_TIME` matches and `racs_time_from_rfc3339` reads. The
seconds and the milliseconds of a time before the epoch are both negative, as `/` and `%` round
towards zero, and a year has as many digits as it needs.

## Main definitions

* `Racs.timeToRfc3339`.
* `Racs.ReadBack` — the times that are read back from their texts.

## Main results

* `Racs.timeToRfc3339_eq_text_iff` — which times are printed as literals.
* `Racs.timeToRfc3339_faithful` — which times are read back, and that the text fits the buffer.
-/

namespace Racs

open Calendar Decimal Regex

/-- What `racs_time_to_rfc3339` prints of a date, a time of day and milliseconds. -/
def tmText (info : Tm) (rem : ℤ) : List Char :=
  printInt 4 (info.year + 1900) ++ '-' :: (printInt 2 (info.mon + 1) ++ '-' ::
    (printInt 2 info.mday ++ 'T' :: (printInt 2 info.hour ++ ':' :: (printInt 2 info.min ++ ':' ::
      (printInt 2 info.sec ++ '.' :: (printInt 3 rem ++ ['Z']))))))

/-- `racs_time_to_rfc3339`. -/
def timeToRfc3339 (time : Int64) : List Char :=
  tmText (timeToTm time) (time.toInt.tmod 1000)

/-! ### The numbers in the text -/

/-- The numbers behind the year are those of a calendar and a clock. -/
theorem gmtime_fields (sec : ℤ) :
    (1 ≤ (gmtime sec).mon + 1 ∧ (gmtime sec).mon + 1 ≤ 12) ∧
      (1 ≤ (gmtime sec).mday ∧ (gmtime sec).mday ≤ 31) ∧
      (0 ≤ (gmtime sec).hour ∧ (gmtime sec).hour < 24) ∧
      (0 ≤ (gmtime sec).min ∧ (gmtime sec).min < 60) ∧
      (0 ≤ (gmtime sec).sec ∧ (gmtime sec).sec < 60) := by
  have hmonth := dateOf_month (sec / 86400)
  have hday := dateOf_day (sec / 86400)
  rw [gmtime]
  dsimp only
  omega

/-- The years of four digits are those of these seconds. -/
theorem gmtime_year_iff (sec : ℤ) :
    (0 ≤ (gmtime sec).year + 1900 ∧ (gmtime sec).year + 1900 < 10 ^ 4) ↔
      -62167219200 ≤ sec ∧ sec < 253402300800 := by
  have hmono : ∀ {d d' : ℤ}, d ≤ d' → (dateOf d).year ≤ (dateOf d').year := by
    intro d d' h
    rcases h.lt_or_eq with hlt | rfl
    · have hdate := dateOf_lt hlt
      omega
    · exact le_rfl
  have hfirst : (dateOf (-719528)).year = 0 := by decide
  have hbefore : (dateOf (-719529)).year = -1 := by decide
  have hlast : (dateOf 2932896).year = 9999 := by decide
  have hbehind : (dateOf 2932897).year = 10000 := by decide
  rw [gmtime, sub_add_cancel]
  constructor
  · rintro ⟨hlow, hhigh⟩
    constructor
    · by_contra hlt
      have hyear := @hmono (sec / 86400) (-719529) (by omega)
      omega
    · by_contra hle
      have hyear := @hmono 2932897 (sec / 86400) (by omega)
      omega
  · rintro ⟨hlow, hhigh⟩
    have hyear := @hmono (-719528) (sec / 86400) (by omega)
    have hyear' := @hmono (sec / 86400) 2932896 (by omega)
    omega

/-- The seconds and the milliseconds of a time have its sign. -/
theorem tdiv_tmod_bounds (time : Int64) :
    (-(2 ^ 63) ≤ time.toInt ∧ time.toInt < 2 ^ 63) ∧
      1000 * time.toInt.tdiv 1000 + time.toInt.tmod 1000 = time.toInt ∧
      (-1000 < time.toInt.tmod 1000 ∧ time.toInt.tmod 1000 < 1000) ∧
      (0 ≤ time.toInt → 0 ≤ time.toInt.tmod 1000) ∧
      (time.toInt ≤ 0 → time.toInt.tmod 1000 ≤ 0) := by
  refine ⟨⟨time.le_toInt, time.toInt_lt⟩, Int.mul_tdiv_add_tmod ..,
    ⟨Int.lt_tmod_of_pos _ (by decide), Int.tmod_lt_of_pos _ (by decide)⟩,
    fun h => Int.tmod_nonneg _ h, fun h => ?_⟩
  have hneg := Int.tmod_nonneg 1000 (Int.neg_nonneg_of_nonpos h)
  rw [Int.neg_tmod] at hneg
  omega

/-- The year has nine digits at most. -/
theorem timeToTm_year_bounds (time : Int64) :
    -10 ^ 9 < (timeToTm time).year + 1900 ∧ (timeToTm time).year + 1900 < 10 ^ 9 := by
  obtain ⟨⟨hlow, hhigh⟩, hsum, hrem, -⟩ := tdiv_tmod_bounds time
  rw [timeToTm, gmtime, sub_add_cancel, dateOf]
  generalize time.toInt.tdiv 1000 = sec at hsum
  have hstart := yearStart_le (sec / 86400 + 719468)
  have hend := lt_yearStart_succ (sec / 86400 + 719468)
  have hmonth := monthOf_dayOfYear (sec / 86400 + 719468)
  unfold yearStart at hstart hend
  simp only [monthNumber]
  omega

/-! ### The text as a literal -/

/-- A year of four digits and milliseconds that are not negative are printed as a literal. -/
theorem exists_text_eq_tmText {sec rem : ℤ}
    (hyear : 0 ≤ (gmtime sec).year + 1900 ∧ (gmtime sec).year + 1900 < 10 ^ 4)
    (hrem : 0 ≤ rem ∧ rem < 1000) :
    ∃ lit : TimeLiteral, lit.text = tmText (gmtime sec) rem ∧ lit.clockSeconds = sec ∧
      (lit.fractionNumber : ℤ) = rem := by
  obtain ⟨hmon, hmday, hhour, hmin, hsec⟩ := gmtime_fields sec
  refine ⟨⟨⟨((gmtime sec).year + 1900).natAbs, by omega⟩, ⟨((gmtime sec).mon + 1).natAbs, by omega⟩,
    ⟨(gmtime sec).mday.natAbs, by omega⟩, ⟨(gmtime sec).hour.natAbs, by omega⟩,
    ⟨(gmtime sec).min.natAbs, by omega⟩, ⟨(gmtime sec).sec.natAbs, by omega⟩,
    some ⟨3, by decide, ⟨rem.natAbs, by omega⟩⟩, .utc⟩, ?_, ?_, Int.natAbs_of_nonneg hrem.1⟩
  · simp only [TimeLiteral.text, fractionText, Numeral.text, Zone.text, tmText, List.cons_append,
      printNat_of_nonneg hyear.1, printNat_of_nonneg hhour.1, printNat_of_nonneg hmin.1,
      printNat_of_nonneg hsec.1, printNat_of_nonneg hrem.1,
      printNat_of_nonneg (show 0 ≤ (gmtime sec).mon + 1 by omega),
      printNat_of_nonneg (show 0 ≤ (gmtime sec).mday by omega)]
  · have htimegm := timegm_gmtime sec
    rw [timegm] at htimegm
    rw [TimeLiteral.clockSeconds, TimeLiteral.date]
    dsimp only
    rw [Int.natAbs_of_nonneg hyear.1, Int.natAbs_of_nonneg (by omega),
      Int.natAbs_of_nonneg (by omega), Int.natAbs_of_nonneg hhour.1, Int.natAbs_of_nonneg hmin.1,
      Int.natAbs_of_nonneg hsec.1, htimegm]

theorem count_minus_printNat (w n : ℕ) : (printNat w n).count '-' = 0 :=
  List.count_eq_zero.mpr fun h => by cases isDigit_of_mem_printNat h

/-- A number has a minus if it is negative. -/
theorem count_minus_printInt (w : ℕ) (z : ℤ) :
    (printInt w z).count '-' = if z < 0 then 1 else 0 := by
  unfold printInt
  split_ifs
  · rw [List.count_cons_self, count_minus_printNat]
  · exact count_minus_printNat w _

/-- The digits in front of another character. -/
theorem takeWhile_printNat {w n : ℕ} {c : Char} (hc : c.isDigit = false) (rest : List Char) :
    (printNat w n ++ c :: rest).takeWhile Char.isDigit = printNat w n := by
  rw [List.takeWhile_append_of_pos fun d hd => isDigit_of_mem_printNat hd,
    List.takeWhile_cons_of_neg (by rw [hc]; exact Bool.false_ne_true), List.append_nil]

/-- Only a literal in UTC has a letter `Z`, and it has two minuses. -/
theorem count_minus_text {lit : TimeLiteral} (h : 'Z' ∈ lit.text) : lit.text.count '-' = 2 := by
  have hnat : ∀ w n, 'Z' ∉ printNat w n := fun w n hmem => by cases isDigit_of_mem_printNat hmem
  have hfraction : 'Z' ∉ fractionText lit.fraction ∧ (fractionText lit.fraction).count '-' = 0 := by
    rcases lit.fraction with - | f
    · exact ⟨List.not_mem_nil, rfl⟩
    · refine ⟨List.not_mem_cons_of_ne_of_not_mem (by decide) (hnat _ _), ?_⟩
      rw [fractionText, List.count_cons_of_ne (by decide)]
      exact count_minus_printNat _ _
  rcases hzone : lit.zone with - | ⟨west, hour, min⟩
  · simp [TimeLiteral.text, hzone, Zone.text, count_minus_printNat, hfraction.2]
  · have hsign : 'Z' ≠ if west then '-' else '+' := by cases west <;> decide
    simp [TimeLiteral.text, hzone, Zone.text, hnat, hfraction.1, hsign] at h

/-- The year of a literal has four digits, and its milliseconds are not negative. -/
theorem bounds_of_text_eq_tmText {sec rem : ℤ} {lit : TimeLiteral}
    (h : lit.text = tmText (gmtime sec) rem) :
    (0 ≤ (gmtime sec).year + 1900 ∧ (gmtime sec).year + 1900 < 10 ^ 4) ∧ 0 ≤ rem := by
  obtain ⟨hmon, hmday, hhour, hmin, hsec⟩ := gmtime_fields sec
  have hcount : (tmText (gmtime sec) rem).count '-' = 2 :=
    h ▸ count_minus_text (by rw [h]; simp [tmText])
  simp only [tmText, List.count_append, List.count_cons, count_minus_printInt, List.count_nil,
    if_neg (show ¬ (gmtime sec).mon + 1 < 0 by omega),
    if_neg (show ¬ (gmtime sec).mday < 0 by omega),
    if_neg (show ¬ (gmtime sec).hour < 0 by omega), if_neg (show ¬ (gmtime sec).min < 0 by omega),
    if_neg (show ¬ (gmtime sec).sec < 0 by omega)] at hcount
  have hsigns :
      (if (gmtime sec).year + 1900 < 0 then 1 else 0) + (if rem < 0 then 1 else 0) = 0 := by
    simp at hcount
    omega
  have hyear : 0 ≤ (gmtime sec).year + 1900 := by
    by_contra hneg
    rw [if_pos (not_le.mp hneg)] at hsigns
    omega
  have hrem : 0 ≤ rem := by
    by_contra hneg
    rw [if_pos (not_le.mp hneg)] at hsigns
    omega
  have hdigits : printNat 4 lit.year = printNat 4 ((gmtime sec).year + 1900).natAbs := by
    have htake := congrArg (List.takeWhile Char.isDigit) h
    rwa [TimeLiteral.text, tmText, printNat_of_nonneg hyear, takeWhile_printNat rfl,
      takeWhile_printNat rfl] at htake
  have hlt := lit.year.isLt
  rw [printNat_injective 4 hdigits] at hlt
  omega

/-- **Which times are printed as literals.** -/
theorem timeToRfc3339_eq_text_iff (time : Int64) :
    (∃ lit : TimeLiteral, lit.text = timeToRfc3339 time) ↔
      (-62167219200 ≤ time.toInt.tdiv 1000 ∧ time.toInt.tdiv 1000 < 253402300800) ∧
        0 ≤ time.toInt.tmod 1000 := by
  rw [← gmtime_year_iff]
  constructor
  · rintro ⟨lit, h⟩
    exact bounds_of_text_eq_tmText h
  · rintro ⟨hyear, hrem⟩
    obtain ⟨lit, h, -⟩ := exists_text_eq_tmText hyear
      ⟨hrem, (tdiv_tmod_bounds time).2.2.1.2⟩
    exact ⟨lit, h⟩

/-! ### The time in the text -/

/-- What is read from the text of a time that is printed as a literal. -/
theorem timeFromRfc3339_timeToRfc3339 {time : Int64}
    (hsec : -62167219200 ≤ time.toInt.tdiv 1000 ∧ time.toInt.tdiv 1000 < 253402300800)
    (hrem : 0 ≤ time.toInt.tmod 1000) :
    timeFromRfc3339 (timeToRfc3339 time) =
      some (if time.toInt.tdiv 1000 = -1 then -1 else time) := by
  obtain ⟨-, hsum, hbounds, -⟩ := tdiv_tmod_bounds time
  obtain ⟨lit, htext, hclock, hfraction⟩ :=
    exists_text_eq_tmText ((gmtime_year_iff _).mpr hsec) ⟨hrem, hbounds.2⟩
  rw [timeToRfc3339, timeToTm, ← htext, timeFromRfc3339_text, if_pos (by omega), hclock, hfraction,
    Int.mul_comm, hsum, Int64.ofInt_toInt, apply_ite some]

/-- A number has at most the digits of its field, or of a power of ten above it. -/
theorem length_printInt_le {w n : ℕ} {z : ℤ} (hw : w ≤ n) (hn : 0 < n)
    (hz : -10 ^ n < z ∧ z < 10 ^ n) : (printInt w z).length ≤ n + 1 := by
  have hcast : ((10 ^ n : ℕ) : ℤ) = 10 ^ n := Nat.cast_pow 10 n
  rw [← hcast] at hz
  have hlen := (Nat.length_toDigits_le_iff (by decide) hn).mpr
    (show z.natAbs < 10 ^ n by omega)
  have hnat : ∀ w ≤ n, (printNat w z.natAbs).length ≤ n := by
    intro w hw
    rw [printNat, List.length_append, List.length_replicate]
    omega
  unfold printInt
  split_ifs
  · exact Nat.succ_le_succ (hnat _ ((Nat.sub_le ..).trans hw))
  · exact (hnat w hw).trans (Nat.le_succ n)

/-- The text of a time, with its terminator, fits the buffer of a log line. -/
theorem length_timeToRfc3339_lt (time : Int64) : (timeToRfc3339 time).length < 55 := by
  obtain ⟨-, -, hrem, -⟩ := tdiv_tmod_bounds time
  obtain ⟨hmon, hmday, hhour, hmin, hsec⟩ := gmtime_fields (time.toInt.tdiv 1000)
  have hyear := @length_printInt_le 4 9 _ (by decide) (by decide) (timeToTm_year_bounds time)
  have hmillis := @length_printInt_le 3 3 (time.toInt.tmod 1000) le_rfl (by decide) (by omega)
  have htwo : ∀ z : ℤ, 0 ≤ z ∧ z < 100 → (printInt 2 z).length ≤ 2 + 1 := fun z hz =>
    length_printInt_le le_rfl (by decide) (by omega)
  rw [← timeToTm] at hmon hmday hhour hmin hsec
  have hmon := htwo ((timeToTm time).mon + 1) (by omega)
  have hmday := htwo (timeToTm time).mday (by omega)
  have hhour := htwo (timeToTm time).hour (by omega)
  have hmin := htwo (timeToTm time).min (by omega)
  have hsec := htwo (timeToTm time).sec (by omega)
  simp only [timeToRfc3339, tmText, List.length_append, List.length_cons, List.length_nil]
  omega

/-- The times that are read back from their texts: the year has four digits, the milliseconds are
not negative, and it is not the second before the epoch. -/
def ReadBack (time : Int64) : Prop :=
  (0 ≤ time.toInt ∨ 1000 ∣ time.toInt ∧ time.toInt ≠ -1000) ∧
    -62167219200000 ≤ time.toInt ∧ time.toInt < 253402300800000

instance (time : Int64) : Decidable (ReadBack time) := inferInstanceAs (Decidable (_ ∧ _))

theorem readBack_iff (time : Int64) :
    timeToRfc3339 time ∈ regexTime.body.matches' ∧
      timeFromRfc3339 (timeToRfc3339 time) = some time ↔ ReadBack time := by
  obtain ⟨-, hsum, hrem, hnonneg, hnonpos⟩ := tdiv_tmod_bounds time
  rw [mem_regexTime, timeToRfc3339_eq_text_iff, ReadBack]
  constructor
  · rintro ⟨⟨hsec, hmillis⟩, hvalue⟩
    rw [timeFromRfc3339_timeToRfc3339 hsec hmillis] at hvalue
    have hbefore : time.toInt ≠ -1000 := by
      intro hbefore
      rw [if_pos (by omega)] at hvalue
      rw [← Option.some.inj hvalue] at hbefore
      exact absurd hbefore (by decide)
    omega
  · rintro ⟨hsign, hlow, hhigh⟩
    have hsec : -62167219200 ≤ time.toInt.tdiv 1000 ∧ time.toInt.tdiv 1000 < 253402300800 := by
      omega
    have hmillis : 0 ≤ time.toInt.tmod 1000 := by omega
    rw [timeFromRfc3339_timeToRfc3339 hsec hmillis, if_neg (by omega)]
    exact ⟨⟨hsec, hmillis⟩, rfl⟩

/-- **Times are read back from their texts**: the text of a time fits the buffer of a log line, and
it is a time literal from which the time is read, if the year has four digits and the milliseconds
are not negative, except in the second before the epoch. -/
theorem timeToRfc3339_faithful (time : Int64) :
    (timeToRfc3339 time).length < 55 ∧
      (timeToRfc3339 time ∈ regexTime.body.matches' ∧
        timeFromRfc3339 (timeToRfc3339 time) = some time ↔ ReadBack time) :=
  ⟨length_timeToRfc3339_lt time, readBack_iff time⟩

end Racs
