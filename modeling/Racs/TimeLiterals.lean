import Racs.IntLiterals
import Racs.Path

/-!
# Time literals

A time literal of a command line is a date and a time of day, with a fraction of a second of any
length and an offset from UTC (`RACS_REGEX_TIME`, `parser.h`). `racs_time_from_rfc3339` (`time.c`)
reads it with a format of `sscanf`: the digits of the fraction are one more number, which is added
to the milliseconds as it is, and the text behind it is not read.

A text is the list of its characters, one for each byte.

## Main definitions

* `Racs.regexTime`, `Racs.timeFromRfc3339`.
* `Racs.TimeLiteral`, `Racs.TimeLiteral.instant` — a literal, and the time that it denotes.
* `Racs.TimeLiteral.Plain`, `Racs.TimeLiteral.Converts` — the literals that are read as they denote.

## Main results

* `Racs.mem_regexTime` — the texts that the expression matches.
* `Racs.timeFromRfc3339_text` — what is read from a literal.
* `Racs.timeFromRfc3339_iff` — the literals from which the time is read that they denote.
-/

namespace Racs

open Calendar Decimal Regex

/-! ### The code -/

/-- `RACS_REGEX_TIME`. -/
def regexTime : Pattern Char where
  anchored := true
  body := oneOf digits ^ 4 * (.char '-' * (oneOf digits ^ 2 * (.char '-' * (oneOf digits ^ 2 *
    (.char 'T' * (oneOf digits ^ 2 * (.char ':' * (oneOf digits ^ 2 * (.char ':' *
      (oneOf digits ^ 2 * (opt (.char '.' * plus (oneOf digits)) *
        (.char 'Z' + oneOf signs *
          (oneOf digits ^ 2 * (.char ':' * oneOf digits ^ 2))))))))))))))

/-- `racs_time_from_rfc3339`. A number that is not an `int` and a result that is not a 64-bit
integer are undefined. -/
def timeFromRfc3339 (buf : List Char) : Option Int64 :=
  let fields := scanFields "--T::.".toList buf
  if ∀ z ∈ fields, -2 ^ 31 ≤ z ∧ z < 2 ^ 31 then
    if fields.length < 3 then some (-1)
    else
      let field i := fields.getD i 0
      if -2 ^ 31 ≤ field 0 - 1900 ∧ -2 ^ 31 ≤ field 1 - 1 then
        let time := timegm ⟨field 0 - 1900, field 1 - 1, field 2, field 3, field 4, field 5⟩
        if time = -1 then some (-1)
        else if -2 ^ 63 ≤ time * 1000 + field 6 ∧ time * 1000 + field 6 < 2 ^ 63 then
          some (Int64.ofInt (time * 1000 + field 6))
        else none
      else none
  else none

/-! ### Literals -/

/-- An offset from UTC, to the west or to the east. -/
inductive Zone
  | utc
  | offset (west : Bool) (hour min : Fin (10 ^ 2))

/-- A time literal. -/
structure TimeLiteral where
  year : Fin (10 ^ 4)
  mon : Fin (10 ^ 2)
  mday : Fin (10 ^ 2)
  hour : Fin (10 ^ 2)
  min : Fin (10 ^ 2)
  sec : Fin (10 ^ 2)
  fraction : Option Numeral
  zone : Zone

/-- The text of a fraction, with its point. -/
def fractionText : Option Numeral → List Char
  | none => []
  | some f => '.' :: f.text

/-- The text of an offset. -/
def Zone.text : Zone → List Char
  | .utc => ['Z']
  | .offset west hour min =>
    (if west then '-' else '+') :: (printNat 2 hour ++ ':' :: printNat 2 min)

namespace TimeLiteral

/-- The text of a literal. -/
def text (lit : TimeLiteral) : List Char :=
  printNat 4 lit.year ++ '-' :: (printNat 2 lit.mon ++ '-' :: (printNat 2 lit.mday ++ 'T' ::
    (printNat 2 lit.hour ++ ':' :: (printNat 2 lit.min ++ ':' :: (printNat 2 lit.sec ++
      (fractionText lit.fraction ++ lit.zone.text))))))

/-- The digits of the fraction as a number of their own. -/
def fractionNumber (lit : TimeLiteral) : ℕ :=
  match lit.fraction with
  | none => 0
  | some f => f.value

/-- The milliseconds of the fraction. -/
def millis (lit : TimeLiteral) : ℕ :=
  match lit.fraction with
  | none => 0
  | some f => f.value * 1000 / 10 ^ f.digits

/-- The date. -/
def date (lit : TimeLiteral) : Date := ⟨lit.year, lit.mon, lit.mday⟩

/-- The date and the time of day are those of a calendar and a clock. -/
structure Valid (lit : TimeLiteral) : Prop where
  date : lit.date.Valid
  hour : (lit.hour : ℕ) < 24
  min : (lit.min : ℕ) < 60
  sec : (lit.sec : ℕ) < 60

/-- The seconds from the epoch to the date and time of day, on a clock that shows UTC. -/
def clockSeconds (lit : TimeLiteral) : ℤ :=
  dayOf lit.date * 86400 + lit.hour * 3600 + lit.min * 60 + lit.sec

/-- The seconds by which a clock is ahead of UTC. -/
def zoneSeconds (lit : TimeLiteral) : ℤ :=
  match lit.zone with
  | .utc => 0
  | .offset true hour min => -(hour * 3600 + min * 60)
  | .offset false hour min => hour * 3600 + min * 60

/-- The time that a literal denotes, in milliseconds since the epoch. -/
def instant (lit : TimeLiteral) : ℤ :=
  (lit.clockSeconds - lit.zoneSeconds) * 1000 + lit.millis

/-- There is no fraction, or it has three digits, or they are zeros. -/
def Plain (lit : TimeLiteral) : Prop :=
  match lit.fraction with
  | none => True
  | some f => f.digits = 3 ∨ (f.value : ℕ) = 0

/-- The second before the epoch, whose number of seconds stands for an error. -/
def BeforeEpoch (lit : TimeLiteral) : Prop :=
  lit.date = ⟨1969, 12, 31⟩ ∧ (lit.hour : ℕ) = 23 ∧ (lit.min : ℕ) = 59 ∧ (lit.sec : ℕ) = 59

instance (lit : TimeLiteral) : Decidable lit.BeforeEpoch :=
  inferInstanceAs (Decidable (_ ∧ _))

/-- The literals from which their time is read: with the offset zero and a plain fraction, or with
an offset to the west that the digits of the fraction make up for. In the second before the epoch
the only such time is -1. -/
def Converts (lit : TimeLiteral) : Prop :=
  if lit.BeforeEpoch then
    lit.zoneSeconds = 0 ∧ lit.millis = 999 ∧ lit.fractionNumber < 2 ^ 31
  else
    lit.zoneSeconds = 0 ∧ lit.Plain ∨
      lit.zoneSeconds < 0 ∧ (lit.fractionNumber : ℤ) = lit.millis - 1000 * lit.zoneSeconds

end TimeLiteral

/-! ### The texts that match -/

/-- A number in front of the rest of a text. -/
theorem mem_numeral_mul {w : ℕ} (hw : 0 < w) {r : RegularExpression Char} {s : List Char} :
    s ∈ (oneOf digits ^ w * r).matches' ↔
      ∃ n : Fin (10 ^ w), ∃ t ∈ r.matches', printNat w n ++ t = s := by
  rw [RegularExpression.matches'_mul, Language.mem_mul]
  constructor
  · rintro ⟨a, ha, t, ht, rfl⟩
    obtain ⟨n, rfl⟩ := (mem_numeral hw).mp ha
    exact ⟨n, t, ht, rfl⟩
  · rintro ⟨n, t, ht, rfl⟩
    exact ⟨_, (mem_numeral hw).mpr ⟨n, rfl⟩, t, ht, rfl⟩

theorem mem_fraction {s : List Char} :
    s ∈ (opt (.char '.' * plus (oneOf digits))).matches' ↔
      ∃ f : Option Numeral, fractionText f = s := by
  rw [mem_opt, mem_char_mul]
  constructor
  · rintro (rfl | ⟨t, ht, rfl⟩)
    · exact ⟨none, rfl⟩
    · obtain ⟨f, rfl⟩ := mem_plus_digits.mp ht
      exact ⟨some f, rfl⟩
  · rintro ⟨- | f, rfl⟩
    · exact .inl rfl
    · exact .inr ⟨f.text, mem_plus_digits.mpr ⟨f, rfl⟩, rfl⟩

theorem mem_zone {s : List Char} :
    s ∈ (.char 'Z' + oneOf signs * (oneOf digits ^ 2 * (.char ':' * oneOf digits ^ 2)) :
      RegularExpression Char).matches' ↔ ∃ z : Zone, z.text = s := by
  rw [RegularExpression.matches'_add, Language.mem_add, RegularExpression.matches'_mul,
    Language.mem_mul]
  constructor
  · rintro (rfl | ⟨a, ha, t, ht, rfl⟩)
    · exact ⟨.utc, rfl⟩
    · obtain ⟨c, hc, rfl⟩ := mem_oneOf.mp ha
      obtain ⟨hour, u, hu, rfl⟩ := (mem_numeral_mul two_pos).mp ht
      obtain ⟨v, hv, rfl⟩ := mem_char_mul.mp hu
      obtain ⟨min, rfl⟩ := (mem_numeral two_pos).mp hv
      rcases List.mem_pair.mp hc with rfl | rfl
      · exact ⟨.offset false hour min, rfl⟩
      · exact ⟨.offset true hour min, rfl⟩
  · rintro ⟨- | ⟨west, hour, min⟩, rfl⟩
    · exact .inl rfl
    · refine .inr ⟨[if west then '-' else '+'], mem_oneOf.mpr ⟨_, ?_, rfl⟩, _,
        (mem_numeral_mul two_pos).mpr ⟨hour, _, mem_char_mul.mpr
          ⟨_, (mem_numeral two_pos).mpr ⟨min, rfl⟩, rfl⟩, rfl⟩, rfl⟩
      cases west <;> decide

/-- **The expression matches the texts of literals.** -/
theorem mem_regexTime {s : List Char} :
    s ∈ regexTime.body.matches' ↔ ∃ lit : TimeLiteral, lit.text = s := by
  have four : 0 < 4 := by decide
  simp only [regexTime, mem_numeral_mul four, mem_numeral_mul two_pos, mem_char_mul]
  constructor
  · rintro ⟨year, _, ⟨_, ⟨mon, _, ⟨_, ⟨mday, _, ⟨_, ⟨hour, _, ⟨_, ⟨min, _, ⟨_, ⟨sec, t, ht, rfl⟩,
      rfl⟩, rfl⟩, rfl⟩, rfl⟩, rfl⟩, rfl⟩, rfl⟩, rfl⟩, rfl⟩, rfl⟩
    rw [RegularExpression.matches'_mul, Language.mem_mul] at ht
    obtain ⟨a, ha, b, hb, rfl⟩ := ht
    obtain ⟨f, rfl⟩ := mem_fraction.mp ha
    obtain ⟨z, rfl⟩ := mem_zone.mp hb
    exact ⟨⟨year, mon, mday, hour, min, sec, f, z⟩, rfl⟩
  · rintro ⟨⟨year, mon, mday, hour, min, sec, f, z⟩, rfl⟩
    refine ⟨year, _, ⟨_, ⟨mon, _, ⟨_, ⟨mday, _, ⟨_, ⟨hour, _, ⟨_, ⟨min, _, ⟨_, ⟨sec, _, ?_, rfl⟩,
      rfl⟩, rfl⟩, rfl⟩, rfl⟩, rfl⟩, rfl⟩, rfl⟩, rfl⟩, rfl⟩, rfl⟩
    exact Language.append_mem_mul (mem_fraction.mpr ⟨f, rfl⟩) (mem_zone.mpr ⟨z, rfl⟩)

/-! ### What is read -/

namespace TimeLiteral

variable (lit : TimeLiteral)

/-- What follows the digits of a literal is neither a digit nor a point. -/
theorem head_zone : ∃ c t, lit.zone.text = c :: t ∧ c.isDigit = false ∧ c ≠ '.' := by
  rcases lit.zone with - | ⟨west, hour, min⟩
  · exact ⟨'Z', [], rfl, by decide, by decide⟩
  · cases west
    · exact ⟨'+', _, rfl, by decide, by decide⟩
    · exact ⟨'-', _, rfl, by decide, by decide⟩

/-- The fields of a literal are read one by one, and the digits of the fraction as one more. -/
theorem scanFields_text :
    scanFields "--T::.".toList lit.text = [(lit.year : ℤ), lit.mon, lit.mday, lit.hour, lit.min,
      lit.sec] ++ lit.fraction.toList.map fun f => ((f.value : ℕ) : ℤ) := by
  have two : 0 < 2 := by decide
  obtain ⟨c, t, hzone, hdigit, hpoint⟩ := lit.head_zone
  have hseps : "--T::.".toList = ['-', '-', 'T', ':', ':', '.'] := by decide
  have hlast : scanFields ['.'] (printNat 2 lit.sec ++
      (fractionText lit.fraction ++ lit.zone.text)) =
      (lit.sec : ℤ) :: lit.fraction.toList.map fun f => ((f.value : ℕ) : ℤ) := by
    rw [hzone]
    rcases lit.fraction with - | f
    · rw [fractionText, List.nil_append]
      refine scanFields_last two lit.sec.isLt (fun c' hc' => ?_) fun sep hsep heq => ?_
      · exact Option.some.inj hc' ▸ hdigit
      · exact hpoint ((Option.some.inj heq).trans (Option.some.inj hsep).symm)
    · rw [fractionText, List.cons_append, Numeral.text,
        scanFields_cons (by decide) [] two lit.sec.isLt,
        @scanFields_last [] _ _ f.pos f.value.isLt (c :: t)
          (fun c' hc' => Option.some.inj hc' ▸ hdigit) fun sep hsep => by cases hsep]
      rfl
  rw [hseps, text, scanFields_cons (by decide) _ (by decide) lit.year.isLt,
    scanFields_cons (by decide) _ two lit.mon.isLt, scanFields_cons (by decide) _ two lit.mday.isLt,
    scanFields_cons (by decide) _ two lit.hour.isLt, scanFields_cons (by decide) _ two lit.min.isLt,
    hlast]
  rfl

theorem clockSeconds_bounds : -2 ^ 50 < lit.clockSeconds ∧ lit.clockSeconds < 2 ^ 50 := by
  rw [clockSeconds, date, dayOf, dayOfMonthNumber]
  unfold yearStart monthStart
  dsimp only
  omega

end TimeLiteral

/-- **What is read from a literal**: the digits of the fraction as milliseconds, and nothing of the
offset. -/
theorem timeFromRfc3339_text (lit : TimeLiteral) :
    timeFromRfc3339 lit.text =
      if lit.fractionNumber < 2 ^ 31 then
        if lit.clockSeconds = -1 then some (-1)
        else some (Int64.ofInt (lit.clockSeconds * 1000 + lit.fractionNumber))
      else none := by
  have hfields := lit.scanFields_text
  have hrange : (∀ z ∈ scanFields "--T::.".toList lit.text, -2 ^ 31 ≤ z ∧ z < 2 ^ 31) ↔
      lit.fractionNumber < 2 ^ 31 := by
    rw [hfields, TimeLiteral.fractionNumber, List.forall_mem_append]
    simp only [List.forall_mem_cons, List.forall_mem_map]
    rcases lit.fraction with - | f
    · simp only [Option.toList_none, List.not_mem_nil, false_imp_iff, implies_true, and_true]
      omega
    · simp only [Option.toList_some, List.mem_singleton, List.not_mem_nil, false_imp_iff,
        implies_true, and_true, forall_eq]
      omega
  have hthree : ¬ (scanFields "--T::.".toList lit.text).length < 3 := by
    rw [hfields, List.length_append]
    exact not_lt.mpr (Nat.le_add_right_of_le (show 3 ≤ 6 by decide))
  have hfield : ∀ i (h : i < 6), (scanFields "--T::.".toList lit.text).getD i 0 =
      [(lit.year : ℤ), lit.mon, lit.mday, lit.hour, lit.min, lit.sec][i] := by
    intro i h
    rw [hfields, List.getD_eq_getElem?_getD, List.getElem?_append_left h,
      List.getElem?_eq_getElem h, Option.getD_some]
  have hsixth : (scanFields "--T::.".toList lit.text).getD 6 0 = lit.fractionNumber := by
    rw [hfields, TimeLiteral.fractionNumber]
    rcases lit.fraction with - | f <;> rfl
  have htime : timegm ⟨(lit.year : ℤ) - 1900, (lit.mon : ℤ) - 1, lit.mday, lit.hour, lit.min,
      lit.sec⟩ = lit.clockSeconds := by
    rw [timegm, sub_add_cancel, sub_add_cancel]
    rfl
  obtain ⟨hlow, hhigh⟩ := lit.clockSeconds_bounds
  simp only [timeFromRfc3339, hrange, if_neg hthree, hsixth, hfield 0 (by decide),
    hfield 1 (by decide), hfield 2 (by decide), hfield 3 (by decide), hfield 4 (by decide),
    hfield 5 (by decide), List.getElem_cons_zero, List.getElem_cons_succ, htime]
  by_cases hfrac : lit.fractionNumber < 2 ^ 31
  · rw [if_pos hfrac, if_pos hfrac, if_pos (by omega)]
    by_cases hepoch : lit.clockSeconds = -1
    · rw [if_pos hepoch, if_pos hepoch]
    · rw [if_neg hepoch, if_neg hepoch, if_pos (by omega)]
  · rw [if_neg hfrac, if_neg hfrac]

/-- A time is read if the digits of the fraction are an `int`. -/
theorem isSome_timeFromRfc3339_iff (lit : TimeLiteral) :
    (timeFromRfc3339 lit.text).isSome = true ↔ lit.fractionNumber < 2 ^ 31 := by
  rw [timeFromRfc3339_text]
  split_ifs with hfrac hepoch
  · exact iff_of_true rfl hfrac
  · exact iff_of_true rfl hfrac
  · exact iff_of_false Bool.false_ne_true hfrac

/-! ### The time that a literal denotes -/

namespace TimeLiteral

variable {lit : TimeLiteral}

/-- In a valid literal, only the last second before the epoch has the number -1. -/
theorem clockSeconds_eq_iff (h : lit.Valid) : lit.clockSeconds = -1 ↔ lit.BeforeEpoch := by
  have hhour := h.hour
  have hmin := h.min
  have hsec := h.sec
  constructor
  · intro heq
    rw [clockSeconds] at heq
    have hday : dayOf lit.date = -1 := by omega
    have hdate := dateOf_dayOf h.date
    rw [hday] at hdate
    exact ⟨hdate.symm, by omega, by omega, by omega⟩
  · rintro ⟨hdate, hh, hm, hs⟩
    rw [clockSeconds, hdate, hh, hm, hs]
    decide

theorem millis_lt (lit : TimeLiteral) : lit.millis < 1000 := by
  rw [millis]
  rcases lit.fraction with - | f
  · decide
  · dsimp only
    rw [Nat.div_lt_iff_lt_mul (Nat.pow_pos (by decide)), mul_comm]
    exact Nat.mul_lt_mul_of_pos_left f.value.isLt (by decide)

theorem zoneSeconds_bounds (lit : TimeLiteral) :
    -400000 < lit.zoneSeconds ∧ lit.zoneSeconds < 400000 := by
  rw [zoneSeconds]
  rcases lit.zone with - | ⟨west, hour, min⟩
  · exact ⟨by decide, by decide⟩
  · have hhour := hour.isLt
    have hmin := min.isLt
    cases west
    · dsimp only
      omega
    · dsimp only
      omega

/-- The digits of a fraction are its milliseconds when it is plain. -/
theorem fractionNumber_eq_millis_iff : lit.fractionNumber = lit.millis ↔ lit.Plain := by
  rw [fractionNumber, millis, Plain]
  rcases lit.fraction with - | f
  · exact iff_of_true rfl trivial
  · dsimp only
    obtain ⟨k, hk, n⟩ := f
    dsimp only
    constructor
    · intro h
      by_contra hplain
      obtain ⟨hk3, hn⟩ := not_or.mp hplain
      rcases Nat.lt_or_gt_of_ne hk3 with hlt | hgt
      · interval_cases k <;> omega
      · -- more than three digits are worth more than the milliseconds
        have hpow : 10 ^ 4 ≤ 10 ^ k := Nat.pow_le_pow_right (by decide) hgt
        have hle := @Nat.div_le_div_left _ _ (n * 1000) hpow (by decide)
        omega
    · rintro (rfl | hn)
      · exact (Nat.mul_div_cancel _ (by decide)).symm
      · rw [hn, Nat.zero_mul, Nat.zero_div]

end TimeLiteral

/-- **Which literals are read as they denote**: the texts that match are those of literals, and from
a valid one its time is read if and only if it converts. -/
theorem timeFromRfc3339_iff (s : List Char) :
    (s ∈ regexTime.body.matches' ↔ ∃ lit : TimeLiteral, lit.text = s) ∧
      ∀ lit : TimeLiteral, lit.text = s → lit.Valid →
        ((timeFromRfc3339 s).map Int64.toInt = some lit.instant ↔ lit.Converts) := by
  refine ⟨mem_regexTime, ?_⟩
  rintro lit rfl hvalid
  have hepoch := TimeLiteral.clockSeconds_eq_iff hvalid
  have hplain := @TimeLiteral.fractionNumber_eq_millis_iff lit
  have hmillis := lit.millis_lt
  obtain ⟨hlow, hhigh⟩ := lit.clockSeconds_bounds
  rw [timeFromRfc3339_text, TimeLiteral.Converts, TimeLiteral.instant, ← hplain]
  by_cases hfrac : lit.fractionNumber < 2 ^ 31
  · rw [if_pos hfrac]
    by_cases hbefore : lit.BeforeEpoch
    · rw [if_pos (hepoch.mpr hbefore), if_pos hbefore, hepoch.mpr hbefore, Option.map_some,
        Option.some.injEq, show (-1 : Int64).toInt = -1 from rfl]
      omega
    · rw [if_neg (hepoch.not.mpr hbefore), if_neg hbefore, Option.map_some, Option.some.injEq,
        Int64.toInt_ofInt_of_le (by omega) (by omega)]
      omega
  · obtain ⟨hwest, -⟩ := lit.zoneSeconds_bounds
    rw [if_neg hfrac, Option.map_none]
    refine iff_of_false (Option.some_ne_none _).symm ?_
    split_ifs
    · exact fun h => hfrac h.2.2
    · omega

/-- A literal in UTC with three digits of a fraction. -/
theorem timeFromRfc3339_utc :
    (timeFromRfc3339 "2025-11-20T17:30:45.123Z".toList).map Int64.toInt = some 1763659845123 := by
  have hvalid : TimeLiteral.Valid ⟨2025, 11, 20, 17, 30, 45, some ⟨3, by decide, 123⟩, .utc⟩ :=
    ⟨⟨by decide, by decide, by decide, by decide⟩, by decide, by decide, by decide⟩
  refine ((timeFromRfc3339_iff _).2 _ (by decide) hvalid).mpr ?_
  rw [TimeLiteral.Converts, if_neg (by decide)]
  exact .inl ⟨rfl, .inl rfl⟩

/-- Half a second is read as five milliseconds, an hour to the east is not read, and the second
before the epoch is read as an error. -/
theorem not_timeFromRfc3339_half :
    (∃ lit : TimeLiteral, lit.Valid ∧ lit.text = "2025-01-01T00:00:00.5Z".toList ∧
      lit.instant = 1735689600500 ∧
      (timeFromRfc3339 lit.text).map Int64.toInt = some 1735689600005) ∧
    (∃ lit : TimeLiteral, lit.Valid ∧ lit.text = "2025-01-01T00:00:00+01:00".toList ∧
      lit.instant = 1735686000000 ∧
      (timeFromRfc3339 lit.text).map Int64.toInt = some 1735689600000) ∧
    ∃ lit : TimeLiteral, lit.Valid ∧ lit.text = "1969-12-31T23:59:59Z".toList ∧
      lit.instant = -1000 ∧ (timeFromRfc3339 lit.text).map Int64.toInt = some (-1) := by
  refine ⟨⟨⟨2025, 1, 1, 0, 0, 0, some ⟨1, by decide, 5⟩, .utc⟩, ?_, by decide, by decide, ?_⟩,
    ⟨⟨2025, 1, 1, 0, 0, 0, none, .offset false 1 0⟩, ?_, by decide, by decide, ?_⟩,
    ⟨⟨1969, 12, 31, 23, 59, 59, none, .utc⟩, ?_, by decide, by decide, ?_⟩⟩
  · exact ⟨⟨by decide, by decide, by decide, by decide⟩, by decide, by decide, by decide⟩
  · rw [timeFromRfc3339_text]
    decide
  · exact ⟨⟨by decide, by decide, by decide, by decide⟩, by decide, by decide, by decide⟩
  · rw [timeFromRfc3339_text]
    decide
  · exact ⟨⟨by decide, by decide, by decide, by decide⟩, by decide, by decide, by decide⟩
  · rw [timeFromRfc3339_text]
    decide

end Racs
