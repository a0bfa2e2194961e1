import Mathlib.Algebra.Order.Ring.Int
import Mathlib.Tactic.IntervalCases
import Mathlib.Tactic.Ring

/-!
# The proleptic Gregorian calendar

Days are numbered from 1 March of the year 0, so that a leap day is the last day of its year. A
year that begins in March starts `yearStart y` days behind the origin, and the `mp`-th of its
months starts `monthStart mp` days behind the start of the year. Months are counted through: the
month number `12 * y + mp` and the day of the month, in this order, increase with the day, and the
day is a function of the two. The calendar date only renames the month number.

## Main definitions

* `Calendar.monthNumber`, `Calendar.dayOfMonth` — the month and the day of the month of a day.
* `Calendar.Date`, `Calendar.dateOf`, `Calendar.dayOf` — days as dates.
* `Calendar.Date.Valid` — dates of the calendar.

## Main results

* `Calendar.dayOf_dateOf` — a day is determined by its date, and `Calendar.dateOf_dayOf`, the
  converse for valid dates.
* `Calendar.monthNumber_mono`, `Calendar.dayOfMonth_mono`, `Calendar.dateOf_lt` — dates increase
  with the day.
-/

namespace Calendar

/-- The days from the origin to the start of the year `y`. -/
def yearStart (y : ℤ) : ℤ := 365 * y + y / 4 - y / 100 + y / 400

/-- The year of a day, beginning in March. -/
def yearOf (d : ℤ) : ℤ :=
  if yearStart (400 * d / 146097 + 1) ≤ d then 400 * d / 146097 + 1 else 400 * d / 146097

/-- The days from the start of a year to the start of its `mp`-th month, where March is the
zeroth. -/
def monthStart (mp : ℤ) : ℤ := (153 * mp + 2) / 5

/-- The month of a day of the year. -/
def monthOf (doy : ℤ) : ℤ := (5 * doy + 2) / 153

theorem yearStart_le (d : ℤ) : yearStart (yearOf d) ≤ d := by
  unfold yearOf
  split_ifs with h
  · exact h
  · unfold yearStart at h ⊢
    omega

theorem lt_yearStart_succ (d : ℤ) : d < yearStart (yearOf d + 1) := by
  unfold yearOf
  split_ifs with h
  · unfold yearStart at h ⊢
    omega
  · exact lt_of_not_ge h

theorem yearStart_succ_le (y : ℤ) : yearStart (y + 1) ≤ yearStart y + 366 := by
  unfold yearStart
  omega

theorem yearStart_mono {y y' : ℤ} (h : y ≤ y') : yearStart y ≤ yearStart y' := by
  unfold yearStart
  omega

theorem yearOf_mono {d d' : ℤ} (h : d ≤ d') : yearOf d ≤ yearOf d' := by
  by_contra hlt
  have hle : yearOf d' + 1 ≤ yearOf d := by omega
  have hmono := yearStart_mono hle
  have hd := yearStart_le d
  have hd' := lt_yearStart_succ d'
  omega

/-- The day of the year, from zero on. -/
def dayOfYear (d : ℤ) : ℤ := d - yearStart (yearOf d)

theorem dayOfYear_nonneg (d : ℤ) : 0 ≤ dayOfYear d := by
  have h := yearStart_le d
  unfold dayOfYear
  omega

theorem dayOfYear_le (d : ℤ) : dayOfYear d ≤ 365 := by
  have h := lt_yearStart_succ d
  have hsucc := yearStart_succ_le (yearOf d)
  unfold dayOfYear
  omega

/-- The number of the month of a day, counted from March of the year 0. -/
def monthNumber (d : ℤ) : ℤ := 12 * yearOf d + monthOf (dayOfYear d)

/-- The day of the month, from one on. -/
def dayOfMonth (d : ℤ) : ℤ := dayOfYear d - monthStart (monthOf (dayOfYear d)) + 1

theorem monthOf_dayOfYear (d : ℤ) :
    0 ≤ monthOf (dayOfYear d) ∧ monthOf (dayOfYear d) < 12 := by
  have h₀ := dayOfYear_nonneg d
  have h₁ := dayOfYear_le d
  unfold monthOf
  omega

theorem dayOfMonth_pos (d : ℤ) : 1 ≤ dayOfMonth d := by
  unfold dayOfMonth monthStart monthOf
  omega

theorem dayOfMonth_le (d : ℤ) : dayOfMonth d ≤ 31 := by
  unfold dayOfMonth monthStart monthOf
  omega

/-- The day with this month number and day of the month. -/
def dayOfMonthNumber (n dom : ℤ) : ℤ := yearStart (n / 12) + monthStart (n % 12) + (dom - 1)

theorem dayOfMonthNumber_monthNumber (d : ℤ) :
    dayOfMonthNumber (monthNumber d) (dayOfMonth d) = d := by
  obtain ⟨h₀, h₁⟩ := monthOf_dayOfYear d
  have hdiv : monthNumber d / 12 = yearOf d := by
    unfold monthNumber
    omega
  have hmod : monthNumber d % 12 = monthOf (dayOfYear d) := by
    unfold monthNumber
    omega
  rw [dayOfMonthNumber, hdiv, hmod, dayOfMonth]
  unfold dayOfYear
  ring

/-- Month numbers increase with the day. -/
theorem monthNumber_mono {d d' : ℤ} (h : d ≤ d') : monthNumber d ≤ monthNumber d' := by
  obtain ⟨h₀, h₁⟩ := monthOf_dayOfYear d
  obtain ⟨h₀', h₁'⟩ := monthOf_dayOfYear d'
  rcases (yearOf_mono h).lt_or_eq with hlt | heq
  · unfold monthNumber
    omega
  · have hdoy : dayOfYear d ≤ dayOfYear d' := by
      unfold dayOfYear
      rw [heq]
      omega
    have hmonth : monthOf (dayOfYear d) ≤ monthOf (dayOfYear d') := by
      unfold monthOf
      omega
    unfold monthNumber
    omega

/-- Inside one month, the day of the month increases with the day. -/
theorem dayOfMonth_mono {d d' : ℤ} (h : d ≤ d') (hmonth : monthNumber d = monthNumber d') :
    dayOfMonth d ≤ dayOfMonth d' := by
  have hd := dayOfMonthNumber_monthNumber d
  have hd' := dayOfMonthNumber_monthNumber d'
  rw [hmonth] at hd
  unfold dayOfMonthNumber at hd hd'
  omega

/-! ### Dates -/

/-- A date: the year, the month from 1 to 12 and the day of the month. -/
structure Date where
  year : ℤ
  month : ℤ
  day : ℤ
  deriving DecidableEq

/-- The date of a day, counted from 1 January 1970. -/
def dateOf (days : ℤ) : Date :=
  let d := days + 719468
  ⟨(monthNumber d + 2) / 12, (monthNumber d + 2) % 12 + 1, dayOfMonth d⟩

/-- The day of a date, counted from 1 January 1970. -/
def dayOf (date : Date) : ℤ :=
  dayOfMonthNumber (12 * date.year + date.month - 3) date.day - 719468

/-- **A day is determined by its date.** -/
theorem dayOf_dateOf (days : ℤ) : dayOf (dateOf days) = days := by
  have hnumber : 12 * ((monthNumber (days + 719468) + 2) / 12) +
      ((monthNumber (days + 719468) + 2) % 12 + 1) - 3 = monthNumber (days + 719468) := by
    omega
  rw [dayOf, dateOf, hnumber, dayOfMonthNumber_monthNumber]
  ring

/-- **Dates increase with the day**, in the order of years, months and days. -/
theorem dateOf_lt {d d' : ℤ} (h : d < d') :
    (dateOf d).year < (dateOf d').year ∨ (dateOf d).year = (dateOf d').year ∧
      ((dateOf d).month < (dateOf d').month ∨ (dateOf d).month = (dateOf d').month ∧
        (dateOf d).day < (dateOf d').day) := by
  have hmonth : monthNumber (d + 719468) ≤ monthNumber (d' + 719468) := monthNumber_mono (by omega)
  have hday := @dayOfMonth_mono (d + 719468) (d' + 719468) (by omega)
  have hne : dateOf d ≠ dateOf d' := by
    intro heq
    have hday' := congrArg dayOf heq
    rw [dayOf_dateOf, dayOf_dateOf] at hday'
    omega
  simp only [dateOf, ne_eq, Date.mk.injEq] at hne ⊢
  omega

/-- Years with a 29 February. -/
def LeapYear (y : ℤ) : Prop := y % 4 = 0 ∧ (y % 100 ≠ 0 ∨ y % 400 = 0)

instance (y : ℤ) : Decidable (LeapYear y) := inferInstanceAs (Decidable (_ ∧ _))

/-- The number of days of a month. -/
def monthLength (y month : ℤ) : ℤ :=
  if month = 2 then if LeapYear y then 29 else 28
  else if month = 4 ∨ month = 6 ∨ month = 9 ∨ month = 11 then 30
  else 31

/-- The month is one of the twelve, and it has the day. -/
structure Date.Valid (date : Date) : Prop where
  month_pos : 1 ≤ date.month
  month_le : date.month ≤ 12
  day_pos : 1 ≤ date.day
  day_le : date.day ≤ monthLength date.year date.month

/-- A day with a given place in a year that begins in March. -/
theorem yearOf_eq {y d : ℤ} (hlow : yearStart y ≤ d) (hhigh : d < yearStart (y + 1)) :
    yearOf d = y := by
  have h₀ := yearStart_le d
  have h₁ := lt_yearStart_succ d
  rcases lt_trichotomy (yearOf d) y with h | h | h
  · have := @yearStart_mono (yearOf d + 1) y h
    omega
  · exact h
  · have := @yearStart_mono (y + 1) (yearOf d) h
    omega

theorem le_yearStart_succ (y : ℤ) : yearStart y + 365 ≤ yearStart (y + 1) := by
  unfold yearStart
  omega

/-- A leap day is the last day of the year that begins in March before it. -/
theorem yearStart_of_leapYear {y : ℤ} (h : LeapYear y) :
    yearStart (y - 1) + 366 ≤ yearStart (y - 1 + 1) := by
  unfold LeapYear at h
  unfold yearStart
  omega

/-- A day of a month is in the month that begins `monthStart mp` days behind the start of the year,
and only a leap day is the 366th of its year. -/
theorem monthOf_monthStart {y m day : ℤ} (hpos : 1 ≤ m) (hle : m ≤ 12) (hday : 1 ≤ day)
    (hlen : day ≤ monthLength y m) :
    monthOf (monthStart ((m + 9) % 12) + (day - 1)) = (m + 9) % 12 ∧
      (monthStart ((m + 9) % 12) + (day - 1) < 365 ∨
        m = 2 ∧ LeapYear y ∧ monthStart ((m + 9) % 12) + (day - 1) < 366) := by
  unfold monthLength at hlen
  unfold monthOf monthStart
  by_cases hfeb : m = 2
  · subst hfeb
    rw [if_pos rfl] at hlen
    split_ifs at hlen with hleap
    · exact ⟨by omega, .inr ⟨rfl, hleap, by omega⟩⟩
    · exact ⟨by omega, .inl (by omega)⟩
  · rw [if_neg hfeb] at hlen
    split_ifs at hlen with hshort
    · rcases hshort with rfl | rfl | rfl | rfl <;> exact ⟨by omega, .inl (by omega)⟩
    · interval_cases m <;> exact ⟨by omega, .inl (by omega)⟩

/-- **A valid date is determined by its day.** -/
theorem dateOf_dayOf {date : Date} (h : date.Valid) : dateOf (dayOf date) = date := by
  obtain ⟨y, m, day⟩ := date
  obtain ⟨hpos, hle, hday, hlen⟩ := h
  dsimp only at hpos hle hday hlen
  obtain ⟨hmonth, hlast⟩ := monthOf_monthStart hpos hle hday hlen
  obtain ⟨n, hn⟩ : ∃ n, n = 12 * y + m - 3 := ⟨_, rfl⟩
  have hmod : (m + 9) % 12 = n % 12 := by omega
  rw [hmod] at hmonth hlast
  have hnonneg : 0 ≤ monthStart (n % 12) := by
    unfold monthStart
    omega
  have hend : monthStart (n % 12) + (day - 1) <
      yearStart (n / 12 + 1) - yearStart (n / 12) := by
    have hyear := le_yearStart_succ (n / 12)
    rcases hlast with hlt | ⟨rfl, hleap, hlt⟩
    · omega
    · have hdiv : n / 12 = y - 1 := by omega
      have := yearStart_of_leapYear hleap
      rw [hdiv] at *
      omega
  have hyear : yearOf (dayOfMonthNumber n day) = n / 12 := by
    rw [dayOfMonthNumber]
    exact yearOf_eq (by omega) (by omega)
  have hdoy : dayOfYear (dayOfMonthNumber n day) = monthStart (n % 12) + (day - 1) := by
    rw [dayOfYear, hyear, dayOfMonthNumber]
    ring
  have hnumber : monthNumber (dayOfMonthNumber n day) = n := by
    rw [monthNumber, hyear, hdoy, hmonth]
    omega
  have hdom : dayOfMonth (dayOfMonthNumber n day) = day := by
    rw [dayOfMonth, hdoy, hmonth]
    ring
  rw [dayOf, dateOf, ← hn, sub_add_cancel, hnumber, hdom, hn]
  exact Date.mk.injEq .. |>.mpr ⟨by omega, by omega, rfl⟩

theorem dateOf_month (days : ℤ) : 1 ≤ (dateOf days).month ∧ (dateOf days).month ≤ 12 := by
  unfold dateOf
  dsimp only
  omega

theorem dateOf_day (days : ℤ) : 1 ≤ (dateOf days).day ∧ (dateOf days).day ≤ 31 :=
  ⟨dayOfMonth_pos _, dayOfMonth_le _⟩

example : dateOf 0 = ⟨1970, 1, 1⟩ ∧ dateOf 19782 = ⟨2024, 2, 29⟩ := by decide

end Calendar
