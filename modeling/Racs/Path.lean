import Racs.Foundation.Calendar
import Racs.Foundation.Decimal
import Racs.Foundation.Lexicographic
import Mathlib.Data.Int.DivMod

/-!
# Paths of SSTables

An SSTable is stored under the time of its first entry, in milliseconds since the epoch: a
directory for the year, the month, the day, the hour, the minute and the second, and a file named
by the milliseconds (`time.c`). While it is written the name has the extension `.tmp`.

`gmtime_r` is the proleptic Gregorian calendar. Seconds and milliseconds come from a division that
truncates, so the milliseconds of a time before the epoch are negative.

## Main definitions

* `Racs.timeToTm`, `Racs.timeToPath`, `Racs.timeFromPath`.

## Main results

* `Racs.timeToPath_injective` — different times have different paths.
* `Racs.timeToPath_tmp_ne` — the path of a temporary file is not that of a finished one.
-/

namespace Racs

open Calendar Decimal Lexicographic

/-- The fields of `struct tm` that the code uses. -/
structure Tm where
  year : ℤ
  mon : ℤ
  mday : ℤ
  hour : ℤ
  min : ℤ
  sec : ℤ
  deriving DecidableEq

/-- `gmtime_r`. -/
def gmtime (sec : ℤ) : Tm :=
  let date := dateOf (sec / 86400)
  let tod := sec % 86400
  ⟨date.year - 1900, date.month - 1, date.day, tod / 3600, tod / 60 % 60, tod % 60⟩

/-- `timegm`. Fields outside of their ranges count on into the next larger ones. -/
def timegm (tm : Tm) : ℤ :=
  dayOf ⟨tm.year + 1900, tm.mon + 1, tm.mday⟩ * 86400 + tm.hour * 3600 + tm.min * 60 + tm.sec

theorem timegm_gmtime (sec : ℤ) : timegm (gmtime sec) = sec := by
  have hdate : (⟨(dateOf (sec / 86400)).year - 1900 + 1900,
      (dateOf (sec / 86400)).month - 1 + 1, (dateOf (sec / 86400)).day⟩ : Date) =
      dateOf (sec / 86400) := by
    rw [sub_add_cancel, sub_add_cancel]
  rw [timegm, gmtime, hdate, dayOf_dateOf]
  dsimp only
  omega

/-- `racs_time_to_tm`. -/
def timeToTm (time : Int64) : Tm := gmtime (time.toInt.tdiv 1000)

/-- The directories and the name of a file below `.racs/seg`, without an extension. -/
def tmPath (tm : Tm) (rem : ℤ) : List Char :=
  printInt 1 (tm.year + 1900) ++ '/' :: (printInt 2 (tm.mon + 1) ++ '/' ::
    (printInt 2 tm.mday ++ '/' :: (printInt 2 tm.hour ++ '/' :: (printInt 2 tm.min ++ '/' ::
      (printInt 2 tm.sec ++ '/' :: printInt 3 rem)))))

/-- The directory of the SSTables, below the directory `racs_time_dir`. -/
def segDir (dir : List Char) : List Char := dir ++ "/.racs/seg/".toList

/-- `racs_time_to_path`. -/
def timeToPath (dir : List Char) (time : Int64) (tmp : Bool) : List Char :=
  segDir dir ++ tmPath (timeToTm time) (time.toInt.tmod 1000) ++
    if tmp then ".tmp".toList else []

/-- A directive such as `%2d` and the slash behind it. -/
def scanDir (w : ℕ) (cs : List Char) : Option (ℤ × List Char) :=
  match scanInt w cs with
  | some (z, '/' :: cs) => some (z, cs)
  | _ => none

/-- The format of `sscanf` in `racs_time_from_path`: the fields and the milliseconds, unless one is
missing. -/
def scanTm (cs : List Char) : Option (Tm × ℤ) :=
  if ".racs/seg/".toList.isPrefixOf cs then
    (scanDir 4 (cs.drop 10)).bind fun (year, cs) =>
    (scanDir 2 cs).bind fun (mon, cs) =>
    (scanDir 2 cs).bind fun (mday, cs) =>
    (scanDir 2 cs).bind fun (hour, cs) =>
    (scanDir 2 cs).bind fun (min, cs) =>
    (scanDir 2 cs).bind fun (sec, cs) =>
    (scanInt 3 cs).map fun (mill, _) => (⟨year - 1900, mon - 1, mday, hour, min, sec⟩, mill)
  else none

/-- `racs_time_from_path`, undefined for a path that is not below `.racs/seg`. -/
def timeFromPath (path : List Char) : Option Int64 :=
  (path.tails.find? (".racs/seg".toList.isPrefixOf ·)).map fun cs =>
    match scanTm cs with
    | none => -1
    | some (tm, mill) =>
      if mill < 0 ∨ 999 < mill then -1
      else if timegm tm = -1 then -1
      else Int64.ofInt (timegm tm * 1000 + mill)

theorem slash_not_mem (w : ℕ) (z : ℤ) : '/' ∉ printInt w z :=
  not_mem_printInt (by decide) (by decide)

theorem dot_not_mem (w : ℕ) (z : ℤ) : '.' ∉ printInt w z :=
  not_mem_printInt (by decide) (by decide)

/-- The fields and the milliseconds are read off the path. -/
theorem tmPath_inj {tm tm' : Tm} {rem rem' : ℤ} (h : tmPath tm rem = tmPath tm' rem') :
    tm = tm' ∧ rem = rem' := by
  obtain ⟨hyear, h⟩ := append_cons_inj (slash_not_mem _ _) (slash_not_mem _ _) h
  obtain ⟨hmon, h⟩ := append_cons_inj (slash_not_mem _ _) (slash_not_mem _ _) h
  obtain ⟨hmday, h⟩ := append_cons_inj (slash_not_mem _ _) (slash_not_mem _ _) h
  obtain ⟨hhour, h⟩ := append_cons_inj (slash_not_mem _ _) (slash_not_mem _ _) h
  obtain ⟨hmin, h⟩ := append_cons_inj (slash_not_mem _ _) (slash_not_mem _ _) h
  obtain ⟨hsec, hrem⟩ := append_cons_inj (slash_not_mem _ _) (slash_not_mem _ _) h
  have hyear := printInt_injective _ hyear
  have hmon := printInt_injective _ hmon
  refine ⟨?_, printInt_injective _ hrem⟩
  rcases tm with ⟨year, mon, mday, hour, min, sec⟩
  rcases tm' with ⟨year', mon', mday', hour', min', sec'⟩
  dsimp only at hyear hmon
  obtain rfl : year = year' := by omega
  obtain rfl : mon = mon' := by omega
  obtain rfl := printInt_injective _ hmday
  obtain rfl := printInt_injective _ hhour
  obtain rfl := printInt_injective _ hmin
  obtain rfl := printInt_injective _ hsec
  rfl

/-- **Different times have different paths**, before and after the epoch. -/
theorem timeToPath_injective (dir : List Char) :
    Function.Injective fun time => timeToPath dir time false := by
  intro t t' h
  simp only [timeToPath, Bool.false_eq_true, if_false, List.append_nil] at h
  obtain ⟨htm, hrem⟩ := tmPath_inj (List.append_cancel_left h)
  have hsec := congrArg timegm htm
  rw [timeToTm, timeToTm, timegm_gmtime, timegm_gmtime] at hsec
  have ht := Int.tdiv_mul_add_tmod t.toInt 1000
  have ht' := Int.tdiv_mul_add_tmod t'.toInt 1000
  rw [hsec, hrem] at ht
  exact Int64.toInt_inj.mp (ht.symm.trans ht')

/-- The name of a finished file has no extension. -/
theorem dot_not_mem_tmPath (tm : Tm) (rem : ℤ) : '.' ∉ tmPath tm rem := by
  simp only [tmPath, List.mem_append, List.mem_cons, not_or]
  exact ⟨dot_not_mem _ _, by decide, dot_not_mem _ _, by decide, dot_not_mem _ _, by decide,
    dot_not_mem _ _, by decide, dot_not_mem _ _, by decide, dot_not_mem _ _, by decide,
    dot_not_mem _ _⟩

/-- A temporary file does not have the path of a finished one. -/
theorem timeToPath_tmp_ne (dir : List Char) (time time' : Int64) :
    timeToPath dir time true ≠ timeToPath dir time' false := by
  intro h
  simp only [timeToPath, Bool.false_eq_true, if_false, if_true, List.append_nil,
    List.append_assoc] at h
  have heq := List.append_cancel_left h
  have hdot : '.' ∈ tmPath (timeToTm time) (time.toInt.tmod 1000) ++ ".tmp".toList :=
    List.mem_append_right _ (by decide)
  exact dot_not_mem_tmPath _ _ (heq ▸ hdot)

example : timeToPath "d".toList 1700000000123 true =
    "d/.racs/seg/2023/11/14/22/13/20/123.tmp".toList := by decide

example : timeFromPath "d/.racs/seg/2023/11/14/22/13/20/123".toList = some 1700000000123 := by
  decide +kernel

end Racs
