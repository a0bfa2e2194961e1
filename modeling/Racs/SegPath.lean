import Racs.FileList
import Racs.Path

/-!
# Times and paths

What a range relies on when it goes from times to paths and back. The fields of a path, from the
year to the milliseconds, increase with the time. A time between two others therefore has a path
below the directory that the paths of the two share. For a time from 1970 to 9999 every field has a
fixed number of digits: its path is read back as the time, and such paths are ordered as the times.

Outside of these years `racs_time_from_path` reads other times off the paths, mostly `-1`.

## Main definitions

* `Racs.timeNumbers`, `Racs.timeFields` — the numbers and the fields of a path.
* `Racs.ClockTime` — the times from 1970 to 9999.

## Main results

* `Racs.timeNumbers_lt` — numbers increase with the time.
* `Racs.shared_prefix_timeToPath` — a path between two others.
* `Racs.timeFromPath_timeToPath`, `Racs.timeToPath_lt` — paths of clock times.
* `Racs.timeToPath_faithful` — paths of clock times stand for the times.
-/

namespace Racs

open Calendar Decimal Lexicographic

/-! ### The fields of a path -/

/-- The widths of the directives in `racs_time_to_path`. -/
def fieldWidths : List ℕ := [1, 2, 2, 2, 2, 2, 3]

/-- The numbers that `racs_time_to_path` prints. -/
def timeNumbers (time : Int64) : List ℤ :=
  let tm := timeToTm time
  [tm.year + 1900, tm.mon + 1, tm.mday, tm.hour, tm.min, tm.sec, time.toInt.tmod 1000]

/-- The names of the directories and of the file. -/
def timeFields (time : Int64) : List (List Char) :=
  List.zipWith printInt fieldWidths (timeNumbers time)

theorem timeToPath_eq (dir : List Char) (time : Int64) :
    timeToPath dir time false = segDir dir ++ joinFields '/' (timeFields time) := by
  rw [timeToPath, if_neg Bool.false_ne_true, List.append_nil]
  rfl

theorem length_timeFields (time : Int64) : (timeFields time).length = 7 := rfl

theorem slash_not_mem_timeFields (time : Int64) : ∀ x ∈ timeFields time, '/' ∉ x := by
  intro x hx
  obtain ⟨w, z, rfl⟩ : ∃ w z, x = printInt w z := by
    simp only [timeFields, fieldWidths, timeNumbers, List.zipWith_cons_cons, List.zipWith_nil_left,
      List.mem_cons, List.not_mem_nil, or_false] at hx
    rcases hx with rfl | rfl | rfl | rfl | rfl | rfl | rfl <;> exact ⟨_, _, rfl⟩
  exact slash_not_mem w z

/-- Printing the same widths, numbers are determined by their texts. -/
theorem zipWith_printInt_injective {ws : List ℕ} {ms ns : List ℤ} (hm : ms.length ≤ ws.length)
    (hn : ns.length ≤ ws.length) (h : List.zipWith printInt ws ms = List.zipWith printInt ws ns) :
    ms = ns := by
  induction ws generalizing ms ns with
  | nil =>
    rw [List.length_eq_zero_iff.mp (Nat.le_zero.mp hm),
      List.length_eq_zero_iff.mp (Nat.le_zero.mp hn)]
  | cons w ws ih =>
    cases ms with
    | nil =>
      cases ns with
      | nil => rfl
      | cons n ns => cases h
    | cons m ms =>
      cases ns with
      | nil => cases h
      | cons n ns =>
        obtain ⟨hhead, htail⟩ := List.cons.inj h
        rw [printInt_injective w hhead,
          ih (Nat.le_of_succ_le_succ hm) (Nat.le_of_succ_le_succ hn) htail]

theorem take_timeFields (time : Int64) (n : ℕ) :
    (timeFields time).take n =
      List.zipWith printInt (fieldWidths.take n) ((timeNumbers time).take n) := List.take_zipWith

theorem length_take_timeNumbers (time : Int64) (n : ℕ) :
    ((timeNumbers time).take n).length = (fieldWidths.take n).length := by
  rw [List.length_take, List.length_take]
  rfl

/-! ### Numbers increase with the time -/

/-- The numbers of `gmtime_r` increase with the seconds. -/
theorem gmtime_lt {a b : ℤ} (h : a < b) (x y : ℤ) :
    ([(gmtime a).year + 1900, (gmtime a).mon + 1, (gmtime a).mday, (gmtime a).hour, (gmtime a).min,
        (gmtime a).sec, x] : List ℤ) <
      [(gmtime b).year + 1900, (gmtime b).mon + 1, (gmtime b).mday, (gmtime b).hour,
        (gmtime b).min, (gmtime b).sec, y] := by
  simp only [List.cons_lt_cons_iff, gmtime]
  rcases (show a / 86400 ≤ b / 86400 by omega).lt_or_eq with hday | hday
  · have hdate := dateOf_lt hday
    omega
  · rw [hday]
    omega

/-- **The numbers of a path increase with the time.** -/
theorem timeNumbers_lt {t u : Int64} (h : t < u) : timeNumbers t < timeNumbers u := by
  have hlt : t.toInt < u.toInt := Int64.lt_iff_toInt_lt.mp h
  have ht := Int.tdiv_mul_add_tmod t.toInt 1000
  have hu := Int.tdiv_mul_add_tmod u.toInt 1000
  rcases lt_or_ge (t.toInt.tdiv 1000) (u.toInt.tdiv 1000) with hsec | hsec
  · exact gmtime_lt hsec _ _
  · have heq : t.toInt.tdiv 1000 = u.toInt.tdiv 1000 := by
      refine le_antisymm ?_ hsec
      exact Int.tdiv_le_tdiv (by decide) hlt.le
    have hrem : t.toInt.tmod 1000 < u.toInt.tmod 1000 := by
      rw [heq] at ht
      omega
    simp only [timeNumbers, timeToTm, heq, List.cons_lt_cons_iff, lt_irrefl, false_or, true_and]
    exact .inl hrem

theorem timeNumbers_le {t u : Int64} (h : t ≤ u) : timeNumbers t ≤ timeNumbers u := by
  rcases Int64.lt_or_eq_of_le h with hlt | rfl
  · exact (timeNumbers_lt hlt).le
  · exact le_refl _

/-! ### Shared directories -/

theorem commonPrefix_prefix_left (a b : List Char) : commonPrefix a b <+: a := by
  induction a generalizing b with
  | nil => exact List.prefix_refl _
  | cons x a ih =>
    cases b with
    | nil => exact List.nil_prefix
    | cons y b =>
      rw [commonPrefix]
      split_ifs
      · exact List.cons_prefix_cons.mpr ⟨rfl, ih b⟩
      · exact List.nil_prefix

theorem commonPrefix_comm (a b : List Char) : commonPrefix a b = commonPrefix b a := by
  induction a generalizing b with
  | nil => cases b <;> rfl
  | cons x a ih =>
    cases b with
    | nil => rfl
    | cons y b =>
      rw [commonPrefix, commonPrefix]
      by_cases h : x = y
      · rw [if_pos h, if_pos h.symm, ih, h]
      · rw [if_neg h, if_neg (Ne.symm h)]

theorem commonPrefix_append (s a b : List Char) :
    commonPrefix (s ++ a) (s ++ b) = s ++ commonPrefix a b := by
  induction s with
  | nil => rfl
  | cons x s ih => rw [List.cons_append, List.cons_append, commonPrefix, if_pos rfl, ih]; rfl

/-- The shared directory of two paths that begin with one directory, with its slash. -/
theorem resolveSharedPath_append (s a b : List Char) :
    ∃ r, resolveSharedPath (s ++ '/' :: a) (s ++ '/' :: b) ++ ['/'] = s ++ '/' :: r ∧ r <+: a ∧
      r <+: b ∧ (r = [] ∨ r.getLast? = some '/') := by
  obtain ⟨r, t, hrt, ht, hr⟩ := exists_append_last '/' (commonPrefix a b)
  have hprefix : r <+: commonPrefix a b := hrt ▸ List.prefix_append r t
  refine ⟨r, ?_, hprefix.trans (commonPrefix_prefix_left a b), ?_, hr⟩
  · -- what follows the last slash is dropped
    have hslash : ∃ xs, r.reverse ++ '/' :: s.reverse = '/' :: xs := by
      rcases hr with rfl | hr
      · exact ⟨_, rfl⟩
      · obtain ⟨r', rfl⟩ := List.getLast?_eq_some_iff.mp hr
        exact ⟨_, by rw [List.reverse_append, List.reverse_singleton]; rfl⟩
    obtain ⟨xs, hxs⟩ := hslash
    have hreverse : (commonPrefix (s ++ '/' :: a) (s ++ '/' :: b)).reverse =
        t.reverse ++ '/' :: xs := by
      rw [commonPrefix_append, commonPrefix, if_pos rfl, hrt, ← hxs]
      simp
    have hdrop : ∀ c ∈ t.reverse, decide (c ≠ '/') = true := by
      intro c hc
      rw [decide_eq_true_eq]
      rintro rfl
      exact ht (List.mem_reverse.mp hc)
    have hlist : s ++ '/' :: r = xs.reverse ++ ['/'] := by
      have := congrArg List.reverse hxs
      simpa using this
    rw [resolveSharedPath, hreverse, List.dropWhile_append_of_pos hdrop, hlist]
    rfl
  · rw [commonPrefix_comm] at hprefix
    exact hprefix.trans (commonPrefix_prefix_left b a)

/-- **A path between two others** is below the directory that they share. -/
theorem shared_prefix_timeToPath (dir : List Char) {t u v : Int64} (htu : t ≤ u) (huv : u ≤ v) :
    resolveSharedPath (timeToPath dir t false) (timeToPath dir v false) ++ ['/'] <+:
      timeToPath dir u false := by
  have hseg : segDir dir = (dir ++ "/.racs/seg".toList) ++ ['/'] := by
    have hslash : "/.racs/seg/".toList = "/.racs/seg".toList ++ ['/'] := by decide
    rw [segDir, hslash, List.append_assoc]
  have hpath : ∀ time, timeToPath dir time false =
      (dir ++ "/.racs/seg".toList) ++ '/' :: joinFields '/' (timeFields time) := by
    intro time
    rw [timeToPath_eq, hseg, List.append_assoc, List.singleton_append]
  obtain ⟨r, hshared, hrt, hrv, hr⟩ := resolveSharedPath_append (dir ++ "/.racs/seg".toList)
    (joinFields '/' (timeFields t)) (joinFields '/' (timeFields v))
  rw [hpath t, hpath v, hshared, hpath u]
  refine (List.prefix_append_right_inj _).mpr (List.cons_prefix_cons.mpr ⟨rfl, ?_⟩)
  refine prefix_joinFields (slash_not_mem_timeFields t) (slash_not_mem_timeFields v)
    ((length_timeFields u).trans (length_timeFields t).symm) ?_ hr hrt hrv
  intro n hn
  rw [take_timeFields, take_timeFields] at hn ⊢
  have hnumbers : (timeNumbers t).take n = (timeNumbers v).take n := by
    refine zipWith_printInt_injective ?_ ?_ hn
    · exact le_of_eq (length_take_timeNumbers t n)
    · exact le_of_eq (length_take_timeNumbers v n)
  rw [take_eq_of_le (timeNumbers_le htu) (timeNumbers_le huv) hnumbers]

/-! ### Every path -/

theorem segDir_eq (dir : List Char) :
    segDir dir = (dir ++ ['/']) ++ ".racs/seg/".toList := by
  have hlit : "/.racs/seg/".toList = ['/'] ++ ".racs/seg/".toList := by decide
  rw [segDir, hlit, List.append_assoc]

/-- The path of a finished file is not that of a temporary one. -/
theorem isTmpfile_timeToPath (dir : List Char) (time : Int64) :
    isTmpfile (timeToPath dir time false) = false := by
  obtain ⟨name, hname⟩ : ∃ name,
      name = "racs/seg/".toList ++ tmPath (timeToTm time) (time.toInt.tmod 1000) := ⟨_, rfl⟩
  have hpath : timeToPath dir time false = (dir ++ ['/', '.']) ++ name := by
    have hlit : "/.racs/seg/".toList = ['/', '.'] ++ "racs/seg/".toList := by decide
    rw [timeToPath, if_neg Bool.false_ne_true, List.append_nil, segDir, hlit]
    simp only [hname, List.append_assoc]
  have hdots : ∀ c ∈ name.reverse, decide (c ≠ '.') = true := by
    intro c hc
    rw [decide_eq_true_eq]
    rintro rfl
    rcases List.mem_append.mp (hname ▸ List.mem_reverse.mp hc) with hmem | hmem
    · exact absurd hmem (by decide)
    · exact dot_not_mem_tmPath _ _ hmem
  rw [isTmpfile, decide_eq_false_iff_not, hpath, List.reverse_append, List.reverse_append,
    List.takeWhile_append_of_pos hdots, show [('/' : Char), '.'].reverse = ['.', '/'] from rfl,
    List.cons_append, List.takeWhile_cons_of_neg (by decide), List.append_nil, List.reverse_reverse]
  rintro ⟨-, htmp⟩
  have hslash : '/' ∈ name := hname ▸ List.mem_append_left _ (by decide)
  rw [htmp] at hslash
  exact absurd hslash (by decide)

/-- A time is read off the path of every file. -/
theorem timeFromPath_isSome (dir : List Char) (time : Int64) :
    ∃ t, timeFromPath (timeToPath dir time false) = some t := by
  rw [← Option.isSome_iff_exists, timeFromPath, Option.isSome_map, List.find?_isSome]
  refine ⟨".racs/seg/".toList ++ joinFields '/' (timeFields time), ?_, ?_⟩
  · rw [List.mem_tails, timeToPath_eq, segDir_eq, List.append_assoc]
    exact List.suffix_append _ _
  · rw [List.isPrefixOf_iff_prefix]
    have hlit : ".racs/seg/".toList = ".racs/seg".toList ++ ['/'] := by decide
    rw [hlit, List.append_assoc]
    exact List.prefix_append _ _

/-! ### Paths of clock times -/

/-- The times from the beginning of 1970 to the end of 9999. -/
def ClockTime (time : Int64) : Prop := 0 ≤ time.toInt ∧ time.toInt < 253402300800000

/-- The numbers of digits in the paths of these times. -/
def clockWidths : List ℕ := [4, 2, 2, 2, 2, 2, 3]

variable {time : Int64}

/-- The year has four digits. -/
theorem ClockTime.year (h : ClockTime time) :
    1970 ≤ (timeToTm time).year + 1900 ∧ (timeToTm time).year + 1900 ≤ 9999 := by
  obtain ⟨hlow, hhigh⟩ := h
  have hsec := Int.tdiv_eq_ediv_of_nonneg hlow (b := 1000)
  have hday : 0 ≤ time.toInt.tdiv 1000 / 86400 ∧ time.toInt.tdiv 1000 / 86400 ≤ 2932896 := by omega
  have hfirst : dateOf 0 = ⟨1970, 1, 1⟩ := by decide
  have hlast : dateOf 2932896 = ⟨9999, 12, 31⟩ := by decide
  rw [timeToTm, gmtime, sub_add_cancel]
  constructor
  · rcases hday.1.lt_or_eq with hlt | heq
    · have := dateOf_lt hlt
      simp only [hfirst] at this
      omega
    · rw [← heq, hfirst]
  · rcases hday.2.lt_or_eq with hlt | heq
    · have := dateOf_lt hlt
      simp only [hlast] at this
      omega
    · rw [heq, hlast]

/-- Every number has its field. -/
theorem ClockTime.numbers (h : ClockTime time) :
    List.Forall₂ (fun w (z : ℤ) => 0 ≤ z ∧ z < 10 ^ w) clockWidths (timeNumbers time) := by
  have hyear := h.year
  have hrem := Int.tmod_eq_emod_of_nonneg h.1 (b := 1000)
  have hmonth := dateOf_month (time.toInt.tdiv 1000 / 86400)
  have hmday := dateOf_day (time.toInt.tdiv 1000 / 86400)
  simp only [timeNumbers, timeToTm, gmtime, clockWidths, List.forall₂_cons, List.Forall₂.nil,
    and_true] at hyear ⊢
  omega

/-- The fields have fixed numbers of digits. -/
theorem ClockTime.fields (h : ClockTime time) :
    timeFields time =
      List.zipWith (fun w z => printNat w z.natAbs) clockWidths (timeNumbers time) := by
  have hnumbers := h.numbers
  have hyear := h.year
  simp only [timeNumbers, clockWidths, List.forall₂_cons, List.Forall₂.nil, and_true] at hnumbers
  obtain ⟨⟨hyear₀, -⟩, ⟨hmon, -⟩, ⟨hmday, -⟩, ⟨hhour, -⟩, ⟨hmin, -⟩, ⟨hsec, -⟩, hrem, -⟩ := hnumbers
  simp only [timeFields, fieldWidths, clockWidths, timeNumbers, List.zipWith_cons_cons,
    List.zipWith_nil_left, printNat_of_nonneg hyear₀, printNat_of_nonneg hmon,
    printNat_of_nonneg hmday, printNat_of_nonneg hhour, printNat_of_nonneg hmin,
    printNat_of_nonneg hsec, printNat_of_nonneg hrem]
  rw [@printNat_one 3 _ (by decide) (by omega)]

theorem natAbs_lt_pow {w : ℕ} {z : ℤ} (h : 0 ≤ z ∧ z < 10 ^ w) : z.natAbs < 10 ^ w := by
  rw [← Int.natAbs_of_nonneg h.1] at h
  exact_mod_cast h.2

/-- A number that fills its field is scanned, with the slash behind it. -/
theorem scanDir_printNat {w : ℕ} {z : ℤ} (hw : 0 < w) (h : 0 ≤ z ∧ z < 10 ^ w) (cs : List Char) :
    scanDir w (printNat w z.natAbs ++ '/' :: cs) = some (z, cs) := by
  rw [scanDir, scanInt_printNat hw (natAbs_lt_pow h), Int.natAbs_of_nonneg h.1]
  rfl

/-- The fields are scanned; what follows the milliseconds is not looked at. -/
theorem ClockTime.scanTm (h : ClockTime time) (ext : List Char) :
    Racs.scanTm (".racs/seg/".toList ++ (joinFields '/' (timeFields time) ++ ext)) =
      some (timeToTm time, time.toInt.tmod 1000) := by
  have hnumbers := h.numbers
  have hprefix : ".racs/seg/".toList.isPrefixOf
      (".racs/seg/".toList ++ (joinFields '/' (timeFields time) ++ ext)) = true := by
    rw [List.isPrefixOf_iff_prefix]
    exact List.prefix_append _ _
  have hlen : ".racs/seg/".toList.length = 10 := by decide
  rw [Racs.scanTm, if_pos hprefix, ← hlen, List.drop_left, h.fields]
  simp only [timeNumbers, clockWidths, List.forall₂_cons, List.Forall₂.nil, and_true] at hnumbers
  obtain ⟨hyear, hmon, hmday, hhour, hmin, hsec, hrem⟩ := hnumbers
  have hmill := @scanInt_printNat 3 (time.toInt.tmod 1000).natAbs (by decide) (by omega) ext
  rw [Int.natAbs_of_nonneg hrem.1] at hmill
  simp only [clockWidths, timeNumbers, List.zipWith_cons_cons, List.zipWith_nil_left, joinFields,
    List.append_assoc, List.cons_append,
    scanDir_printNat (by decide) hyear, scanDir_printNat (by decide) hmon,
    scanDir_printNat (by decide) hmday, scanDir_printNat (by decide) hhour,
    scanDir_printNat (by decide) hmin, scanDir_printNat (by decide) hsec, hmill, Option.bind_some,
    Option.map_some, add_sub_cancel_right]

/-- In a path below a directory that has no `.racs/seg` in its name, the name does not begin in
front of the directory of the SSTables. -/
theorem not_prefix_segDir {dir : List Char} (hdir : ¬ ".racs/seg".toList <:+: dir)
    (rest : List Char) : ¬ ".racs/seg".toList <+: dir ++ ("/.racs/seg/".toList ++ rest) := by
  intro h
  rcases List.prefix_or_prefix_of_prefix h (List.prefix_append dir _) with hpat | hpat
  · exact hdir hpat.isInfix
  · -- the name would begin inside of `dir` and end behind it
    obtain ⟨u, hu⟩ := hpat
    rw [← hu, List.prefix_append_right_inj] at h
    have hlen := congrArg List.length hu
    have hnine : ".racs/seg".toList.length = 9 := by decide
    have hshort : u <+: "/.racs/seg/".toList := by
      refine List.prefix_of_prefix_length_le h (List.prefix_append _ _) ?_
      have heleven : "/.racs/seg/".toList.length = 11 := by decide
      rw [List.length_append] at hlen
      omega
    have hdrop : u = ".racs/seg".toList.drop dir.length := by rw [← hu, List.drop_left]
    rcases Nat.lt_or_ge dir.length 9 with hlt | hge
    · have hnone : ∀ k < 9, ¬ (".racs/seg".toList.drop k <+: "/.racs/seg/".toList) := by decide
      exact hnone _ hlt (hdrop ▸ hshort)
    · have hnil : u = [] := by rw [hdrop, List.drop_eq_nil_of_le (by omega)]
      rw [hnil, List.append_nil] at hu
      exact hdir (hu ▸ List.infix_refl _)

theorem find_tails_segDir {dir : List Char} (hdir : ¬ ".racs/seg".toList <:+: dir)
    (rest : List Char) :
    (segDir dir ++ rest).tails.find? (".racs/seg".toList.isPrefixOf ·) =
      some (".racs/seg/".toList ++ rest) := by
  have htails : ∀ l : List Char, ∃ ls, l.tails = l :: ls := by
    intro l
    cases l with
    | nil => exact ⟨_, rfl⟩
    | cons c l => exact ⟨_, List.tails_cons c l⟩
  have hno := not_prefix_segDir hdir rest
  rw [segDir, List.append_assoc]
  induction dir with
  | nil =>
    have hlit : "/.racs/seg/".toList = '/' :: ".racs/seg/".toList := by decide
    have hpat : ".racs/seg/".toList = ".racs/seg".toList ++ ['/'] := by decide
    rw [List.nil_append, hlit, List.cons_append] at hno ⊢
    obtain ⟨ls, hls⟩ := htails (".racs/seg/".toList ++ rest)
    rw [List.tails_cons, List.find?_cons_of_neg (by rwa [List.isPrefixOf_iff_prefix]), hls,
      List.find?_cons_of_pos]
    rw [List.isPrefixOf_iff_prefix, hpat, List.append_assoc]
    exact List.prefix_append _ _
  | cons c dir ih =>
    have hdir' : ¬ ".racs/seg".toList <:+: dir :=
      fun h => hdir (h.trans (List.suffix_cons c dir).isInfix)
    rw [List.cons_append] at hno ⊢
    rw [List.tails_cons, List.find?_cons_of_neg (by rwa [List.isPrefixOf_iff_prefix])]
    exact ih hdir' (not_prefix_segDir hdir' rest)

/-- **The time of a clock is read back from its path**, of a temporary file as well. -/
theorem timeFromPath_timeToPath {dir : List Char} (hdir : ¬ ".racs/seg".toList <:+: dir)
    {tmp : Bool} (h : ClockTime time) : timeFromPath (timeToPath dir time tmp) = some time := by
  have hsec := timegm_gmtime (time.toInt.tdiv 1000)
  have htime := Int.tdiv_mul_add_tmod time.toInt 1000
  have hdiv := Int.tdiv_eq_ediv_of_nonneg h.1 (b := 1000)
  have hmod := Int.tmod_eq_emod_of_nonneg h.1 (b := 1000)
  obtain ⟨hlow, hhigh⟩ := h
  have hpath : timeToPath dir time tmp = segDir dir ++ (joinFields '/' (timeFields time) ++
      if tmp then ".tmp".toList else []) := List.append_assoc ..
  rw [timeFromPath, hpath, find_tails_segDir hdir, Option.map_some,
    ClockTime.scanTm ⟨hlow, hhigh⟩]
  dsimp only
  rw [timeToTm, hsec, if_neg (by omega), if_neg (by omega), htime, Int64.ofInt_toInt]

/-- Fields of fixed widths are ordered as the numbers. -/
theorem joinFields_lt {ws : List ℕ} {ms ns : List ℤ} (hws : ∀ w ∈ ws, 0 < w)
    (hm : List.Forall₂ (fun w (z : ℤ) => 0 ≤ z ∧ z < 10 ^ w) ws ms)
    (hn : List.Forall₂ (fun w (z : ℤ) => 0 ≤ z ∧ z < 10 ^ w) ws ns) (h : ms < ns) :
    joinFields '/' (List.zipWith (fun w z => printNat w z.natAbs) ws ms) <
      joinFields '/' (List.zipWith (fun w z => printNat w z.natAbs) ws ns) := by
  induction ws generalizing ms ns with
  | nil =>
    cases hm
    cases hn
    exact absurd h (lt_irrefl _)
  | cons w ws ih =>
    obtain ⟨m, ms, hmw, hms, rfl⟩ := List.forall₂_cons_left_iff.mp hm
    obtain ⟨n, ns, hnw, hns, rfl⟩ := List.forall₂_cons_left_iff.mp hn
    have hw := hws w List.mem_cons_self
    have hm' := natAbs_lt_pow hmw
    have hn' := natAbs_lt_pow hnw
    have hlength := (length_printNat hw hm').trans (length_printNat hw hn').symm
    have hprint : m < n → printNat w m.natAbs < printNat w n.natAbs := fun hlt =>
      (printNat_lt_printNat hw hm' hn').mpr (by omega)
    cases ws with
    | nil =>
      cases hms
      cases hns
      refine hprint ?_
      rcases List.cons_lt_cons_iff.mp h with hlt | ⟨-, hnil⟩
      · exact hlt
      · exact absurd hnil (lt_irrefl _)
    | cons w' ws =>
      obtain ⟨m', ms, -, -, rfl⟩ := List.forall₂_cons_left_iff.mp hms
      obtain ⟨n', ns, -, -, rfl⟩ := List.forall₂_cons_left_iff.mp hns
      rcases List.cons_lt_cons_iff.mp h with hlt | ⟨rfl, hlt⟩
      · exact append_lt_append_of_lt hlength (hprint hlt) _ _
      · refine List.append_left_lt (List.cons_lt_cons_iff.mpr (.inr ⟨rfl, ?_⟩))
        exact ih (fun w hw => hws w (List.mem_cons_of_mem _ hw)) hms hns hlt

/-- **Paths of clock times are ordered as the times.** -/
theorem timeToPath_lt (dir : List Char) {t u : Int64} (ht : ClockTime t) (hu : ClockTime u)
    (h : t < u) : timeToPath dir t false < timeToPath dir u false := by
  rw [timeToPath_eq, timeToPath_eq, ht.fields, hu.fields]
  exact List.append_left_lt (joinFields_lt (by decide) ht.numbers hu.numbers (timeNumbers_lt h))

/-- **Paths encode the times of a clock**: the time is read back, and `strcmp` orders two paths as
their times. -/
theorem timeToPath_faithful {dir : List Char} (hdir : ¬ ".racs/seg".toList <:+: dir) {t u : Int64}
    (ht : ClockTime t) (hu : ClockTime u) :
    (∀ tmp, timeFromPath (timeToPath dir t tmp) = some t) ∧
      (pathCmp (timeToPath dir t false) (timeToPath dir u false)).sign =
        (t.toInt - u.toInt).sign := by
  refine ⟨fun tmp => timeFromPath_timeToPath hdir ht, ?_⟩
  rw [pathCmp]
  rcases Int.lt_trichotomy t.toInt u.toInt with h | h | h
  · have hlt := timeToPath_lt dir ht hu (Int64.lt_iff_toInt_lt.mpr h)
    rw [Int.sign_eq_neg_one_of_neg (strcmp_of_lt hlt).1, Int.sign_eq_neg_one_of_neg (by omega)]
  · rw [Int64.toInt_inj.mp h, strcmp_self, sub_self]
  · have hlt := timeToPath_lt dir hu ht (Int64.lt_iff_toInt_lt.mpr h)
    rw [Int.sign_eq_one_of_pos (strcmp_of_lt hlt).2, Int.sign_eq_one_of_pos (by omega)]

/-- The first and the last time of a clock. -/
theorem timeToPath_faithful_ends :
    (pathCmp (timeToPath "d".toList 0 false) (timeToPath "d".toList 253402300799999 false)).sign =
      (Int64.toInt 0 - Int64.toInt 253402300799999).sign :=
  (timeToPath_faithful (by decide) ⟨by decide, by decide⟩ ⟨by decide, by decide⟩).2

end Racs
