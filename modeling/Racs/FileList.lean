import Mathlib.Data.List.Sort
import Mathlib.Data.List.TakeWhile
import Mathlib.Data.Char
import Mathlib.Data.List.Lex

/-!
# Lists of files

`get_sorted_filelist` (`filelist.c`) collects the paths of the regular files below a directory, in
whatever order `readdir` returns them, and sorts them with `strcmp`. The characters of the paths
are compared as `strcmp` compares bytes.

## Main definitions

* `Racs.strcmp`, `Racs.pathCmp` — `racs_path_cmp`.
* `Racs.pathCmpLE`, `Racs.getSortedFilelist` — the order of `racs_path_cmp` and the sorted list.
* `Racs.basename`, `Racs.isTmpfile`, `Racs.resolveSharedPath`.

## Main results

* `Racs.getSortedFilelist_eq` — the list is the ascending one, whatever the order of `readdir`.
-/

namespace Racs

/-- `strcmp`: zero for equal texts, and otherwise a number whose sign is that of the difference at
the first place where they differ. -/
def strcmp : List Char → List Char → ℤ
  | [], [] => 0
  | [], _ :: _ => -1
  | _ :: _, [] => 1
  | a :: as, b :: bs => if a = b then strcmp as bs else (a.toNat : ℤ) - b.toNat

/-- `racs_path_cmp`. -/
def pathCmp (path1 path2 : List Char) : ℤ := strcmp path1 path2

/-- `racs_path_cmp` does not order `path2` before `path1`. -/
def pathCmpLE (path1 path2 : List Char) : Bool := decide (path1 ≤ path2)

/-- `get_sorted_filelist`, on the paths that `racs_list_files_recursive` collects. -/
def getSortedFilelist (paths : List (List Char)) : List (List Char) := paths.mergeSort pathCmpLE

/-- `basename`, for a path that does not end in a slash. -/
def basename (path : List Char) : List Char := (path.reverse.takeWhile (· ≠ '/')).reverse

/-- `racs_is_tmpfile`: the path ends in `.tmp`, from its last dot on. -/
def isTmpfile (path : List Char) : Bool :=
  '.' ∈ path ∧ (path.reverse.takeWhile (· ≠ '.')).reverse = "tmp".toList

/-- The characters that two texts begin with. -/
def commonPrefix : List Char → List Char → List Char
  | a :: as, b :: bs => if a = b then a :: commonPrefix as bs else []
  | _, _ => []

/-- `racs_resolve_shared_path`: the common prefix up to its last slash, without the slash. -/
def resolveSharedPath (path1 path2 : List Char) : List Char :=
  (((commonPrefix path1 path2).reverse.dropWhile (· ≠ '/')).drop 1).reverse

theorem strcmp_self (a : List Char) : strcmp a a = 0 := by
  induction a with
  | nil => rfl
  | cons x a ih => rw [strcmp, if_pos rfl, ih]

/-- The smaller text comes first. -/
theorem strcmp_of_lt {a b : List Char} (h : a < b) : strcmp a b < 0 ∧ 0 < strcmp b a := by
  induction a generalizing b with
  | nil =>
    cases b with
    | nil => exact absurd h (lt_irrefl _)
    | cons y b => exact ⟨Int.negSucc_lt_zero 0, Int.one_pos⟩
  | cons x a ih =>
    cases b with
    | nil => cases h
    | cons y b =>
      rw [strcmp, strcmp]
      rcases List.cons_lt_cons_iff.mp h with hlt | ⟨rfl, hlt⟩
      · have hnat : x.toNat < y.toNat := hlt
        rw [if_neg hlt.ne, if_neg hlt.ne']
        omega
      · rw [if_pos rfl, if_pos rfl]
        exact ih hlt

/-- The order that the list is sorted by is that of `racs_path_cmp`. -/
theorem pathCmpLE_iff (path1 path2 : List Char) :
    pathCmpLE path1 path2 = true ↔ pathCmp path1 path2 ≤ 0 := by
  rw [pathCmpLE, decide_eq_true_eq, pathCmp]
  rcases lt_trichotomy path1 path2 with h | rfl | h
  · exact iff_of_true h.le (strcmp_of_lt h).1.le
  · exact iff_of_true le_rfl (strcmp_self path1).le
  · exact iff_of_false (not_le.mpr h) (not_le.mpr (strcmp_of_lt h).2)

theorem perm_getSortedFilelist (paths : List (List Char)) :
    (getSortedFilelist paths).Perm paths := List.mergeSort_perm ..

theorem pairwise_getSortedFilelist (paths : List (List Char)) :
    (getSortedFilelist paths).Pairwise (· ≤ ·) := by
  have hsorted : (getSortedFilelist paths).Pairwise fun a b => pathCmpLE a b = true := by
    refine List.pairwise_mergeSort (fun a b c hab hbc => ?_) (fun a b => ?_) paths
    · simp only [pathCmpLE, decide_eq_true_eq] at hab hbc ⊢
      exact le_trans hab hbc
    · simpa only [pathCmpLE, Bool.or_eq_true, decide_eq_true_eq] using le_total a b
  exact hsorted.imp fun h => by simpa only [pathCmpLE, decide_eq_true_eq] using h

/-- **The order of `readdir` does not matter.** The sorted list is the ascending list of the same
paths. -/
theorem getSortedFilelist_eq {paths sorted : List (List Char)} (hperm : paths.Perm sorted)
    (hsorted : sorted.Pairwise (· ≤ ·)) : getSortedFilelist paths = sorted :=
  ((perm_getSortedFilelist paths).trans hperm).eq_of_pairwise'
    (pairwise_getSortedFilelist paths) hsorted

/-- The last component of a path. -/
theorem basename_append (dir : List Char) {name : List Char} (h : '/' ∉ name) :
    basename (dir ++ '/' :: name) = name := by
  have htake : ∀ c ∈ name.reverse, decide (c ≠ '/') = true := by
    intro c hc
    rw [decide_eq_true_eq]
    rintro rfl
    exact h (List.mem_reverse.mp hc)
  rw [basename, List.reverse_append, List.reverse_cons, List.append_assoc,
    List.takeWhile_append_of_pos htake]
  simp

/-- Paths below one directory are ordered as what follows the directory. -/
theorem append_le_append_iff {dir a b : List Char} : dir ++ a ≤ dir ++ b ↔ a ≤ b := by
  rw [← not_lt, ← not_lt, not_iff_not]
  constructor
  · intro h
    by_contra hle
    rcases (not_lt.mp hle).lt_or_eq with hlt | rfl
    · exact absurd (List.append_left_lt hlt) h.asymm
    · exact lt_irrefl _ h
  · exact fun h => List.append_left_lt h

/-- Of two strings of one length, the first decides, whatever follows. -/
theorem append_lt_append_iff_of_length_eq {a b s : List Char} (hlen : a.length = b.length) :
    a ++ s < b ++ s ↔ a < b := by
  induction a generalizing b with
  | nil =>
    obtain rfl := List.length_eq_zero_iff.mp hlen.symm
    simp
  | cons x a ih =>
    cases b with
    | nil => cases hlen
    | cons y b =>
      rw [List.cons_append, List.cons_append, List.cons_lt_cons_iff, List.cons_lt_cons_iff,
        ih (Nat.succ_inj.mp hlen)]

example : pathCmpLE "w/a10".toList "w/a9".toList = true := by decide

end Racs
