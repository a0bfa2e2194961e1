import Mathlib.Algebra.Ring.Nat
import Mathlib.Data.Char
import Mathlib.Data.List.Lex
import Mathlib.Data.List.TakeWhile
import Mathlib.Data.Int.Order.Basic

/-!
# Decimal numbers with a field width

`printInt w z` is what a format directive such as `%03d` writes: the decimal digits of `z`, padded
with zeros to the width `w`, the sign first. `scanInt w` is what a directive such as `%3d` reads:
white space, then at most `w` characters of a number. Both work on lists of characters.

## Main results

* `Decimal.printInt_injective` — the text determines the number.
* `Decimal.scanInt_printNat` — a number that fills its field is read back.
* `Decimal.scanFields_cons`, `Decimal.scanFields_last` — numbers with separators between them.
* `Decimal.printNat_lt_printNat` — texts of one width are ordered as the numbers.
-/

namespace Decimal

/-! ### Printing -/

/-- The digits of `n`, padded with zeros to the width `w`. -/
def printNat (w n : ℕ) : List Char :=
  List.replicate (w - (Nat.toDigits 10 n).length) '0' ++ Nat.toDigits 10 n

/-- The number `z` in a field of width `w`, padded with zeros. -/
def printInt (w : ℕ) (z : ℤ) : List Char :=
  if z < 0 then '-' :: printNat (w - 1) z.natAbs else printNat w z.natAbs

/-- The characters of a printed natural number are digits. -/
theorem isDigit_of_mem_printNat {w n : ℕ} {c : Char} (h : c ∈ printNat w n) : c.isDigit = true := by
  rcases List.mem_append.mp h with h | h
  · rw [List.eq_of_mem_replicate h]
    rfl
  · exact Nat.isDigit_of_mem_toDigits (by decide) (by decide) h

theorem printNat_of_nonneg {w : ℕ} {z : ℤ} (h : 0 ≤ z) : printInt w z = printNat w z.natAbs :=
  if_neg (not_lt.mpr h)

theorem not_mem_printInt {w : ℕ} {z : ℤ} {c : Char} (hdigit : c.isDigit = false) (hc : c ≠ '-') :
    c ∉ printInt w z := by
  have hnat : ∀ w n, c ∉ printNat w n := by
    intro w n h
    rw [isDigit_of_mem_printNat h] at hdigit
    cases hdigit
  unfold printInt
  split_ifs
  · exact List.not_mem_cons_of_ne_of_not_mem hc (hnat _ _)
  · exact hnat _ _

theorem ofDigitChars_printNat (w n : ℕ) : Nat.ofDigitChars 10 (printNat w n) 0 = n := by
  rw [printNat, Nat.ofDigitChars_append, Nat.ofDigitChars_replicate_zero, Nat.mul_zero,
    Nat.ofDigitChars_ten_toDigits]

theorem printNat_injective (w : ℕ) : Function.Injective (printNat w) := by
  intro m n h
  rw [← ofDigitChars_printNat w m, h, ofDigitChars_printNat]

/-- **The text of a number in a field of a given width determines the number.** -/
theorem printInt_injective (w : ℕ) : Function.Injective (printInt w) := by
  have hminus : ∀ w n, '-' ∉ printNat w n := fun w n h => by
    cases isDigit_of_mem_printNat h
  intro y z h
  by_cases hy : y < 0 <;> by_cases hz : z < 0
  · simp only [printInt, if_pos hy, if_pos hz, List.cons.injEq, true_and] at h
    have habs := printNat_injective _ h
    omega
  · simp only [printInt, if_pos hy, if_neg hz] at h
    exact absurd (h ▸ List.mem_cons_self) (hminus w z.natAbs)
  · simp only [printInt, if_neg hy, if_pos hz] at h
    exact absurd (h ▸ List.mem_cons_self) (hminus w y.natAbs)
  · simp only [printInt, if_neg hy, if_neg hz] at h
    have habs := printNat_injective _ h
    omega

/-- A number below `10 ^ w` fills its field exactly. -/
theorem length_printNat {w n : ℕ} (hw : 0 < w) (h : n < 10 ^ w) : (printNat w n).length = w := by
  have hle := (Nat.length_toDigits_le_iff (by decide) hw).mpr h
  rw [printNat, List.length_append, List.length_replicate]
  omega

/-- A number that needs all of the field is printed the same way without a width. -/
theorem printNat_one {w n : ℕ} (hw : 0 < w) (hlow : 10 ^ w ≤ n) :
    printNat 1 n = printNat (w + 1) n := by
  have hlen : ¬ (Nat.toDigits 10 n).length ≤ w := by
    rw [Nat.length_toDigits_le_iff (by decide) hw]
    omega
  rw [printNat, printNat, Nat.sub_eq_zero_of_le (by omega), Nat.sub_eq_zero_of_le (by omega)]

/-! ### Reading -/

/-- The digits at the front of the text, at most `w` of them. -/
def spanDigits (w : ℕ) (cs : List Char) : List Char := (cs.take w).takeWhile Char.isDigit

/-- At most `w` characters of an unsigned number, with the rest of the text. -/
def scanNat (w : ℕ) (cs : List Char) : Option (ℕ × List Char) :=
  let ds := spanDigits w cs
  if ds = [] then none else some (Nat.ofDigitChars 10 ds 0, cs.drop ds.length)

/-- At most `w` characters of a number behind white space, with the rest of the text. The sign
counts as a character of the field. -/
def scanInt (w : ℕ) (cs : List Char) : Option (ℤ × List Char) :=
  match cs.dropWhile Char.isWhitespace with
  | [] => none
  | c :: cs =>
    if c = '-' then (scanNat (w - 1) cs).map fun (n, cs) => (-(n : ℤ), cs)
    else if c = '+' then (scanNat (w - 1) cs).map fun (n, cs) => ((n : ℤ), cs)
    else (scanNat w (c :: cs)).map fun (n, cs) => ((n : ℤ), cs)

theorem scanNat_printNat {w n : ℕ} (hw : 0 < w) (h : n < 10 ^ w) (rest : List Char) :
    scanNat w (printNat w n ++ rest) = some (n, rest) := by
  have hlen := length_printNat hw h
  have hspan : spanDigits w (printNat w n ++ rest) = printNat w n := by
    rw [spanDigits, List.take_left' hlen, List.takeWhile_eq_self_iff]
    exact fun c hc => isDigit_of_mem_printNat hc
  have hne : printNat w n ≠ [] := by
    intro hnil
    rw [hnil, List.length_nil] at hlen
    omega
  rw [scanNat, hspan, if_neg hne, ofDigitChars_printNat, List.drop_left]

/-- A digit is neither white space nor a sign. -/
theorem ne_sign_of_isDigit {c : Char} (h : c.isDigit = true) :
    c.isWhitespace = false ∧ c ≠ '-' ∧ c ≠ '+' := by
  refine ⟨?_, ?_, ?_⟩
  · by_contra hwhite
    simp only [Bool.not_eq_false, Char.isWhitespace, Bool.or_eq_true,
      decide_eq_true_eq] at hwhite
    rcases hwhite with ((rfl | rfl) | rfl) | rfl <;> cases h
  · rintro rfl
    cases h
  · rintro rfl
    cases h

/-- **A number that fills its field is read back**, whatever follows it. -/
theorem scanInt_printNat {w n : ℕ} (hw : 0 < w) (h : n < 10 ^ w) (rest : List Char) :
    scanInt w (printNat w n ++ rest) = some ((n : ℤ), rest) := by
  have hscan := scanNat_printNat hw h rest
  rcases hprint : printNat w n with - | ⟨c, cs⟩
  · have hlen := length_printNat hw h
    rw [hprint, List.length_nil] at hlen
    omega
  · have hdigit : c.isDigit = true :=
      isDigit_of_mem_printNat (hprint ▸ List.mem_cons_self : c ∈ printNat w n)
    obtain ⟨hwhite, hminus, hplus⟩ := ne_sign_of_isDigit hdigit
    rw [hprint, List.cons_append] at hscan
    rw [List.cons_append, scanInt, List.dropWhile_cons_of_neg (by simp [hwhite])]
    dsimp only
    rw [if_neg hminus, if_neg hplus, hscan, Option.map_some]

/-- A number that is printed without padding is read back. -/
theorem scanInt_printNat_one (n : ℕ) :
    scanInt (printNat 1 n).length (printNat 1 n) = some ((n : ℤ), []) := by
  have hpos : 0 < (Nat.toDigits 10 n).length := Nat.length_toDigits_pos
  have hprint : printNat 1 n = printNat (Nat.toDigits 10 n).length n := by
    rw [printNat, printNat, Nat.sub_self, Nat.sub_eq_zero_of_le hpos]
  have hlt : n < 10 ^ (Nat.toDigits 10 n).length :=
    (Nat.length_toDigits_le_iff (by decide) hpos).mp le_rfl
  have hscan := scanInt_printNat hpos hlt []
  rw [List.append_nil] at hscan
  rw [hprint, length_printNat hpos hlt, hscan]

/-- Digits that end before the field does are read as a whole. -/
theorem scanNat_digits {w : ℕ} {ds rest : List Char} (hds : ∀ c ∈ ds, c.isDigit = true)
    (hne : ds ≠ []) (hw : ds.length ≤ w) (hrest : ∀ c ∈ rest.head?, c.isDigit = false) :
    scanNat w (ds ++ rest) = some (Nat.ofDigitChars 10 ds 0, rest) := by
  have hstop : (rest.take (w - ds.length)).takeWhile Char.isDigit = [] := by
    rcases rest with - | ⟨c, rest⟩
    · rw [List.take_nil, List.takeWhile_nil]
    · cases w - ds.length with
      | zero => rw [List.take_zero, List.takeWhile_nil]
      | succ n =>
        rw [List.take_succ_cons, List.takeWhile_cons_of_neg]
        simp [hrest c rfl]
  have hspan : spanDigits w (ds ++ rest) = ds := by
    rw [spanDigits, List.take_append, List.take_of_length_le hw,
      List.takeWhile_append_of_pos hds, hstop, List.append_nil]
  rw [scanNat, hspan, if_neg hne, List.drop_left]

/-- A text that starts with a digit is read as a number without a sign. -/
theorem scanInt_of_isDigit {w : ℕ} {c : Char} (h : c.isDigit = true) (cs : List Char) :
    scanInt w (c :: cs) = (scanNat w (c :: cs)).map fun (n, cs) => ((n : ℤ), cs) := by
  obtain ⟨hwhite, hminus, hplus⟩ := ne_sign_of_isDigit h
  rw [scanInt, List.dropWhile_cons_of_neg (by simp [hwhite])]
  dsimp only
  rw [if_neg hminus, if_neg hplus]

theorem scanInt_digits {w : ℕ} {ds rest : List Char} (hds : ∀ c ∈ ds, c.isDigit = true)
    (hne : ds ≠ []) (hw : ds.length ≤ w) (hrest : ∀ c ∈ rest.head?, c.isDigit = false) :
    scanInt w (ds ++ rest) = some (((Nat.ofDigitChars 10 ds 0 : ℕ) : ℤ), rest) := by
  have hscan := scanNat_digits hds hne hw hrest
  obtain ⟨c, cs, rfl⟩ := List.exists_cons_of_ne_nil hne
  rw [List.cons_append] at hscan ⊢
  rw [scanInt_of_isDigit (hds c List.mem_cons_self), hscan, Option.map_some]

/-- The numbers that a format such as `%d-%d:%d` reads, with the characters between them, until one
of them is missing. -/
def scanFields : List Char → List Char → List ℤ
  | [], cs => ((scanInt cs.length cs).map Prod.fst).toList
  | sep :: seps, cs =>
    match scanInt cs.length cs with
    | none => []
    | some (z, rest) => z :: if rest.head? = some sep then scanFields seps rest.tail else []

/-- A field with the separator behind it. -/
theorem scanFields_cons {sep : Char} (hsep : sep.isDigit = false) (seps : List Char) {w n : ℕ}
    (hw : 0 < w) (h : n < 10 ^ w) (rest : List Char) :
    scanFields (sep :: seps) (printNat w n ++ sep :: rest) = (n : ℤ) :: scanFields seps rest := by
  have hlen := length_printNat hw h
  have hne : printNat w n ≠ [] := List.ne_nil_of_length_pos (by omega)
  have hscan := @scanInt_digits (printNat w n ++ sep :: rest).length _ (sep :: rest)
    (fun c hc => isDigit_of_mem_printNat hc) hne (by rw [List.length_append]; omega)
    (fun c hc => Option.some.inj hc ▸ hsep)
  rw [scanFields, hscan, ofDigitChars_printNat]
  dsimp only
  rw [List.head?_cons, if_pos rfl, List.tail_cons]

/-- The last field, in front of another character than the separator. -/
theorem scanFields_last {seps : List Char} {w n : ℕ} (hw : 0 < w) (h : n < 10 ^ w)
    {rest : List Char} (hdigit : ∀ c ∈ rest.head?, c.isDigit = false)
    (hsep : ∀ sep ∈ seps.head?, rest.head? ≠ some sep) :
    scanFields seps (printNat w n ++ rest) = [(n : ℤ)] := by
  have hlen := length_printNat hw h
  have hne : printNat w n ≠ [] := List.ne_nil_of_length_pos (by omega)
  have hscan := @scanInt_digits (printNat w n ++ rest).length _ rest
    (fun c hc => isDigit_of_mem_printNat hc) hne (by rw [List.length_append]; omega) hdigit
  cases seps with
  | nil => rw [scanFields, hscan, ofDigitChars_printNat, Option.map_some, Option.toList_some]
  | cons sep seps =>
    rw [scanFields, hscan, ofDigitChars_printNat]
    dsimp only
    rw [if_neg (hsep sep rfl)]

/-! ### The order of texts -/

/-- The value of a digit. -/
theorem toNat_sub_lt_of_isDigit {c : Char} (h : c.isDigit = true) :
    '0'.toNat ≤ c.toNat ∧ c.toNat - '0'.toNat < 10 := by
  obtain ⟨hlow, hhigh⟩ := Char.isDigit_iff_toNat.mp h
  have h0 : '0'.toNat = 48 := rfl
  have h9 : '9'.toNat = 57 := rfl
  omega

theorem ofDigitChars_lt {cs : List Char} (h : ∀ c ∈ cs, c.isDigit = true) :
    Nat.ofDigitChars 10 cs 0 < 10 ^ cs.length := by
  induction cs with
  | nil => exact Nat.one_pos
  | cons c cs ih =>
    have hc := (toNat_sub_lt_of_isDigit (h c List.mem_cons_self)).2
    have hcs := ih fun c' hc' => h c' (List.mem_cons_of_mem _ hc')
    have hmul := Nat.mul_le_mul_left (10 ^ cs.length) (Nat.le_of_lt_succ hc)
    rw [Nat.ofDigitChars_cons, Nat.ofDigitChars_eq_ofDigitChars_zero, List.length_cons,
      Nat.pow_succ, Nat.mul_zero, Nat.zero_add]
    omega

/-- Among digit strings of one length, one that is smaller as a text is a smaller number. -/
theorem ofDigitChars_lt_of_lt {cs ds : List Char} (hcs : ∀ c ∈ cs, c.isDigit = true)
    (hds : ∀ c ∈ ds, c.isDigit = true) (hlen : cs.length = ds.length) (h : cs < ds) :
    Nat.ofDigitChars 10 cs 0 < Nat.ofDigitChars 10 ds 0 := by
  induction cs generalizing ds with
  | nil =>
    cases ds with
    | nil => exact absurd h (lt_irrefl _)
    | cons d ds => cases hlen
  | cons c cs ih =>
    cases ds with
    | nil => cases hlen
    | cons d ds =>
      have hlen' : cs.length = ds.length := Nat.succ_inj.mp hlen
      have hcs' : ∀ c' ∈ cs, c'.isDigit = true := fun c' hc' => hcs c' (List.mem_cons_of_mem _ hc')
      have hds' : ∀ d' ∈ ds, d'.isDigit = true := fun d' hd' => hds d' (List.mem_cons_of_mem _ hd')
      rw [Nat.ofDigitChars_cons, Nat.ofDigitChars_cons, Nat.ofDigitChars_eq_ofDigitChars_zero,
        @Nat.ofDigitChars_eq_ofDigitChars_zero ds]
      rcases List.cons_lt_cons_iff.mp h with hlt | ⟨rfl, hlt⟩
      · -- the first digits differ: the rest cannot make up for one unit of that digit
        have hc := toNat_sub_lt_of_isDigit (hcs c List.mem_cons_self)
        have hval : c.toNat < d.toNat := hlt
        have hrest := ofDigitChars_lt hcs'
        rw [hlen'] at hrest ⊢
        have hstep : c.toNat - '0'.toNat + 1 ≤ d.toNat - '0'.toNat := by omega
        have := Nat.mul_le_mul_left (10 ^ ds.length) hstep
        simp only [Nat.mul_zero, Nat.zero_add]
        rw [Nat.mul_add, Nat.mul_one] at this
        omega
      · rw [hlen']
        exact Nat.add_lt_add_left (ih hcs' hds' hlen' hlt) _

/-- Digits of one width are those of a number. -/
theorem exists_printNat {w : ℕ} (hw : 0 < w) {ds : List Char} (hds : ∀ c ∈ ds, c.isDigit = true)
    (hlen : ds.length = w) : ∃ n < 10 ^ w, ds = printNat w n := by
  have hlt := ofDigitChars_lt hds
  rw [hlen] at hlt
  have hprint : ∀ c ∈ printNat w (Nat.ofDigitChars 10 ds 0), c.isDigit = true :=
    fun c hc => isDigit_of_mem_printNat hc
  have hwidth : (printNat w (Nat.ofDigitChars 10 ds 0)).length = w := length_printNat hw hlt
  refine ⟨Nat.ofDigitChars 10 ds 0, hlt, ?_⟩
  -- two digit strings of one length with one value are the same
  rcases lt_trichotomy ds (printNat w (Nat.ofDigitChars 10 ds 0)) with h | h | h
  · have := ofDigitChars_lt_of_lt hds hprint (hlen.trans hwidth.symm) h
    rw [ofDigitChars_printNat] at this
    exact absurd this (lt_irrefl _)
  · exact h
  · have := ofDigitChars_lt_of_lt hprint hds (hwidth.trans hlen.symm) h
    rw [ofDigitChars_printNat] at this
    exact absurd this (lt_irrefl _)

/-- **Texts of one width are ordered as the numbers.** -/
theorem printNat_lt_printNat {w m n : ℕ} (hw : 0 < w) (hm : m < 10 ^ w) (hn : n < 10 ^ w) :
    printNat w m < printNat w n ↔ m < n := by
  have hmono : ∀ {a b : ℕ}, a < 10 ^ w → b < 10 ^ w → printNat w a < printNat w b → a < b := by
    intro a b ha hb h
    have := ofDigitChars_lt_of_lt (fun c hc => isDigit_of_mem_printNat hc)
      (fun c hc => isDigit_of_mem_printNat hc)
      ((length_printNat hw ha).trans (length_printNat hw hb).symm) h
    rwa [ofDigitChars_printNat, ofDigitChars_printNat] at this
  refine ⟨hmono hm hn, fun hlt => ?_⟩
  rcases lt_trichotomy (printNat w m) (printNat w n) with h | h | h
  · exact h
  · exact absurd (printNat_injective w h) hlt.ne
  · exact absurd (hmono hn hm h) hlt.asymm

end Decimal
