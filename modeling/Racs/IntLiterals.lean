import Racs.Foundation.Regex
import Racs.Platform

/-!
# Integer literals

An integer literal of a command line is a sequence of digits with or without a sign, of any length
(`RACS_REGEX_INT`, `parser.h`). Its token holds what `strtoull` returns, as a signed number of 64
bits.

A text is the list of its characters, one for each byte.

## Main definitions

* `Racs.Numeral` — a sequence of digits.
* `Racs.regexInt`, `Racs.IntLiteral`, `Racs.IntLiteral.value` — a literal, and the number that it
  denotes.

## Main results

* `Racs.mem_regexInt` — the texts that the expression matches.
* `Racs.strtoull_text` — what is read from a literal.
-/

namespace Racs

open Decimal Regex

/-- The bracket expression `[0-9]`. -/
def digits : List Char := "0123456789".toList

/-- The bracket expression `[+-]`. -/
def signs : List Char := "+-".toList

/-- `RACS_REGEX_INT`. -/
def regexInt : Pattern Char where
  anchored := true
  body := opt (oneOf signs) * plus (oneOf digits)

/-- A sequence of digits, of which there is at least one. -/
structure Numeral where
  digits : ℕ
  pos : 0 < digits
  value : Fin (10 ^ digits)

/-- The text of a sequence of digits. -/
def Numeral.text (n : Numeral) : List Char := printNat n.digits n.value

/-- An integer literal: a sign, which is true for a minus, and its digits. -/
structure IntLiteral where
  sign : Option Bool
  numeral : Numeral

namespace IntLiteral

/-- The text of a literal. -/
def text (lit : IntLiteral) : List Char :=
  match lit.sign with
  | none => lit.numeral.text
  | some true => '-' :: lit.numeral.text
  | some false => '+' :: lit.numeral.text

/-- The number that a literal denotes. -/
def value (lit : IntLiteral) : ℤ :=
  if lit.sign = some true then -(lit.numeral.value : ℕ) else (lit.numeral.value : ℕ)

end IntLiteral

/-! ### The texts that match -/

theorem mem_digits {c : Char} : c ∈ digits ↔ c.isDigit = true := by
  constructor
  · intro h
    have hall : ∀ c ∈ digits, c.isDigit = true := List.all_eq_true.mp (by decide)
    exact hall c h
  · intro h
    obtain ⟨hlow, hhigh⟩ := Char.isDigit_iff_toNat.mp h
    have h0 : '0'.toNat = 48 := rfl
    have h9 : '9'.toNat = 57 := rfl
    rw [← Char.ofNat_toNat c]
    have hall : ∀ n < 58, 48 ≤ n → Char.ofNat n ∈ digits := by decide
    exact hall c.toNat (by omega) (by omega)

theorem mem_numeral {w : ℕ} (hw : 0 < w) {s : List Char} :
    s ∈ (oneOf digits ^ w).matches' ↔ ∃ n : Fin (10 ^ w), printNat w n = s := by
  rw [mem_pow_oneOf]
  constructor
  · rintro ⟨hlen, hs⟩
    obtain ⟨n, hn, rfl⟩ := exists_printNat hw (fun c hc => mem_digits.mp (hs c hc)) hlen
    exact ⟨⟨n, hn⟩, rfl⟩
  · rintro ⟨n, rfl⟩
    exact ⟨length_printNat hw n.isLt, fun c hc => mem_digits.mpr (isDigit_of_mem_printNat hc)⟩

theorem Numeral.length_text (n : Numeral) : n.text.length = n.digits :=
  length_printNat n.pos n.value.isLt

theorem Numeral.text_ne_nil (n : Numeral) : n.text ≠ [] :=
  List.ne_nil_of_length_pos (by rw [n.length_text]; exact n.pos)

theorem mem_plus_digits {s : List Char} :
    s ∈ (plus (oneOf digits)).matches' ↔ ∃ n : Numeral, n.text = s := by
  rw [mem_plus_oneOf]
  constructor
  · rintro ⟨hne, hs⟩
    have hpos := List.length_pos_iff.mpr hne
    obtain ⟨n, hn, heq⟩ := exists_printNat hpos (fun c hc => mem_digits.mp (hs c hc)) rfl
    exact ⟨⟨s.length, hpos, ⟨n, hn⟩⟩, heq.symm⟩
  · rintro ⟨n, rfl⟩
    exact ⟨n.text_ne_nil, fun c hc => mem_digits.mpr (isDigit_of_mem_printNat hc)⟩

/-- **The expression matches the texts of literals.** -/
theorem mem_regexInt {s : List Char} :
    s ∈ regexInt.body.matches' ↔ ∃ lit : IntLiteral, lit.text = s := by
  rw [regexInt, RegularExpression.matches'_mul, Language.mem_mul]
  constructor
  · rintro ⟨a, ha, b, hb, rfl⟩
    obtain ⟨n, rfl⟩ := mem_plus_digits.mp hb
    rcases mem_opt.mp ha with rfl | ha
    · exact ⟨⟨none, n⟩, rfl⟩
    · obtain ⟨c, hc, rfl⟩ := mem_oneOf.mp ha
      rcases List.mem_pair.mp hc with rfl | rfl
      · exact ⟨⟨some false, n⟩, rfl⟩
      · exact ⟨⟨some true, n⟩, rfl⟩
  · rintro ⟨⟨- | - | -, n⟩, rfl⟩
    · exact ⟨[], mem_opt.mpr (.inl rfl), _, mem_plus_digits.mpr ⟨n, rfl⟩, rfl⟩
    · exact ⟨['+'], mem_opt.mpr (.inr (mem_oneOf.mpr ⟨'+', by decide, rfl⟩)), _,
        mem_plus_digits.mpr ⟨n, rfl⟩, rfl⟩
    · exact ⟨['-'], mem_opt.mpr (.inr (mem_oneOf.mpr ⟨'-', by decide, rfl⟩)), _,
        mem_plus_digits.mpr ⟨n, rfl⟩, rfl⟩

/-! ### What is read -/

/-- A literal is read to its end. -/
theorem scanInt_text (lit : IntLiteral) :
    scanInt lit.text.length lit.text = some (lit.value, []) := by
  obtain ⟨sign, n⟩ := lit
  have hdigit : ∀ c ∈ n.text, c.isDigit = true := fun c hc => isDigit_of_mem_printNat hc
  have hnat : ∀ w, n.text.length ≤ w → scanNat w n.text = some ((n.value : ℕ), []) := by
    intro w hw
    have hscan := @scanNat_digits w n.text [] hdigit n.text_ne_nil hw fun c hc => by cases hc
    rwa [List.append_nil, Numeral.text, ofDigitChars_printNat] at hscan
  rcases sign with - | - | -
  · have hscan := @scanInt_digits n.text.length n.text [] hdigit n.text_ne_nil le_rfl
      fun c hc => by cases hc
    rwa [List.append_nil, Numeral.text, ofDigitChars_printNat] at hscan
  · rw [IntLiteral.text, scanInt, List.dropWhile_cons_of_neg (by decide)]
    dsimp only
    rw [if_neg (by decide), if_pos rfl, hnat _ (by rw [List.length_cons]; omega)]
    rfl
  · rw [IntLiteral.text, scanInt, List.dropWhile_cons_of_neg (by decide)]
    dsimp only
    rw [if_pos rfl, hnat _ (by rw [List.length_cons]; omega)]
    rfl

/-- **What is read from a literal**: a number that does not fit becomes the largest one, and a
negative one is negated in 64 bits. -/
theorem strtoull_text (lit : IntLiteral) :
    strtoull lit.text = some (if 2 ^ 64 ≤ lit.value.natAbs then UInt64.ofNat (2 ^ 64 - 1)
      else UInt64.ofInt lit.value) := by
  rw [strtoull, scanInt_text]

end Racs
