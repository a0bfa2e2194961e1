import Racs.Scm

/-!
# Quotes in expressions

An expression in quotes can have quotes of its own with a backslash in front of them.
`racs_unescape_single_quotes` (`scm.c`) overwrites these backslashes in the string. The index of its
loop is an `int` and the bound `n - 1` is computed without sign, so that the loop does not stop in
the empty string, and not before the index overflows in one of more than 2^31 characters.

## Main definitions

* `Racs.CString` — a string with a terminator in memory.
* `Racs.unescapeLoop`, `Racs.racsUnescapeSingleQuotes` — the loop on this memory.
* `Racs.Unescapes` — the backslashes in front of quotes are overwritten, and nothing else.

## Main results

* `Racs.racsUnescapeSingleQuotes_eq` — what the loop leaves in memory.
* `Racs.unescapes_iff` — the strings for which the function does what it should.
-/

namespace Racs

/-- The characters in front of the terminator of a string, which are in memory together with it. -/
structure CString where
  chars : List UInt8
  zero_notMem : 0 ∉ chars
  length_lt : chars.length + 1 < 2 ^ 64

/-- The memory of a string. -/
def CString.memory (s : CString) : List UInt8 := s.chars ++ [0]

/-- The body of the loop of `racs_unescape_single_quotes`; undefined outside of the memory. -/
def unescapeBody (s : List UInt8) (i : ℕ) : Option (List UInt8) :=
  s[i]?.bind fun c =>
  if c = 0x5c then s[i + 1]?.map fun d => if d = 0x27 then s.set i 0x20 else s
  else some s

/-- The loop, which is undefined when its index overflows. -/
def unescapeLoop (bound : UInt64) (s : List UInt8) (i : ℕ) : Option (List UInt8) :=
  if i < bound.toNat then
    (unescapeBody s i).bind fun s =>
    if i + 1 < 2 ^ 31 then unescapeLoop bound s (i + 1) else none
  else some s
termination_by 2 ^ 31 - i

/-- `racs_unescape_single_quotes`, with what it leaves in the memory of the string. -/
def racsUnescapeSingleQuotes (s : CString) : Option (List UInt8) :=
  let n := UInt64.ofNat s.chars.length
  unescapeLoop (n - 1) s.memory 0

/-- The function ends, stays inside of the string, and overwrites each backslash in front of a quote
with a space; all other characters and the length are as before. -/
def Unescapes (s : CString) : Prop :=
  ∃ chars : List UInt8, racsUnescapeSingleQuotes s = some (chars ++ [0]) ∧
    chars.length = s.chars.length ∧
    ∀ i : ℕ, chars[i]? =
      if s.chars[i]? = some 0x5c ∧ s.chars[i + 1]? = some 0x27 then some 0x20 else s.chars[i]?

/-! ### The characters -/

@[simp] theorem length_unescapeQuotes (s : List UInt8) :
    (unescapeQuotes s).length = s.length := by
  induction s with
  | nil => rfl
  | cons c s ih => rw [unescapeQuotes, List.length_cons, List.length_cons, ih]

/-- Each character depends on itself and on the one behind it. -/
theorem getElem?_unescapeQuotes (s : List UInt8) (i : ℕ) :
    (unescapeQuotes s)[i]? =
      if s[i]? = some 0x5c ∧ s[i + 1]? = some 0x27 then some 0x20 else s[i]? := by
  induction s generalizing i with
  | nil => simp [unescapeQuotes]
  | cons c s ih =>
    cases i with
    | zero =>
      simp only [unescapeQuotes, List.getElem?_cons_zero, Option.some.injEq,
        List.getElem?_cons_succ, List.head?_eq_getElem?]
      split_ifs <;> rfl
    | succ i => simp only [unescapeQuotes, List.getElem?_cons_succ, ih]

/-! ### The loop -/

variable {bound : UInt64} {i : ℕ}

/-- **When the bound is out of reach** the loop leaves the string or its index overflows. -/
theorem unescapeLoop_eq_none (hbound : 2 ^ 31 ≤ bound.toNat) (s : List UInt8) (hi : i < 2 ^ 31) :
    unescapeLoop bound s i = none := by
  obtain ⟨k, hk⟩ : ∃ k, i + k + 1 = 2 ^ 31 := ⟨2 ^ 31 - i - 1, by omega⟩
  induction k generalizing i s with
  | zero =>
    rw [unescapeLoop, if_pos (by omega), Option.bind_eq_none_iff]
    intro s' _
    rw [if_neg (by omega)]
  | succ k ih =>
    rw [unescapeLoop, if_pos (by omega), Option.bind_eq_none_iff]
    intro s' _
    rw [if_pos (by omega)]
    exact ih s' (by omega) (by omega)

/-- The body at a character that is not the last one. -/
theorem unescapeBody_append (pre rest : List UInt8) (c d : UInt8) :
    unescapeBody (pre ++ c :: d :: rest) pre.length =
      some (pre ++ (if c = 0x5c ∧ d = 0x27 then 0x20 else c) :: d :: rest) := by
  have hfirst : (pre ++ c :: d :: rest)[pre.length]? = some c := by simp
  have hsecond : (pre ++ c :: d :: rest)[pre.length + 1]? = some d := by simp
  rw [unescapeBody, hfirst, Option.bind_some, hsecond, Option.map_some]
  by_cases hc : c = 0x5c
  · rw [if_pos hc]
    by_cases hd : d = 0x27
    · rw [if_pos hd, if_pos ⟨hc, hd⟩]
      simp
    · rw [if_neg hd, if_neg fun h => hd h.2]
  · rw [if_neg hc, if_neg fun h => hc h.1]

/-- **A run of the loop** behind the characters `pre`, which are final. -/
theorem unescapeLoop_append (pre rest : List UInt8) (hne : rest ≠ [])
    (hbound : bound.toNat = pre.length + rest.length - 1)
    (hlen : pre.length + rest.length ≤ 2 ^ 31) :
    unescapeLoop bound (pre ++ rest ++ [0]) pre.length =
      some (pre ++ unescapeQuotes rest ++ [0]) := by
  induction rest generalizing pre with
  | nil => exact absurd rfl hne
  | cons c rest ih =>
    rw [List.length_cons] at hbound hlen
    rcases rest with - | ⟨d, rest⟩
    · -- the last character is behind the bound
      rw [List.length_nil] at hbound
      rw [unescapeLoop, if_neg (by omega)]
      simp [unescapeQuotes]
    · set c' : UInt8 := if c = 0x5c ∧ d = 0x27 then 0x20 else c with hc'
      have hnext := ih (pre ++ [c']) (List.cons_ne_nil d rest)
        (by rw [List.length_append, List.length_singleton]; omega)
        (by rw [List.length_append, List.length_singleton]; omega)
      simp only [List.length_append, List.length_singleton, List.append_assoc,
        List.singleton_append] at hnext
      have hbody := unescapeBody_append pre (rest ++ [0]) c d
      rw [List.length_cons] at hbound hlen
      rw [List.append_assoc, List.cons_append, List.cons_append, unescapeLoop, if_pos (by omega),
        hbody, Option.bind_some, if_pos (by omega), ← hc']
      refine hnext.trans ?_
      simp [unescapeQuotes, hc']

/-- **What the loop leaves in memory** of a string that it does not leave. -/
theorem racsUnescapeSingleQuotes_eq {s : CString} (hne : s.chars ≠ [])
    (hlen : s.chars.length ≤ 2 ^ 31) :
    racsUnescapeSingleQuotes s = (unescapeSingleQuotes s.chars).map (· ++ [0]) := by
  have hpos := List.length_pos_iff.mpr hne
  have hbound : (UInt64.ofNat s.chars.length - 1).toNat = s.chars.length - 1 := by
    rw [UInt64.toNat_sub, UInt64.toNat_ofNat', UInt64.toNat_one]
    omega
  have hloop := unescapeLoop_append [] s.chars hne (by rw [hbound]; simp) (by simpa using hlen)
  rw [unescapeSingleQuotes, if_neg hne]
  exact hloop

/-- **For which strings the function does what it should**: those with at least one character, and
with at most 2^31. -/
theorem unescapes_iff (s : CString) :
    Unescapes s ↔ s.chars ≠ [] ∧ s.chars.length ≤ 2 ^ 31 := by
  constructor
  · rintro ⟨chars, hrun, -⟩
    by_contra hlen
    have hlt := s.length_lt
    have hbound : 2 ^ 31 ≤ (UInt64.ofNat s.chars.length - 1).toNat := by
      rw [UInt64.toNat_sub, UInt64.toNat_ofNat', UInt64.toNat_one]
      rcases not_and_or.mp hlen with hnil | hlong
      · rw [not_not.mp hnil]
        decide
      · omega
    have hnone := unescapeLoop_eq_none hbound s.memory (i := 0) (by decide)
    rw [racsUnescapeSingleQuotes, hnone] at hrun
    cases hrun
  · rintro ⟨hne, hlen⟩
    refine ⟨unescapeQuotes s.chars, ?_, length_unescapeQuotes _, getElem?_unescapeQuotes _⟩
    rw [racsUnescapeSingleQuotes_eq hne hlen, unescapeSingleQuotes, if_neg hne]
    rfl

/-- The string of `EVAL ''`. -/
def emptyString : CString := ⟨[], fun h => List.not_mem_nil h, by decide⟩

/-- In the empty string the loop does not stop. -/
theorem not_unescapes_empty : ¬ Unescapes emptyString :=
  fun h => ((unescapes_iff emptyString).mp h).1 rfl

end Racs
