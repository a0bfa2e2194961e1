import Mathlib.Computability.RegularExpressions

/-!
# Matching a regular expression against a text

A pattern is searched for in a text from left to right, and at the first place where it matches the
longest match is taken. An anchored pattern is tried at the front of the text only. The languages
and the derivatives of regular expressions are those of Mathlib.

## Main definitions

* `Regex.oneOf`, `Regex.text`, `Regex.opt`, `Regex.plus` — bracket expressions and operators.
* `Regex.LongestMatch` — the longest match at the front of a text.
* `Regex.longest`, `Regex.search`, `Regex.Pattern.exec` — the search, as offsets into the text.

## Main results

* `Regex.mem_symbols_of_mem`, `Regex.isPrefix_of_symbols` — the characters of a match.
* `Regex.longest_eq_some_iff`, `Regex.longest_eq_none_iff`.
* `Regex.Pattern.exec_cases` — a pattern is found at the front, nowhere, or further on only.
-/

namespace Regex

variable {α : Type*}

/-! ### Bracket expressions and operators -/

/-- A bracket expression: one of the characters. -/
def oneOf (cs : List α) : RegularExpression α := cs.foldr (fun c r => .char c + r) 0

/-- The characters of a text, one behind the other. -/
def text (cs : List α) : RegularExpression α := cs.foldr (fun c r => .char c * r) 1

/-- The operator `?`. -/
def opt (r : RegularExpression α) : RegularExpression α := 1 + r

/-- The operator `+`. -/
def plus (r : RegularExpression α) : RegularExpression α := r * r.star

@[simp] theorem mem_oneOf {cs s : List α} : s ∈ (oneOf cs).matches' ↔ ∃ c ∈ cs, s = [c] := by
  induction cs with
  | nil => exact iff_of_false (Language.notMem_zero s) fun ⟨c, hc, _⟩ => by cases hc
  | cons c cs ih =>
    rw [oneOf, List.foldr_cons, RegularExpression.matches'_add, Language.mem_add, ← oneOf, ih,
      List.exists_mem_cons_iff]
    rfl

@[simp] theorem mem_text {cs s : List α} : s ∈ (text cs).matches' ↔ s = cs := by
  induction cs generalizing s with
  | nil => exact Language.mem_one s
  | cons c cs ih =>
    rw [text, List.foldr_cons, RegularExpression.matches'_mul, Language.mem_mul, ← text]
    constructor
    · rintro ⟨a, rfl, b, hb, rfl⟩
      rw [ih.mp hb]
      rfl
    · rintro rfl
      exact ⟨[c], rfl, cs, ih.mpr rfl, rfl⟩

/-- A character in front of the rest of a text. -/
theorem mem_char_mul {c : α} {r : RegularExpression α} {s : List α} :
    s ∈ (.char c * r).matches' ↔ ∃ t ∈ r.matches', c :: t = s := by
  rw [RegularExpression.matches'_mul, Language.mem_mul]
  constructor
  · rintro ⟨a, rfl, t, ht, rfl⟩
    exact ⟨t, ht, rfl⟩
  · rintro ⟨t, ht, rfl⟩
    exact ⟨[c], rfl, t, ht, rfl⟩

@[simp] theorem mem_opt {r : RegularExpression α} {s : List α} :
    s ∈ (opt r).matches' ↔ s = [] ∨ s ∈ r.matches' := by
  rw [opt, RegularExpression.matches'_add, Language.mem_add, RegularExpression.matches'_epsilon,
    Language.mem_one]

/-- Words of one character each make up a text of these characters. -/
theorem exists_flatten_iff {cs s : List α} {p : ℕ → Prop} :
    (∃ words : List (List α), s = words.flatten ∧ p words.length ∧
      ∀ w ∈ words, w ∈ (oneOf cs).matches') ↔ p s.length ∧ ∀ c ∈ s, c ∈ cs := by
  constructor
  · rintro ⟨words, rfl, hp, hwords⟩
    have hflat : ∃ s' : List α, words = s'.map ([·]) ∧ ∀ c ∈ s', c ∈ cs := by
      clear hp
      induction words with
      | nil => exact ⟨[], rfl, fun c hc => by cases hc⟩
      | cons w words ih =>
        obtain ⟨s', rfl, hs'⟩ := ih fun w' hw' => hwords w' (List.mem_cons_of_mem _ hw')
        obtain ⟨c, hc, rfl⟩ := mem_oneOf.mp (hwords w List.mem_cons_self)
        exact ⟨c :: s', rfl, List.forall_mem_cons.mpr ⟨hc, hs'⟩⟩
    obtain ⟨s', rfl, hs'⟩ := hflat
    have hflatten : (s'.map ([·])).flatten = s' := by
      rw [← List.flatMap_def, List.flatMap_singleton']
    rw [List.length_map] at hp
    rw [hflatten]
    exact ⟨hp, hs'⟩
  · rintro ⟨hp, hs⟩
    refine ⟨s.map ([·]), ?_, ?_, fun w hw => ?_⟩
    · rw [← List.flatMap_def, List.flatMap_singleton']
    · rwa [List.length_map]
    · obtain ⟨c, hc, rfl⟩ := List.mem_map.mp hw
      exact mem_oneOf.mpr ⟨c, hs c hc, rfl⟩

@[simp] theorem mem_star_oneOf {cs s : List α} :
    s ∈ (oneOf cs).star.matches' ↔ ∀ c ∈ s, c ∈ cs := by
  rw [RegularExpression.matches'_star, Language.mem_kstar]
  simpa using @exists_flatten_iff α cs s fun _ => True

@[simp] theorem mem_pow_oneOf {cs s : List α} {n : ℕ} :
    s ∈ (oneOf cs ^ n).matches' ↔ s.length = n ∧ ∀ c ∈ s, c ∈ cs := by
  rw [RegularExpression.matches'_pow, Language.mem_pow]
  exact @exists_flatten_iff α cs s (· = n)

@[simp] theorem mem_plus_oneOf {cs s : List α} :
    s ∈ (plus (oneOf cs)).matches' ↔ s ≠ [] ∧ ∀ c ∈ s, c ∈ cs := by
  rw [plus, RegularExpression.matches'_mul, Language.mem_mul]
  constructor
  · rintro ⟨a, ha, b, hb, rfl⟩
    obtain ⟨c, hc, rfl⟩ := mem_oneOf.mp ha
    exact ⟨List.cons_ne_nil c b, List.forall_mem_cons.mpr ⟨hc, mem_star_oneOf.mp hb⟩⟩
  · rintro ⟨hne, hs⟩
    obtain ⟨c, b, rfl⟩ := List.exists_cons_of_ne_nil hne
    obtain ⟨hc, hb⟩ := List.forall_mem_cons.mp hs
    exact ⟨[c], mem_oneOf.mpr ⟨c, hc, rfl⟩, b, mem_star_oneOf.mpr hb, rfl⟩

/-! ### The characters of a match -/

/-- The characters that an expression names. -/
def symbols : RegularExpression α → List α
  | .zero => []
  | .epsilon => []
  | .char c => [c]
  | .plus r r' => symbols r ++ symbols r'
  | .comp r r' => symbols r ++ symbols r'
  | .star r => symbols r

/-- An expression matches no other characters than those that it names. -/
theorem mem_symbols_of_mem {r : RegularExpression α} {s : List α} (h : s ∈ r.matches') :
    ∀ c ∈ s, c ∈ symbols r := by
  induction r generalizing s with
  | zero => exact absurd h (Language.notMem_zero s)
  | epsilon =>
    obtain rfl := (Language.mem_one s).mp h
    exact fun c hc => absurd hc List.not_mem_nil
  | char a =>
    obtain rfl : s = [a] := h
    exact fun c hc => hc
  | plus r r' ihr ihr' =>
    rcases h with h | h
    · exact fun c hc => List.mem_append_left _ (ihr h c hc)
    · exact fun c hc => List.mem_append_right _ (ihr' h c hc)
  | comp r r' ihr ihr' =>
    obtain ⟨a, ha, b, hb, rfl⟩ := Language.mem_mul.mp h
    exact List.forall_mem_append.mpr ⟨fun c hc => List.mem_append_left _ (ihr ha c hc),
      fun c hc => List.mem_append_right _ (ihr' hb c hc)⟩
  | star r ih =>
    obtain ⟨words, rfl, hwords⟩ := Language.mem_kstar.mp h
    intro c hc
    obtain ⟨word, hword, hc⟩ := List.mem_flatten.mp hc
    exact ih (hwords word hword) c hc

/-- A match at the front of a text does not go on behind a character that the expression does not
name. -/
theorem isPrefix_of_symbols {r : RegularExpression α} {s t rest : List α} (h : s ∈ r.matches')
    (hs : s <+: t ++ rest) (hrest : ∀ c ∈ rest.head?, c ∉ symbols r) : s <+: t := by
  rcases List.prefix_or_prefix_of_prefix hs (List.prefix_append t rest) with hst | ⟨u, rfl⟩
  · exact hst
  · rcases u with - | ⟨c, u⟩
    · rw [List.append_nil]
    · obtain ⟨v, rfl⟩ := (List.prefix_append_right_inj t).mp hs
      exact absurd (mem_symbols_of_mem h c (List.mem_append_right _ List.mem_cons_self))
        (hrest c rfl)

/-! ### The longest match at the front -/

variable [DecidableEq α]

/-- The longest prefix of a text that an expression matches. -/
structure LongestMatch (r : RegularExpression α) (s lexeme : List α) : Prop where
  isPrefix : lexeme <+: s
  matched : lexeme ∈ r.matches'
  longest : ∀ t, t <+: s → t ∈ r.matches' → t.length ≤ lexeme.length

/-- The length of the longest match at the front of a text. -/
def longest (r : RegularExpression α) : List α → Option ℕ
  | [] => if r.matchEpsilon then some 0 else none
  | c :: s =>
    match longest (r.deriv c) s with
    | some n => some (n + 1)
    | none => if r.matchEpsilon then some 0 else none

theorem cons_mem_matches' {r : RegularExpression α} {c : α} {s : List α} :
    c :: s ∈ r.matches' ↔ s ∈ (r.deriv c).matches' := by
  rw [← RegularExpression.rmatch_iff_matches', ← RegularExpression.rmatch_iff_matches',
    RegularExpression.rmatch]

theorem nil_mem_matches' {r : RegularExpression α} : [] ∈ r.matches' ↔ r.matchEpsilon = true := by
  rw [← RegularExpression.rmatch_iff_matches', RegularExpression.rmatch]

variable {r : RegularExpression α} {s : List α}

theorem longest_eq_none_iff : longest r s = none ↔ ∀ t, t <+: s → t ∉ r.matches' := by
  induction s generalizing r with
  | nil =>
    simp only [longest, List.prefix_nil, forall_eq, nil_mem_matches']
    split_ifs with h <;> simp [h]
  | cons c s ih =>
    constructor
    · intro h t ht hmem
      rw [longest] at h
      rcases hrec : longest (r.deriv c) s with - | n
      · rcases t with - | ⟨d, t⟩
        · rw [hrec, if_pos (nil_mem_matches'.mp hmem)] at h
          cases h
        · obtain ⟨rfl, htail⟩ := List.cons_prefix_cons.mp ht
          exact ih.mp hrec t htail (cons_mem_matches'.mp hmem)
      · rw [hrec] at h
        cases h
    · intro h
      have hrec : longest (r.deriv c) s = none := ih.mpr fun t ht hmem =>
        h (c :: t) (List.cons_prefix_cons.mpr ⟨rfl, ht⟩) (cons_mem_matches'.mpr hmem)
      have hnil : ¬ r.matchEpsilon = true := fun he =>
        h [] List.nil_prefix (nil_mem_matches'.mpr he)
      rw [longest, hrec]
      exact if_neg hnil

theorem longestMatch_of_longest {n : ℕ} (h : longest r s = some n) :
    n ≤ s.length ∧ LongestMatch r s (s.take n) := by
  induction s generalizing r n with
  | nil =>
    rw [longest] at h
    split_ifs at h with he
    obtain rfl := Option.some.inj h
    refine ⟨le_rfl, List.prefix_rfl, nil_mem_matches'.mpr he, fun t ht _ => ?_⟩
    rw [List.prefix_nil.mp ht]
    rfl
  | cons c s ih =>
    rw [longest] at h
    rcases hrec : longest (r.deriv c) s with - | m
    · rw [hrec] at h
      dsimp only at h
      split_ifs at h with he
      obtain rfl := Option.some.inj h
      refine ⟨Nat.zero_le _, List.nil_prefix, nil_mem_matches'.mpr he, fun t ht hmem => ?_⟩
      rcases t with - | ⟨d, t⟩
      · exact le_rfl
      · obtain ⟨rfl, htail⟩ := List.cons_prefix_cons.mp ht
        exact absurd (cons_mem_matches'.mp hmem) (longest_eq_none_iff.mp hrec t htail)
    · rw [hrec] at h
      obtain rfl := Option.some.inj h
      obtain ⟨hle, hprefix, hmatched, hlongest⟩ := ih hrec
      refine ⟨Nat.succ_le_succ hle, List.take_prefix _ _, cons_mem_matches'.mpr hmatched,
        fun t ht hmem => ?_⟩
      rcases t with - | ⟨d, t⟩
      · exact Nat.zero_le _
      · obtain ⟨rfl, htail⟩ := List.cons_prefix_cons.mp ht
        exact Nat.succ_le_succ (hlongest t htail (cons_mem_matches'.mp hmem))

/-- **The length that is found is that of the longest match.** -/
theorem longest_eq_some_iff {n : ℕ} :
    longest r s = some n ↔ ∃ lexeme, LongestMatch r s lexeme ∧ lexeme.length = n := by
  constructor
  · intro h
    obtain ⟨hle, hmatch⟩ := longestMatch_of_longest h
    exact ⟨s.take n, hmatch, List.length_take_of_le hle⟩
  · rintro ⟨lexeme, hmatch, rfl⟩
    rcases h : longest r s with - | n
    · exact absurd hmatch.matched (longest_eq_none_iff.mp h lexeme hmatch.isPrefix)
    · obtain ⟨hle, hfound⟩ := longestMatch_of_longest h
      have hge := hfound.longest lexeme hmatch.isPrefix hmatch.matched
      have hlen := hmatch.longest _ hfound.isPrefix hfound.matched
      rw [List.length_take_of_le hle] at hge hlen
      rw [le_antisymm hge hlen]

omit [DecidableEq α] in
/-- There is only one longest match. -/
theorem LongestMatch.unique {lexeme lexeme' : List α} (h : LongestMatch r s lexeme)
    (h' : LongestMatch r s lexeme') : lexeme = lexeme' := by
  have hlen : lexeme.length = lexeme'.length :=
    le_antisymm (h'.longest _ h.isPrefix h.matched) (h.longest _ h'.isPrefix h'.matched)
  exact (List.prefix_of_prefix_length_le h.isPrefix h'.isPrefix hlen.le).eq_of_length hlen

/-! ### Searching a text -/

/-- The offsets of the start and the end of the leftmost longest match. -/
def search (r : RegularExpression α) : List α → Option (ℕ × ℕ)
  | [] => (longest r []).map fun n => (0, n)
  | c :: s =>
    match longest r (c :: s) with
    | some n => some (0, n)
    | none => (search r s).map fun (so, eo) => (so + 1, eo + 1)

theorem search_of_longest {n : ℕ} (h : longest r s = some n) : search r s = some (0, n) := by
  cases s with
  | nil => rw [search, h, Option.map_some]
  | cons c s => rw [search, h]

theorem search_eq_none_iff : search r s = none ↔ ∀ t, t <:+: s → t ∉ r.matches' := by
  induction s with
  | nil =>
    rw [search, Option.map_eq_none_iff, longest_eq_none_iff]
    simp only [List.prefix_nil, List.infix_nil]
  | cons c s ih =>
    simp only [search, List.infix_cons_iff, or_imp, forall_and]
    rcases h : longest r (c :: s) with - | n
    · rw [Option.map_eq_none_iff, ih, and_iff_right (longest_eq_none_iff.mp h)]
    · refine iff_of_false (Option.some_ne_none _) fun hnone => ?_
      cases h.symm.trans (longest_eq_none_iff.mpr hnone.1)

/-- What is found is a match. -/
theorem exists_of_search {m : ℕ × ℕ} (h : search r s = some m) :
    ∃ t, t <:+: s ∧ t ∈ r.matches' ∧ t.length = m.2 - m.1 := by
  induction s generalizing m with
  | nil =>
    obtain ⟨n, hn, rfl⟩ := Option.map_eq_some_iff.mp h
    obtain ⟨t, ht, rfl⟩ := longest_eq_some_iff.mp hn
    exact ⟨t, ht.isPrefix.isInfix, ht.matched, rfl⟩
  | cons c s ih =>
    rw [search] at h
    rcases hlongest : longest r (c :: s) with - | n
    · rw [hlongest] at h
      obtain ⟨⟨so, eo⟩, hm', rfl⟩ := Option.map_eq_some_iff.mp h
      obtain ⟨t, ht, hmem, hlen⟩ := ih hm'
      refine ⟨t, ht.trans (List.suffix_cons c s).isInfix, hmem, hlen.trans ?_⟩
      exact (Nat.add_sub_add_right eo 1 so).symm
    · rw [hlongest] at h
      obtain rfl := Option.some.inj h
      obtain ⟨t, ht, rfl⟩ := longest_eq_some_iff.mp hlongest
      exact ⟨t, ht.isPrefix.isInfix, ht.matched, rfl⟩

/-- A pattern, possibly anchored to the front of the text with `^`. -/
structure Pattern (α : Type*) where
  anchored : Bool
  body : RegularExpression α

/-- The offsets of the match of a pattern. -/
def Pattern.exec (p : Pattern α) (s : List α) : Option (ℕ × ℕ) :=
  if p.anchored then (longest p.body s).map fun n => (0, n) else search p.body s

/-- **A pattern is found at the front, nowhere, or, if it is not anchored, further on only.** -/
theorem Pattern.exec_cases (p : Pattern α) (s : List α) :
    (∃ n, longest p.body s = some n ∧ p.exec s = some (0, n)) ∨
    (longest p.body s = none ∧ p.exec s = none) ∨
    (p.anchored = false ∧ longest p.body s = none ∧ ∃ m, search p.body s = some m ∧
      p.exec s = some m) := by
  rcases hlongest : longest p.body s with - | n
  · cases hanchored : p.anchored
    · rw [exec, hanchored, if_neg Bool.false_ne_true]
      rcases hsearch : search p.body s with - | m
      · exact .inr (.inl ⟨rfl, rfl⟩)
      · exact .inr (.inr ⟨rfl, rfl, m, rfl, rfl⟩)
    · rw [exec, hanchored, if_pos rfl, hlongest, Option.map_none]
      exact .inr (.inl ⟨rfl, rfl⟩)
  · refine .inl ⟨n, rfl, ?_⟩
    rw [exec, hlongest, search_of_longest hlongest, Option.map_some, ite_self]

/-- What a pattern finds is a match of its body. -/
theorem Pattern.exists_of_exec {p : Pattern α} {m : ℕ × ℕ} (h : p.exec s = some m) :
    ∃ t, t <:+: s ∧ t ∈ p.body.matches' ∧ t.length = m.2 - m.1 := by
  rcases p.exec_cases s with ⟨n, hn, hexec⟩ | ⟨-, hexec⟩ | ⟨-, -, m', hm', hexec⟩
  · obtain rfl := Option.some.inj (hexec.symm.trans h)
    exact exists_of_search (search_of_longest hn)
  · cases hexec.symm.trans h
  · obtain rfl := Option.some.inj (hexec.symm.trans h)
    exact exists_of_search hm'

end Regex
