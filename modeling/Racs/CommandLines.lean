import Racs.Database
import Racs.IntegerArguments
import Racs.Planner
import Racs.TimeTexts

/-!
# Writing command lines

A command line is written with words: names, strings, numbers, times and pipes, with white space
around them. Behind a number, a time or a name there has to be something that does not go on with
it; a string and a pipe end where they end. The lexer then reads the words one by one, although it
tries the expression for times first and the one for integers last, and although those for strings
and pipes are not anchored.

## Main definitions

* `Racs.Word`, `Racs.Word.EndsAt`, `Racs.Written` — words, and the texts that are written with them.
* `Racs.ArgValue`, `Racs.ArgValue.word` — how the values of arguments are written.
* `Racs.WrittenCommand`, `Racs.lineWords`, `Racs.render` — how a plan is written.

## Main results

* `Racs.nextToken_written` — the first word of a text is its first token.
* `Racs.planText_written` — a text is planned as the tokens of its words.
* `Racs.planText_lineWords` — every plan can be written, and is planned from its text.
-/

namespace Racs

open Decimal Regex

variable {δ : Type} {atof : List Char → δ}

/-! ### Words -/

/-- A text that the expression of its kind matches. -/
structure Word where
  lexeme : Lexeme
  text : List Char
  matched : text ∈ lexeme.regex.body.matches'

/-- What follows a word does not go on with it. -/
def Word.EndsAt (w : Word) (rest : List Char) : Prop :=
  match w.lexeme with
  | .str | .pipe => True
  | .id => ∀ c ∈ rest.head?, c ∉ symbols regexId.body
  | .int | .float | .time => ∀ c ∈ rest.head?, c ∉ symbols regexTime.body

/-- A text is written with words, with white space in front of each and at the end. -/
inductive Written : List Char → List Word → Prop
  | nil {gap : List Char} (hgap : ∀ c ∈ gap, isSpace c = true) : Written gap []
  | cons {gap rest : List Char} {w : Word} {ws : List Word} (hgap : ∀ c ∈ gap, isSpace c = true)
      (hends : w.EndsAt rest) (hrest : Written rest ws) :
      Written (gap ++ (w.text ++ rest)) (w :: ws)

/-! ### The end of a word -/

/-- The number of characters up to the end of a string, behind its opening quote. -/
def closeLength : List Char → Option ℕ
  | [] => none
  | ['\\'] => none
  | '\\' :: c :: cs => if c = '\'' then (closeLength cs).map (· + 2) else none
  | c :: cs => if c = '\'' then some 1 else (closeLength cs).map (· + 1)

theorem closeLength_strChars {s : List Char} (hs : ∀ c ∈ s, c ∈ strChars) (rest : List Char) :
    closeLength (s ++ rest) = (closeLength rest).map (· + s.length) := by
  induction s with
  | nil => simp
  | cons c s ih =>
    obtain ⟨hc, hs⟩ := List.forall_mem_cons.mp hs
    have hplain : c ≠ '\'' ∧ c ≠ '\\' := by simpa using (List.mem_filter.mp hc).2
    rw [List.cons_append, closeLength.eq_4 _ _ (fun h => absurd h hplain.2)
      (fun _ _ h => absurd h hplain.2), if_neg hplain.1, ih hs, Option.map_map]
    rfl

/-- An escaped quote and the characters up to the next one. -/
theorem closeLength_escaped {w : List Char}
    (hw : w ∈ (RegularExpression.char '\\' * (.char '\'' * (oneOf strChars).star)).matches')
    (rest : List Char) : closeLength (w ++ rest) = (closeLength rest).map (· + w.length) := by
  obtain ⟨u, hu, rfl⟩ := mem_char_mul.mp hw
  obtain ⟨s, hs, rfl⟩ := mem_char_mul.mp hu
  rw [List.cons_append, List.cons_append, closeLength, if_pos rfl,
    closeLength_strChars (mem_star_oneOf.mp hs), Option.map_map]
  rfl

/-- Escaped quotes in front of the quote that ends a string. -/
theorem closeLength_flatten {words : List (List Char)} (rest : List Char)
    (hwords : ∀ w ∈ words,
      w ∈ (RegularExpression.char '\\' * (.char '\'' * (oneOf strChars).star)).matches') :
    closeLength (words.flatten ++ '\'' :: rest) = some (words.flatten.length + 1) := by
  induction words with
  | nil => rfl
  | cons w words ih =>
    rw [List.flatten_cons, List.append_assoc, closeLength_escaped (hwords w List.mem_cons_self),
      ih fun w' hw' => hwords w' (List.mem_cons_of_mem _ hw'), Option.map_some, List.length_append]
    exact congrArg some (by omega)

/-- The end of a string is found where the string ends. -/
theorem closeLength_of_mem {s : List Char} (h : s ∈ regexStr.body.matches') (rest : List Char) :
    ∃ t, s = '\'' :: t ∧ closeLength (t ++ rest) = some t.length := by
  obtain ⟨t, ht, rfl⟩ := mem_char_mul.mp h
  refine ⟨t, rfl, ?_⟩
  obtain ⟨a, ha, b, hb, rfl⟩ := Language.mem_mul.mp ht
  obtain ⟨u, hu, v, hv, rfl⟩ := Language.mem_mul.mp ha
  obtain rfl : b = ['\''] := hb
  obtain ⟨words, rfl, hwords⟩ := Language.mem_kstar.mp hv
  rw [List.append_assoc, List.append_assoc, List.singleton_append,
    closeLength_strChars (mem_star_oneOf.mp hu), closeLength_flatten rest hwords, Option.map_some]
  simp only [List.length_append, List.length_singleton]
  exact congrArg some (by omega)

/-- **A string does not go on behind its end**: of two strings at the front of a text, neither is
longer. -/
theorem length_str_le {s t rest : List Char} (hs : s ∈ regexStr.body.matches')
    (ht : t ∈ regexStr.body.matches') (hstart : t <+: s ++ rest) : t.length ≤ s.length := by
  obtain ⟨rest', hrest⟩ := hstart
  obtain ⟨u, rfl, hu⟩ := closeLength_of_mem hs rest
  obtain ⟨v, rfl, hv⟩ := closeLength_of_mem ht rest'
  rw [List.cons_append, List.cons_append] at hrest
  rw [(List.cons.inj hrest).2, hu] at hv
  exact Nat.succ_le_succ (Option.some.inj hv).ge

/-- The kinds of words that are tried before a kind. -/
def Lexeme.before : Lexeme → List Lexeme
  | .int => [.time, .float]
  | .float => [.time]
  | _ => []

theorem Lexeme.anchored_of_mem_before {l l' : Lexeme} (h : l' ∈ l.before) :
    l'.regex.anchored = true := by
  have hall : ∀ l' ∈ l.before, l'.regex.anchored = true := by cases l <;> decide
  exact hall l' h

/-- The kinds that are tried on one character. -/
theorem candidates_mem (c : Char) : candidates c ∈
    [[.time, .float, .int], [.float, .int], [.float], [.str], [.pipe], [.id], []] := by
  have hdigits : ∀ c ∈ digits, candidates c ∈
      [[.time, .float, .int], [.float, .int], [.float], [.str], [.pipe], [.id], []] :=
    List.all_iff_forall_prop.mp (by decide)
  by_cases hdigit : c.isDigit = true
  · exact hdigits c (mem_digits.mpr hdigit)
  by_cases hsign : c = '+' ∨ c = '-'
  · rcases hsign with rfl | rfl <;> decide
  by_cases hmark : c = '.' ∨ c = '\'' ∨ c = '|'
  · rcases hmark with rfl | rfl | rfl <;> decide
  simp only [not_or] at hmark
  simp only [candidates, if_neg hsign, if_neg hdigit, if_neg hmark.1, if_neg hmark.2.1,
    if_neg hmark.2.2, List.flatten_cons, List.nil_append, List.flatten_nil, List.append_nil]
  split_ifs <;> simp

/-- The kinds that are tried on a character in front of one of them. -/
theorem exists_candidates {c : Char} {l : Lexeme} (h : l ∈ candidates c) :
    ∃ front back, candidates c = front ++ l :: back ∧ ∀ l' ∈ front, l' ∈ l.before := by
  have hsplit : ∀ ls ∈ ([[.time, .float, .int], [.float, .int], [.float], [.str], [.pipe], [.id],
      []] : List (List Lexeme)), l ∈ ls → ls = ls.takeWhile (· ≠ l) ++ l ::
        (ls.dropWhile (· ≠ l)).tail ∧ ∀ l' ∈ ls.takeWhile (· ≠ l), l' ∈ l.before := by
    cases l <;> decide
  exact ⟨_, _, hsplit _ (candidates_mem c) h⟩

variable {w : Word} {rest : List Char}

/-- A number with a point has no other characters than a time. -/
theorem symbols_float : ∀ c ∈ symbols regexFloat.body, c ∈ symbols regexTime.body :=
  List.all_iff_forall_prop.mp (by decide)

/-- **A word is the longest one of its kind** in front of what does not go on with it. -/
theorem Word.EndsAt.longestMatch (h : w.EndsAt rest) :
    LongestMatch w.lexeme.regex.body (w.text ++ rest) w.text := by
  refine ⟨List.prefix_append _ _, w.matched, fun t ht hmatched => ?_⟩
  have hsymbols : (∀ c ∈ rest.head?, c ∉ symbols w.lexeme.regex.body) →
      t.length ≤ w.text.length := fun hrest =>
    (isPrefix_of_symbols hmatched ht hrest).length_le
  obtain ⟨lexeme, text, hmem⟩ := w
  cases lexeme with
  | str => exact length_str_le hmem hmatched ht
  | pipe => exact (congrArg List.length ((mem_text.mp hmatched).trans (mem_text.mp hmem).symm)).le
  | id => exact hsymbols h
  | time => exact hsymbols h
  | int =>
    have hsub : ∀ c ∈ symbols regexInt.body, c ∈ symbols regexTime.body :=
      List.all_iff_forall_prop.mp (by decide)
    exact hsymbols fun c hc hmem => h c hc (hsub c hmem)
  | float => exact hsymbols fun c hc hmem => h c hc (symbols_float c hmem)

/-- No kind that is tried before matches in front of a word and what follows it: a time has a letter
that no number has, and a number with a point has one that no integer has. -/
theorem Word.EndsAt.before (h : w.EndsAt rest) {l : Lexeme} (hl : l ∈ w.lexeme.before) :
    ∀ t, t <+: w.text ++ rest → t ∉ l.regex.body.matches' := by
  intro t ht hmatched
  obtain ⟨lexeme, text, hmem⟩ := w
  cases lexeme with
  | int =>
    have hkind : l = .time ∨ l = .float := List.mem_pair.mp hl
    have hsub : ∀ c ∈ symbols l.regex.body, c ∈ symbols regexTime.body := by
      rcases hkind with rfl | rfl
      · exact fun c hc => hc
      · exact symbols_float
    have hstart := isPrefix_of_symbols hmatched ht fun c hc hsymbol => h c hc (hsub c hsymbol)
    obtain ⟨c, hc, hno⟩ := exists_not_mem_symbols hkind hmatched
    exact hno (mem_symbols_of_mem hmem c (hstart.subset hc))
  | float =>
    obtain rfl := List.mem_singleton.mp hl
    have hstart := isPrefix_of_symbols hmatched ht h
    obtain ⟨lit, rfl⟩ := mem_regexTime.mp hmatched
    have hletter : 'T' ∈ lit.text := by simp [TimeLiteral.text]
    have hno : 'T' ∉ symbols regexFloat.body := by decide
    exact hno (mem_symbols_of_mem hmem 'T' (hstart.subset hletter))
  | _ => cases hl

/-! ### The tokens of a text -/

/-- White space in front of a word is skipped. -/
theorem skipSpace_append {gap : List Char} (hgap : ∀ c ∈ gap, isSpace c = true)
    {c : Char} (hc : isSpace c = false) (t : List Char) (curr : ℕ) :
    skipSpace ⟨gap ++ c :: t, curr⟩ = ⟨c :: t, curr + gap.length⟩ := by
  have hc' : ¬ isSpace c = true := by rw [hc]; exact Bool.false_ne_true
  rw [skipSpace_eq, List.dropWhile_append_of_pos hgap, List.dropWhile_cons_of_neg hc',
    List.takeWhile_append_of_pos hgap, List.takeWhile_cons_of_neg hc', List.append_nil]

/-- No token begins with white space. -/
theorem isSpace_of_candidates {c : Char} {l : Lexeme} (h : l ∈ candidates c) :
    isSpace c = false := by
  by_contra hspace
  have hcode : c.toNat < 14 ∧ 9 ≤ c.toNat ∨ c.toNat = 32 := by
    rcases of_decide_eq_true (Bool.eq_true_of_not_eq_false hspace) with rfl | hrange
    · exact .inr rfl
    · exact .inl ⟨by omega, hrange.1⟩
  have hnone : ∀ n < 33, (n < 14 ∧ 9 ≤ n ∨ n = 32) → candidates (Char.ofNat n) = [] := by decide
  have hempty := hnone c.toNat (by omega) hcode
  rw [Char.ofNat_toNat] at hempty
  rw [hempty] at h
  cases h

/-- The word is what is found at the front of a text. -/
theorem Word.EndsAt.findSome (h : w.EndsAt rest) {c : Char} (hc : w.lexeme ∈ candidates c) :
    (candidates c).findSome? (fun l =>
      (matchToken (w.text ++ rest) l.regex).map fun m => (l, m)) =
      some (w.lexeme, (0, w.text.length)) := by
  obtain ⟨front, back, hsplit, hfront⟩ := exists_candidates hc
  have hbefore : front.findSome? (fun l =>
      (matchToken (w.text ++ rest) l.regex).map fun m => (l, m)) = none := by
    refine List.findSome?_eq_none_iff.mpr fun l hl => Option.map_eq_none_iff.mpr ?_
    rw [matchToken, Pattern.exec, if_pos (Lexeme.anchored_of_mem_before (hfront l hl)),
      longest_eq_none_iff.mpr (h.before (hfront l hl)), Option.map_none]
  have hword : matchToken (w.text ++ rest) w.lexeme.regex = some (0, w.text.length) := by
    have hlongest := longest_eq_some_iff.mpr ⟨_, h.longestMatch, rfl⟩
    rw [matchToken, Pattern.exec, hlongest, search_of_longest hlongest, Option.map_some, ite_self]
  rw [hsplit, List.findSome?_append, hbefore, List.findSome?_cons, hword]
  rfl

/-- **The first word of a text is its first token.** -/
theorem nextToken_written {gap : List Char} (hgap : ∀ c ∈ gap, isSpace c = true)
    (hends : w.EndsAt rest) (curr : ℕ) :
    nextToken atof ⟨gap ++ (w.text ++ rest), curr⟩ =
      (readLexeme atof w.text w.lexeme).map fun token =>
        (some token, ⟨rest, curr + gap.length + w.text.length⟩) := by
  obtain ⟨c, t, htext, hcandidates⟩ := exists_cons_of_mem w.matched
  have hskip : skipSpace ⟨gap ++ (w.text ++ rest), curr⟩ =
      ⟨w.text ++ rest, curr + gap.length⟩ := by
    rw [htext, List.cons_append]
    exact skipSpace_append hgap (isSpace_of_candidates hcandidates) _ _
  have hfind := hends.findSome hcandidates
  have hptr : w.text ++ rest = c :: (t ++ rest) := by rw [htext, List.cons_append]
  rw [nextToken, hskip]
  dsimp only
  split
  · rename_i hnil
    cases hptr.symm.trans hnil
  · rename_i d u hcons
    obtain rfl := (List.cons.inj (hptr.symm.trans hcons)).1
    rw [hfind]
    dsimp only
    rw [lexToken_front atof rfl w.matched, Option.map_map]
    rfl

/-- Behind the last word, the text ends. -/
theorem nextToken_gap {gap : List Char} (hgap : ∀ c ∈ gap, isSpace c = true) (curr : ℕ) :
    nextToken atof ⟨gap, curr⟩ = some (none, ⟨[], curr + gap.length⟩) := by
  have hskip : skipSpace ⟨gap, curr⟩ = ⟨[], curr + gap.length⟩ := by
    rw [skipSpace_eq, List.dropWhile_eq_nil_iff.mpr hgap, List.takeWhile_eq_self_iff.mpr hgap]
  rw [nextToken, hskip]

/-- The tokens of words. -/
def readWords (atof : List Char → δ) (ws : List Word) : Option (List (Token δ)) :=
  ws.mapM fun w => readLexeme atof w.text w.lexeme

theorem readWords_cons {ws : List Word} {tokens : List (Token δ)}
    (h : readWords atof (w :: ws) = some tokens) :
    ∃ token tokens', readLexeme atof w.text w.lexeme = some token ∧
      readWords atof ws = some tokens' ∧ tokens = token :: tokens' := by
  rw [readWords, List.mapM_cons] at h
  obtain ⟨token, htoken, h⟩ := Option.bind_eq_some_iff.mp h
  obtain ⟨tokens', htokens, h⟩ := Option.bind_eq_some_iff.mp h
  exact ⟨token, tokens', htoken, htokens, (Option.some.inj h).symm⟩

/-- There is a next token in front of words that are read. -/
theorem Written.exists_nextToken {text : List Char} {ws : List Word} (h : Written text ws)
    {tokens : List (Token δ)} (hread : readWords atof ws = some tokens) (curr : ℕ) :
    ∃ r, nextToken atof ⟨text, curr⟩ = some r := by
  cases h with
  | nil hgap => exact ⟨_, nextToken_gap hgap curr⟩
  | cons hgap hends hrest =>
    obtain ⟨token, tokens', htoken, -⟩ := readWords_cons hread
    exact ⟨_, by rw [nextToken_written hgap hends, htoken, Option.map_some]⟩

/-- The loop of the planner takes the tokens of the words. -/
theorem planTextLoop_written {text : List Char} {ws : List Word} (h : Written text ws)
    {tokens : List (Token δ)} (hread : readWords atof ws = some tokens) (st : PlanState δ)
    (prev : Option (Token δ)) (curr : ℕ) {passes : ℕ} (hpasses : ws.length < passes) :
    ((nextToken atof ⟨text, curr⟩).bind fun (first, parser) =>
      planTextLoop atof st prev passes first parser) = planLoop st prev tokens := by
  induction h generalizing tokens st prev curr passes with
  | nil hgap =>
    obtain rfl : tokens = [] := (Option.some.inj hread).symm
    obtain ⟨passes, rfl⟩ := Nat.exists_eq_succ_of_ne_zero (Nat.ne_of_gt hpasses)
    rw [nextToken_gap hgap]
    rfl
  | @cons gap rest w ws hgap hends hrest ih =>
    obtain ⟨token, tokens, htoken, htokens, rfl⟩ := readWords_cons hread
    obtain ⟨passes, rfl⟩ := Nat.exists_eq_succ_of_ne_zero (Nat.ne_zero_of_lt hpasses)
    rw [nextToken_written hgap hends, htoken, Option.map_some, Option.bind_some]
    dsimp only
    rw [planTextLoop, planLoop]
    rcases planStep st prev token with - | ⟨st', rc⟩
    · rfl
    · rw [Option.bind_some, Option.bind_some]
      cases rc with
      | abort =>
        -- the token behind the one that is rejected is read as well
        obtain ⟨r, hr⟩ := hrest.exists_nextToken htokens (curr + gap.length + w.text.length)
        rw [hr]
        rfl
      | «continue» => exact ih htokens st' (some token) _ (Nat.lt_of_succ_lt_succ hpasses)

/-- A text has a character for each of its words. -/
theorem Written.length_le {text : List Char} {ws : List Word} (h : Written text ws) :
    ws.length ≤ text.length := by
  induction h with
  | nil => exact Nat.zero_le _
  | @cons gap rest w ws hgap hends hrest ih =>
    obtain ⟨c, t, htext, -⟩ := exists_cons_of_mem w.matched
    rw [htext]
    simp only [List.length_append, List.length_cons]
    omega

/-- **A text is planned as the tokens of its words.** -/
theorem planText_written {text : List Char} {ws : List Word} (h : Written text ws)
    {tokens : List (Token δ)} (hread : readWords atof ws = some tokens) :
    planText atof text = planBuild tokens := by
  have hloop := planTextLoop_written h hread ⟨0, [], none, []⟩ none 0
    (Nat.lt_succ_of_le h.length_le)
  rw [planText, planBuild, ← hloop, parserInit, Option.map_bind]
  rfl

/-! ### How a plan is written -/

/-- An argument that can be written: what stands between the quotes of a string, an integer, the
text of a number with a point, or a time that is read back from its text. -/
inductive ArgValue
  | str (s : List Char) (hs : '\'' :: (s ++ ['\'']) ∈ regexStr.body.matches')
  | int (z : Int64)
  | float (s : List Char) (hs : s ∈ regexFloat.body.matches')
  | time (z : Int64) (hz : ReadBack z)

/-- The digits of a number are a numeral. -/
theorem exists_numeral (w n : ℕ) :
    ∃ m : Numeral, m.text = printNat w n ∧ (m.value : ℕ) = n := by
  have hne : printNat w n ≠ [] :=
    List.append_ne_nil_of_right_ne_nil _ (List.ne_nil_of_length_pos Nat.length_toDigits_pos)
  obtain ⟨m, hm⟩ := mem_plus_digits.mp (mem_plus_oneOf.mpr
    ⟨hne, fun c hc => mem_digits.mpr (isDigit_of_mem_printNat hc)⟩)
  refine ⟨m, hm, ?_⟩
  rw [← ofDigitChars_printNat w n, ← hm, Numeral.text, ofDigitChars_printNat]

/-- A number is printed as a literal with its value. -/
theorem exists_intLiteral (z : ℤ) :
    ∃ lit : IntLiteral, lit.text = printInt 1 z ∧ lit.value = z := by
  unfold printInt
  split_ifs with hz
  · obtain ⟨m, hm, hvalue⟩ := exists_numeral 0 z.natAbs
    refine ⟨⟨some true, m⟩, congrArg ('-' :: ·) hm, ?_⟩
    rw [IntLiteral.value, if_pos rfl, hvalue]
    omega
  · obtain ⟨m, hm, hvalue⟩ := exists_numeral 1 z.natAbs
    refine ⟨⟨none, m⟩, hm, ?_⟩
    rw [IntLiteral.value, if_neg nofun, hvalue]
    omega

/-- An integer is printed as a literal that stands for it. -/
theorem exists_int64 (z : Int64) :
    ∃ lit : IntLiteral, lit.text = printInt 1 z.toInt ∧ lit.int64 = z := by
  obtain ⟨lit, htext, hvalue⟩ := exists_intLiteral z.toInt
  have hlow := z.le_toInt
  have hhigh := z.toInt_lt
  refine ⟨lit, htext, Int64.toInt_inj.mp ?_⟩
  rw [toInt_int64_of_mem (by omega) (by omega), hvalue]

/-- How an argument is written. -/
def ArgValue.word : ArgValue → Word
  | str s hs => ⟨.str, '\'' :: (s ++ ['\'']), hs⟩
  | int z => ⟨.int, printInt 1 z.toInt, mem_regexInt.mpr ((exists_int64 z).imp fun _ => And.left)⟩
  | float s hs => ⟨.float, s, hs⟩
  | time z hz => ⟨.time, timeToRfc3339 z, ((readBack_iff z).mpr hz).1⟩

/-- The token of an argument. -/
def ArgValue.token (atof : List Char → δ) : ArgValue → ArgToken δ
  | str s _ => .str (textBytes s)
  | int z => .int z
  | float s _ => .float (atof s)
  | time z _ => .time z

/-- An argument is read as it is written. -/
theorem ArgValue.readLexeme_word (a : ArgValue) :
    readLexeme atof a.word.text a.word.lexeme = some (a.token atof).token := by
  cases a with
  | str s hs =>
    have hinner : ('\'' :: (s ++ ['\''])).tail.dropLast = s := by
      rw [List.tail_cons, List.dropLast_concat]
    exact congrArg (fun t => some (Token.str (textBytes t))) hinner
  | int z =>
    obtain ⟨lit, htext, hvalue⟩ := exists_int64 z
    have hread := readLexeme_text atof lit
    rw [htext, hvalue] at hread
    exact hread
  | float s hs => rfl
  | time z hz => exact congrArg (Option.map Token.time) ((readBack_iff z).mpr hz).2

/-- A command that can be written. -/
structure WrittenCommand where
  name : List Char
  args : List ArgValue
  isName : name ∈ regexId.body.matches'
  fits : name.length < 255

/-- The words of a command. -/
def WrittenCommand.words (c : WrittenCommand) : List Word :=
  ⟨.id, c.name, c.isName⟩ :: c.args.map ArgValue.word

/-- What a command stands for. -/
def WrittenCommand.command (atof : List Char → δ) (c : WrittenCommand) : LineCommand δ :=
  ⟨textBytes c.name, c.args.map (ArgValue.token atof)⟩

/-- The pipe as a word. -/
def pipeWord : Word := ⟨.pipe, "|>".toList, mem_text.mpr rfl⟩

/-- The words of a plan. -/
def lineWords : List WrittenCommand → List Word
  | [] => []
  | c :: cs => c.words ++ cs.flatMap fun c => pipeWord :: c.words

theorem readWords_append {ws ws' : List Word} {tokens tokens' : List (Token δ)}
    (h : readWords atof ws = some tokens) (h' : readWords atof ws' = some tokens') :
    readWords atof (ws ++ ws') = some (tokens ++ tokens') := by
  rw [readWords] at h h' ⊢
  rw [List.mapM_append, h, h']
  rfl

theorem readWords_singleton {token : Token δ} (h : readLexeme atof w.text w.lexeme = some token) :
    readWords atof [w] = some [token] := by
  rw [readWords, List.mapM_cons, h]
  rfl

/-- The words of several parts are read part by part. -/
theorem readWords_flatMap {α : Type} {words : α → List Word} {tokens : α → List (Token δ)}
    (xs : List α) (h : ∀ x ∈ xs, readWords atof (words x) = some (tokens x)) :
    readWords atof (xs.flatMap words) = some (xs.flatMap tokens) := by
  induction xs with
  | nil => rfl
  | cons x xs ih =>
    rw [List.flatMap_cons, List.flatMap_cons]
    exact readWords_append (h x List.mem_cons_self)
      (ih fun x' hx' => h x' (List.mem_cons_of_mem _ hx'))

theorem WrittenCommand.readWords_words (c : WrittenCommand) :
    readWords atof c.words = some (c.command atof).tokens := by
  have hargs := @readWords_flatMap _ atof _ (fun a : ArgValue => [a.word])
    (fun a => [(a.token atof).token]) c.args fun a _ => readWords_singleton a.readLexeme_word
  rw [← List.map_eq_flatMap, ← List.map_eq_flatMap] at hargs
  rw [LineCommand.tokens, command, List.map_map]
  exact readWords_append (readWords_singleton rfl) hargs

/-- **The words of a plan are read as its tokens.** -/
theorem readWords_lineWords (cs : List WrittenCommand) :
    readWords atof (lineWords cs) = some (Line.tokens (cs.map (WrittenCommand.command atof))) := by
  cases cs with
  | nil => rfl
  | cons c cs =>
    rw [List.map_cons, Line.tokens, Line.pipedTokens, List.flatMap_map]
    exact readWords_append c.readWords_words (readWords_flatMap cs fun c _ =>
      readWords_append (readWords_singleton (w := pipeWord) rfl) c.readWords_words)

/-- The words with a blank in front of each. -/
def render (ws : List Word) : List Char := ws.flatMap fun w => ' ' :: w.text

/-- Every list of words can be written. -/
theorem written_render (ws : List Word) : Written (render ws) ws := by
  induction ws with
  | nil => exact .nil fun c hc => by cases hc
  | cons w ws ih =>
    have hblank : ∀ c ∈ (render ws).head?, c = ' ' := by
      rintro c hc
      rcases ws with - | ⟨w', ws⟩
      · cases hc
      · exact (Option.some.inj hc).symm
    have hends : w.EndsAt (render ws) := by
      rw [Word.EndsAt]
      split
      · trivial
      · trivial
      · exact fun c hc => hblank c hc ▸ by decide
      · exact fun c hc => hblank c hc ▸ by decide
      · exact fun c hc => hblank c hc ▸ by decide
      · exact fun c hc => hblank c hc ▸ by decide
    exact @Written.cons [' '] _ _ _ (List.forall_mem_singleton.mpr rfl) hends ih

/-- **Every plan can be written, and is planned from its text**: the names of the commands in upper
case, and the values of their arguments, whatever white space is around the words. -/
theorem planText_lineWords (cs : List WrittenCommand) :
    Written (render (lineWords cs)) (lineWords cs) ∧
      ∀ text, Written text (lineWords cs) →
        ∃ st : PlanState δ, planText atof text = some (st, .continue) ∧
          st.plan.map (fun cmd => (cmd.name, cmd.args)) =
            cs.map (fun c => ((textBytes c.name).map toUpper,
              c.args.map fun a => (a.token atof).arg)) ∧
          (st.plan.map Command.address).Nodup := by
  refine ⟨written_render _, fun text h => ?_⟩
  obtain ⟨st, hst, hplan⟩ := planLoop_line (cs.map (WrittenCommand.command atof)) (by
    intro c hc
    obtain ⟨c', -, rfl⟩ := List.mem_map.mp hc
    rw [WrittenCommand.command, textBytes, List.length_map]
    exact c'.fits)
  refine ⟨st, (planText_written h (readWords_lineWords cs)).trans hst, ?_, ?_⟩
  · rw [hplan, Line.commands_map, List.map_map]
    refine List.map_congr_left fun c _ => ?_
    simp [WrittenCommand.command]
  · rw [hplan, Line.commands_address]
    exact List.nodup_range'

/-- A plan of two commands, with an argument of each kind. -/
def rangeFadePlan : List WrittenCommand :=
  [{ name := "Range".toList
     args :=
      [.str "mic 1".toList ((RegularExpression.rmatch_iff_matches' _ _).mp (by decide +kernel)),
        .float "-.5".toList ((RegularExpression.rmatch_iff_matches' _ _).mp (by decide +kernel)),
        .int 30]
     isName := (RegularExpression.rmatch_iff_matches' _ _).mp (by decide +kernel)
     fits := by decide },
   { name := "fade_in".toList
     args := [.int (-7), .time 1735689600000 (by decide +kernel)]
     isName := (RegularExpression.rmatch_iff_matches' _ _).mp (by decide +kernel)
     fits := by decide }]

example : String.ofList (render (lineWords rangeFadePlan)) =
    " Range 'mic 1' -.5 30 |> fade_in -7 2025-01-01T00:00:00.000Z" := by
  decide +kernel

end Racs
