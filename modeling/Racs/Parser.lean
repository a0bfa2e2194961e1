import Racs.Exec
import Racs.TimeLiterals
import Mathlib.Data.Bool.AllAny

/-!
# The lexer

`racs_parser_next_token` (`parser.c`) skips white space, and the first character of the text that
remains tells which expressions are tried on it. Of a match only the length is used: the token is
the text of that length at the cursor. The expressions for strings and for pipes are not anchored,
so that the length can be that of a match further on in the text.

A text is the list of its characters, one for each byte, and the classes of characters are those of
the C locale. Offsets are not bounded.

## Main definitions

* `Racs.Lexeme`, `Racs.Lexeme.regex` — the kinds of tokens that have an expression.
* `Racs.Parser`, `Racs.nextToken`.
* `Racs.LexesAtCursor` — a token is read where the cursor is.
* `Racs.AtCursor` — no string and no pipe is found behind the cursor only.

## Main results

* `Racs.lexesAtCursor_iff` — where the lexer reads the token at the cursor.
-/

namespace Racs

open Regex

variable {δ : Type}

/-! ### The expressions -/

/-- The bracket expression `[a-zA-Z]`. -/
def letters : List Char := "abcdefghijklmnopqrstuvwxyzABCDEFGHIJKLMNOPQRSTUVWXYZ".toList

/-- The bracket expression `[^'\\]`. -/
def strChars : List Char :=
  ((List.range 256).map Char.ofNat).filter fun c => c ≠ '\'' ∧ c ≠ '\\'

/-- `RACS_REGEX_PIPE`. -/
def regexPipe : Pattern Char where
  anchored := false
  body := text "|>".toList

/-- `RACS_REGEX_STR`. -/
def regexStr : Pattern Char where
  anchored := false
  body := .char '\'' * ((oneOf strChars).star *
    (.char '\\' * (.char '\'' * (oneOf strChars).star)).star * .char '\'')

/-- `RACS_REGEX_ID`. -/
def regexId : Pattern Char where
  anchored := true
  body := oneOf ('_' :: letters) * (oneOf ('_' :: (letters ++ digits))).star

/-- `RACS_REGEX_FLOAT`. -/
def regexFloat : Pattern Char where
  anchored := true
  body := opt (oneOf signs) * ((oneOf digits).star * (.char '.' * plus (oneOf digits)) +
    plus (oneOf digits) * (.char '.' * (oneOf digits).star))

/-- The values of `racs_token_type` for tokens that have an expression. -/
inductive Lexeme
  | id
  | str
  | pipe
  | int
  | float
  | time
  deriving DecidableEq

/-- The expression of a kind of token. -/
def Lexeme.regex : Lexeme → Pattern Char
  | .id => regexId
  | .str => regexStr
  | .pipe => regexPipe
  | .int => regexInt
  | .float => regexFloat
  | .time => regexTime

/-! ### The lexer -/

/-- `racs_parser`: the text from the cursor on, and the offset of the cursor. -/
structure Parser where
  ptr : List Char
  curr : ℕ
  deriving DecidableEq

/-- `racs_parser_init`. -/
def parserInit (source : List Char) : Parser := ⟨source, 0⟩

/-- `racs_parser_advance`. -/
def parserAdvance (parser : Parser) (step : ℕ) : Parser :=
  ⟨parser.ptr.drop step, parser.curr + step⟩

/-- `isspace`. -/
def isSpace (c : Char) : Bool := c = ' ' ∨ 9 ≤ c.toNat ∧ c.toNat ≤ 13

/-- The loop of `racs_parser_next_token` that skips white space. -/
def skipSpace (parser : Parser) : Parser :=
  parserAdvance parser (parser.ptr.takeWhile isSpace).length

/-- The bytes of a text. -/
def textBytes (cs : List Char) : List UInt8 := cs.map fun c => c.toNat.toUInt8

/-- `racs_match_token`. -/
def matchToken (ptr : List Char) (pattern : Pattern Char) : Option (ℕ × ℕ) := pattern.exec ptr

/-- `racs_parser_lex_token_time`. -/
def lexTokenTime (parser : Parser) (m : ℕ × ℕ) : Option (Token δ × Parser) :=
  let size := m.2 - m.1
  (timeFromRfc3339 (parser.ptr.take size)).map fun t => (.time t, parserAdvance parser size)

/-- `racs_parser_lex_token_str`. -/
def lexTokenStr (parser : Parser) (m : ℕ × ℕ) : Token δ × Parser :=
  let size := m.2 - m.1 - 2
  let parser := parserAdvance parser 1
  (.str (textBytes (parser.ptr.take size)), parserAdvance parser (size + 1))

/-- `racs_parser_lex_token_id`. -/
def lexTokenId (parser : Parser) (m : ℕ × ℕ) : Token δ × Parser :=
  let size := m.2 - m.1
  (.id (textBytes (parser.ptr.take size)), parserAdvance parser size)

/-- `racs_parser_lex_token_int64`. -/
def lexTokenInt64 (parser : Parser) (m : ℕ × ℕ) : Option (Token δ × Parser) :=
  let size := m.2 - m.1
  (strtoull (parser.ptr.take size)).map fun n => (.int n.toInt64, parserAdvance parser size)

/-- `racs_parser_lex_token_float64`. -/
def lexTokenFloat64 (atof : List Char → δ) (parser : Parser) (m : ℕ × ℕ) : Token δ × Parser :=
  let size := m.2 - m.1
  (.float (atof (parser.ptr.take size)), parserAdvance parser size)

/-- `racs_parser_lex_token_pipe`. -/
def lexTokenPipe (parser : Parser) (m : ℕ × ℕ) : Token δ × Parser :=
  (.pipe, parserAdvance parser (m.2 - m.1))

/-- `racs_parser_token_error`. -/
def tokenError (parser : Parser) : Token δ := .error (ascii s!"Invalid token at {parser.curr}")

variable (atof : List Char → δ)

/-- The token of a match. -/
def lexToken (parser : Parser) (m : ℕ × ℕ) : Lexeme → Option (Token δ × Parser)
  | .id => some (lexTokenId parser m)
  | .str => some (lexTokenStr parser m)
  | .pipe => some (lexTokenPipe parser m)
  | .int => lexTokenInt64 parser m
  | .float => some (lexTokenFloat64 atof parser m)
  | .time => lexTokenTime parser m

/-- The expressions that are tried on a text with this first character, in their order. -/
def candidates (c : Char) : List Lexeme :=
  [if c = '+' ∨ c = '-' then [.float, .int] else [],
    if c.isDigit then [.time, .float, .int] else [],
    if c = '.' then [.float] else [],
    if c = '\'' then [.str] else [],
    if c = '|' then [.pipe] else [],
    if c.isAlpha ∨ c = '_' then [.id] else []].flatten

/-- `racs_parser_next_token`, where the end of the text is the token none. -/
def nextToken (parser : Parser) : Option (Option (Token δ) × Parser) :=
  let parser := skipSpace parser
  match parser.ptr with
  | [] => some (none, parser)
  | c :: _ =>
    match (candidates c).findSome? fun l => (matchToken parser.ptr l.regex).map fun m => (l, m) with
    | some (l, m) => (lexToken atof parser m l).map fun (token, parser) => (some token, parser)
    | none => some (some (tokenError parser), parser)

/-! ### Tokens at the cursor -/

/-- The token that stands for a text. -/
def readLexeme (s : List Char) : Lexeme → Option (Token δ)
  | .id => some (.id (textBytes s))
  | .str => some (.str (textBytes s.tail.dropLast))
  | .pipe => some .pipe
  | .int => (strtoull s).map fun n => .int n.toInt64
  | .float => some (.float (atof s))
  | .time => (timeFromRfc3339 s).map .time

/-- Behind white space, the text ends, or a token is read whose text starts at the cursor and is the
longest that its expression matches there, and the cursor moves over this text, or there is an error
token and no expression matches at the cursor. -/
def LexesAtCursor (parser : Parser) : Prop :=
  let start : Parser := ⟨parser.ptr.dropWhile isSpace,
    parser.curr + (parser.ptr.takeWhile isSpace).length⟩
  (start.ptr = [] ∧ nextToken atof parser = some (none, start)) ∨
  (∃ l s rest token, start.ptr = s ++ rest ∧ LongestMatch (Lexeme.regex l).body start.ptr s ∧
    readLexeme atof s l = some token ∧
    nextToken atof parser = some (some token, ⟨rest, start.curr + s.length⟩)) ∨
  ((∀ l s, s <+: start.ptr → s ∉ (Lexeme.regex l).body.matches') ∧
    nextToken atof parser = some (some (tokenError start), start))

/-- An expression matches at the front of a text, or nowhere in it. -/
def FrontOrNowhere (l : Lexeme) (t : List Char) : Prop :=
  (∃ s, s <+: t ∧ s ∈ l.regex.body.matches') ∨ ∀ s, s <:+: t → s ∉ l.regex.body.matches'

/-- A text whose token is read at the cursor: if it begins with a quote or a bar, a string or a pipe
is there or nowhere behind it, and the digits of the fraction of a time are an `int`. -/
structure AtCursor (t : List Char) : Prop where
  str : t.head? = some '\'' → FrontOrNowhere .str t
  pipe : t.head? = some '|' → FrontOrNowhere .pipe t
  time : ∀ lit : TimeLiteral, LongestMatch regexTime.body t lit.text →
    lit.fractionNumber < 2 ^ 31

/-! ### The first character of a token -/

/-- The first character of a text that an expression matches is one on which it is tried. -/
theorem exists_cons_of_mem {l : Lexeme} {s : List Char} (h : s ∈ l.regex.body.matches') :
    ∃ c t, s = c :: t ∧ l ∈ candidates c := by
  have hdigit : ∀ c ∈ digits, Lexeme.time ∈ candidates c ∧ Lexeme.float ∈ candidates c ∧
      Lexeme.int ∈ candidates c := List.all_iff_forall_prop.mp (by decide)
  have hsign : ∀ c ∈ signs, Lexeme.float ∈ candidates c ∧ Lexeme.int ∈ candidates c :=
    List.all_iff_forall_prop.mp (by decide)
  have hid : ∀ c ∈ '_' :: letters, Lexeme.id ∈ candidates c :=
    List.all_iff_forall_prop.mp (by decide)
  cases l
  case id =>
    obtain ⟨a, ha, t, -, rfl⟩ := Language.mem_mul.mp h
    obtain ⟨c, hc, rfl⟩ := mem_oneOf.mp ha
    exact ⟨c, t, rfl, hid c hc⟩
  case str =>
    obtain ⟨t, -, rfl⟩ := mem_char_mul.mp h
    exact ⟨'\'', t, rfl, by decide⟩
  case pipe => exact ⟨'|', ['>'], mem_text.mp h, by decide⟩
  case int =>
    obtain ⟨a, ha, b, hb, rfl⟩ := Language.mem_mul.mp h
    rcases mem_opt.mp ha with rfl | ha
    · obtain ⟨hne, hb⟩ := mem_plus_oneOf.mp hb
      obtain ⟨c, t, rfl⟩ := List.exists_cons_of_ne_nil hne
      exact ⟨c, t, rfl, (hdigit c (hb c List.mem_cons_self)).2.2⟩
    · obtain ⟨c, hc, rfl⟩ := mem_oneOf.mp ha
      exact ⟨c, b, rfl, (hsign c hc).2⟩
  case float =>
    obtain ⟨a, ha, b, hb, rfl⟩ := Language.mem_mul.mp h
    rcases mem_opt.mp ha with rfl | ha
    · rcases hb with hb | hb
      · obtain ⟨ds, hds, u, hu, rfl⟩ := Language.mem_mul.mp hb
        rcases ds with - | ⟨c, ds⟩
        · obtain ⟨t, -, rfl⟩ := mem_char_mul.mp hu
          exact ⟨'.', t, rfl, by decide⟩
        · exact ⟨c, ds ++ u, rfl, (hdigit c (mem_star_oneOf.mp hds c List.mem_cons_self)).2.1⟩
      · obtain ⟨ds, hds, u, -, rfl⟩ := Language.mem_mul.mp hb
        obtain ⟨hne, hds⟩ := mem_plus_oneOf.mp hds
        obtain ⟨c, t, rfl⟩ := List.exists_cons_of_ne_nil hne
        exact ⟨c, t ++ u, rfl, (hdigit c (hds c List.mem_cons_self)).2.1⟩
    · obtain ⟨c, hc, rfl⟩ := mem_oneOf.mp ha
      exact ⟨c, b, rfl, (hsign c hc).1⟩
  case time =>
    obtain ⟨a, ha, t, -, rfl⟩ := Language.mem_mul.mp h
    obtain ⟨hlen, ha⟩ := mem_pow_oneOf.mp ha
    obtain ⟨c, b, rfl⟩ := List.exists_cons_of_ne_nil
      (List.ne_nil_of_length_pos (by rw [hlen]; exact Nat.succ_pos 3))
    exact ⟨c, b ++ t, rfl, (hdigit c (ha c List.mem_cons_self)).1⟩

/-- A match in a text is tried on its first character. -/
theorem mem_candidates_of_front {l : Lexeme} {c : Char} {t s : List Char} (hs : s <+: c :: t)
    (h : s ∈ l.regex.body.matches') : l ∈ candidates c := by
  obtain ⟨d, u, rfl, hd⟩ := exists_cons_of_mem h
  obtain ⟨rfl, -⟩ := List.cons_prefix_cons.mp hs
  exact hd

theorem candidates_of_time {c : Char} (h : Lexeme.time ∈ candidates c) :
    candidates c = [.time, .float, .int] := by
  have hdigit : c.isDigit = true := by
    by_contra hdigit
    simp [candidates, hdigit] at h
  have hall : ∀ c ∈ digits, candidates c = [.time, .float, .int] :=
    List.all_iff_forall_prop.mp (by decide)
  exact hall c (mem_digits.mpr hdigit)

/-! ### The token of a match at the cursor -/

/-- A string has its two quotes. -/
theorem exists_of_mem_regexStr {s : List Char} (h : s ∈ regexStr.body.matches') :
    ∃ c u, s = c :: u ∧ u ≠ [] := by
  obtain ⟨t, ht, rfl⟩ := mem_char_mul.mp h
  obtain ⟨a, -, b, hb, rfl⟩ := Language.mem_mul.mp ht
  rw [hb]
  exact ⟨'\'', a ++ ['\''], rfl, List.append_ne_nil_of_right_ne_nil _ (List.cons_ne_nil _ _)⟩

variable {parser : Parser} {s rest : List Char} {l : Lexeme}

/-- A match at the cursor is read as it stands, and the cursor moves over it. -/
theorem lexToken_front (hptr : parser.ptr = s ++ rest) (h : s ∈ l.regex.body.matches') :
    lexToken atof parser (0, s.length) l =
      (readLexeme atof s l).map fun token => (token, ⟨rest, parser.curr + s.length⟩) := by
  have htake : parser.ptr.take s.length = s := by rw [hptr, List.take_left]
  have hdrop : parserAdvance parser s.length = ⟨rest, parser.curr + s.length⟩ := by
    rw [parserAdvance, hptr, List.drop_left]
  cases l
  case id => simp only [lexToken, lexTokenId, Nat.sub_zero, htake, hdrop]; rfl
  case pipe => simp only [lexToken, lexTokenPipe, Nat.sub_zero, hdrop]; rfl
  case float => simp only [lexToken, lexTokenFloat64, Nat.sub_zero, htake, hdrop]; rfl
  case int =>
    simp only [lexToken, lexTokenInt64, Nat.sub_zero, htake, hdrop, readLexeme, Option.map_map]
    rfl
  case time =>
    simp only [lexToken, lexTokenTime, Nat.sub_zero, htake, hdrop, readLexeme, Option.map_map]
    rfl
  case str =>
    obtain ⟨c, u, rfl, hu⟩ := exists_of_mem_regexStr h
    have hlen := List.length_pos_iff.mpr hu
    have hinner : (parserAdvance parser 1).ptr.take (u.length + 1 - 0 - 2) = u.dropLast := by
      rw [parserAdvance, hptr, List.cons_append, List.drop_one, List.tail_cons,
        List.dropLast_eq_take, List.take_append_of_le_length (by omega)]
      rfl
    have hend : parserAdvance (parserAdvance parser 1) (u.length + 1 - 0 - 2 + 1) =
        ⟨rest, parser.curr + (u.length + 1)⟩ := by
      rw [← List.length_cons, ← hdrop]
      simp only [parserAdvance, List.drop_drop, List.length_cons, Parser.mk.injEq]
      exact ⟨congrArg (parser.ptr.drop ·) (by omega), by omega⟩
    simp only [lexToken, lexTokenStr, List.length_cons, hinner, hend]
    rfl

/-! ### The token at the cursor -/

theorem skipSpace_eq (parser : Parser) :
    skipSpace parser = ⟨parser.ptr.dropWhile isSpace,
      parser.curr + (parser.ptr.takeWhile isSpace).length⟩ := by
  have hdrop : parser.ptr.drop (parser.ptr.takeWhile isSpace).length =
      parser.ptr.dropWhile isSpace := by
    conv_lhs => rw [← @List.takeWhile_append_dropWhile _ isSpace parser.ptr]
    rw [List.drop_left' (by rw [List.takeWhile_append_dropWhile])]
  rw [skipSpace, parserAdvance, hdrop]

/-- What the lexer does with a text that is not empty: it reads a match at the cursor, it reads a
string or a pipe that is further on only, or nothing matches. -/
theorem nextToken_cases (parser : Parser) {start : Parser} (hstart : skipSpace parser = start)
    {c : Char} {t : List Char} (hptr : start.ptr = c :: t) :
    (∃ l s rest, start.ptr = s ++ rest ∧ LongestMatch (Lexeme.regex l).body start.ptr s ∧
      (.time ∈ candidates c → (∃ n, longest regexTime.body start.ptr = some n) → l = .time) ∧
      nextToken atof parser = (readLexeme atof s l).map fun token =>
        (some token, ⟨rest, start.curr + s.length⟩)) ∨
    (∃ l ∈ candidates c, (l = .str ∨ l = .pipe) ∧ longest (Lexeme.regex l).body start.ptr = none ∧
      ∃ m, search (Lexeme.regex l).body start.ptr = some m ∧
        nextToken atof parser = (lexToken atof start m l).map fun (token, parser) =>
          (some token, parser)) ∨
    ((∀ l ∈ candidates c, matchToken start.ptr l.regex = none) ∧
      nextToken atof parser = some (some (tokenError start), start)) := by
  have hnext : nextToken atof parser =
      match (candidates c).findSome? fun l =>
        (matchToken start.ptr l.regex).map fun m => (l, m) with
      | some (l, m) => (lexToken atof start m l).map fun (token, parser) => (some token, parser)
      | none => some (some (tokenError start), start) := by
    simp only [nextToken, hstart]
    split
    · rename_i hnil
      cases hptr.symm.trans hnil
    · rename_i d u hcons
      rw [(List.cons.inj (hptr.symm.trans hcons)).1]
  rcases hfind : (candidates c).findSome? fun l =>
      (matchToken start.ptr l.regex).map fun m => (l, m) with - | ⟨l, m⟩
  · refine .inr (.inr ⟨fun l hl => ?_, by rw [hnext, hfind]⟩)
    exact Option.map_eq_none_iff.mp (List.findSome?_eq_none_iff.mp hfind l hl)
  · obtain ⟨l', hl', hmap⟩ := List.exists_of_findSome?_eq_some hfind
    obtain ⟨m', hm, heq⟩ := Option.map_eq_some_iff.mp hmap
    obtain ⟨rfl, rfl⟩ := Prod.mk.inj heq
    rw [hfind] at hnext
    rcases l'.regex.exec_cases start.ptr with
      ⟨n, hn, hexec⟩ | ⟨-, hexec⟩ | ⟨hanchored, hn, m, hm', hexec⟩
    · obtain ⟨s, hs, rfl⟩ := longest_eq_some_iff.mp hn
      obtain ⟨rest, hrest⟩ := hs.isPrefix
      have hfront := Option.some.inj (hm.symm.trans hexec)
      refine .inl ⟨l', s, rest, hrest.symm, hs, fun htime ⟨n, hn⟩ => ?_, ?_⟩
      · -- the expression for times is tried first
        rw [candidates_of_time htime, List.findSome?_cons] at hfind
        have htime : matchToken start.ptr Lexeme.time.regex = some (0, n) := by
          rw [matchToken, Pattern.exec]
          exact congrArg (Option.map _) hn
        rw [htime] at hfind
        exact (Prod.mk.inj (Option.some.inj hfind)).1.symm
      · rw [hnext, hfront]
        dsimp only
        rw [lexToken_front atof hrest.symm hs.matched, Option.map_map]
        rfl
    · cases hm.symm.trans hexec
    · refine .inr (.inl ⟨l', hl', ?_, hn, m', ?_, hnext⟩)
      · cases l' <;> first | exact .inl rfl | exact .inr rfl | cases hanchored
      · exact hm'.trans (hexec.symm.trans hm)

theorem longest_of_matchToken {t : List Char} (h : matchToken t l.regex = none) :
    longest l.regex.body t = none := by
  rcases l.regex.exec_cases t with ⟨n, -, hexec⟩ | ⟨hn, -⟩ | ⟨-, hn, -⟩
  · cases h.symm.trans hexec
  · exact hn
  · exact hn

theorem eq_of_str_mem {c : Char} (h : Lexeme.str ∈ candidates c) : c = '\'' := by
  by_contra hc
  simp [candidates, hc] at h

theorem eq_of_pipe_mem {c : Char} (h : Lexeme.pipe ∈ candidates c) : c = '|' := by
  by_contra hc
  simp [candidates, hc] at h

/-- The text of a match is read, that of a time if the digits of its fraction are an `int`. -/
theorem isSome_readLexeme_iff (h : s ∈ l.regex.body.matches') :
    (readLexeme atof s l).isSome = true ↔
      (l = .time → ∀ lit : TimeLiteral, lit.text = s → lit.fractionNumber < 2 ^ 31) := by
  cases l
  case int =>
    obtain ⟨lit, rfl⟩ := mem_regexInt.mp h
    rw [readLexeme, strtoull_text]
    exact iff_of_true rfl fun htime => by cases htime
  case time =>
    obtain ⟨lit, rfl⟩ := mem_regexTime.mp h
    rw [readLexeme, Option.isSome_map, forall_prop_of_true rfl]
    constructor
    · intro hsome lit' heq
      rw [← heq] at hsome
      exact (isSome_timeFromRfc3339_iff lit').mp hsome
    · exact fun hall => (isSome_timeFromRfc3339_iff lit).mpr (hall lit rfl)
  all_goals exact iff_of_true rfl fun htime => by cases htime

/-- The kind of a token that has an expression. -/
def Token.lexeme : Token δ → Option Lexeme
  | .id _ => some .id
  | .str _ => some .str
  | .pipe => some .pipe
  | .int _ => some .int
  | .time _ => some .time
  | .float _ => some .float
  | .error _ => none

theorem lexeme_of_readLexeme {token : Token δ} (h : readLexeme atof s l = some token) :
    token.lexeme = some l := by
  cases l
  case int =>
    obtain ⟨n, -, rfl⟩ := Option.map_eq_some_iff.mp h
    rfl
  case time =>
    obtain ⟨n, -, rfl⟩ := Option.map_eq_some_iff.mp h
    rfl
  all_goals
    rw [← Option.some.inj h]
    rfl

theorem exists_lexToken (hl : l = .str ∨ l = .pipe) (start : Parser) (m : ℕ × ℕ) :
    ∃ token parser', lexToken atof start m l = some (token, parser') ∧ token.lexeme = some l := by
  rcases hl with rfl | rfl
  · exact ⟨_, _, rfl, rfl⟩
  · exact ⟨_, _, rfl, rfl⟩

/-- At the end of the text nothing is left to match. -/
theorem atCursor_nil : AtCursor [] := by
  refine ⟨fun h => (by cases h), fun h => (by cases h), fun lit h => ?_⟩
  obtain ⟨c, t, heq, -⟩ := @exists_cons_of_mem .time _ h.matched
  cases (List.prefix_nil.mp h.isPrefix).symm.trans heq

variable {c : Char} {t : List Char}

/-- Where an expression matches at the cursor, only the value of a time may be missing. -/
theorem atCursor_iff_of_match (hmatch : LongestMatch l.regex.body (c :: t) s)
    (htime : .time ∈ candidates c → (∃ n, longest regexTime.body (c :: t) = some n) → l = .time) :
    AtCursor (c :: t) ↔ (readLexeme atof s l).isSome = true := by
  have hl := mem_candidates_of_front hmatch.isPrefix hmatch.matched
  rw [isSome_readLexeme_iff atof hmatch.matched]
  constructor
  · rintro hcursor rfl lit rfl
    exact hcursor.time lit hmatch
  · intro hread
    have hfront : ∀ l', candidates c = [l'] → FrontOrNowhere l' (c :: t) := by
      intro l' hcandidates
      rw [hcandidates, List.mem_singleton] at hl
      exact .inl ⟨s, hmatch.isPrefix, hl ▸ hmatch.matched⟩
    refine ⟨fun hc => hfront .str ?_, fun hc => hfront .pipe ?_, fun lit hlit => ?_⟩
    · rw [Option.some.inj hc]
      decide
    · rw [Option.some.inj hc]
      decide
    · obtain rfl := htime (@mem_candidates_of_front .time _ _ _ hlit.isPrefix hlit.matched)
        ⟨_, longest_eq_some_iff.mpr ⟨_, hlit, rfl⟩⟩
      exact hread rfl lit (hlit.unique hmatch)

/-- A string or a pipe that is found further on only is neither at the front nor nowhere. -/
theorem not_atCursor_of_search (hl : l ∈ candidates c) (hkind : l = .str ∨ l = .pipe)
    {m : ℕ × ℕ} (hfront : longest l.regex.body (c :: t) = none)
    (hfound : search l.regex.body (c :: t) = some m) : ¬ AtCursor (c :: t) := by
  have hnot : ¬ FrontOrNowhere l (c :: t) := by
    rintro (⟨s, hs, hmem⟩ | hnowhere)
    · exact longest_eq_none_iff.mp hfront s hs hmem
    · cases hfound.symm.trans (search_eq_none_iff.mpr hnowhere)
  intro hcursor
  rcases hkind with rfl | rfl
  · exact hnot (hcursor.str (congrArg some (eq_of_str_mem hl)))
  · exact hnot (hcursor.pipe (congrArg some (eq_of_pipe_mem hl)))

/-- Where no expression that is tried matches, no expression matches at the cursor. -/
theorem atCursor_of_none (hnone : ∀ l ∈ candidates c, matchToken (c :: t) l.regex = none) :
    (∀ l s, s <+: c :: t → s ∉ (Lexeme.regex l).body.matches') ∧ AtCursor (c :: t) := by
  have hfront : ∀ l s, s <+: c :: t → s ∉ (Lexeme.regex l).body.matches' := fun l s hs hmem =>
    longest_eq_none_iff.mp
      (longest_of_matchToken (hnone l (mem_candidates_of_front hs hmem))) s hs hmem
  refine ⟨hfront, fun hc => .inr ?_, fun hc => .inr ?_, fun lit h => ?_⟩
  · obtain rfl := Option.some.inj hc
    exact search_eq_none_iff.mp (hnone .str (by decide))
  · obtain rfl := Option.some.inj hc
    exact search_eq_none_iff.mp (hnone .pipe (by decide))
  · exact absurd h.matched (hfront .time _ h.isPrefix)

/-- A token whose expression does not match at the cursor is not read there. -/
theorem not_lexesAtCursor {parser parser' : Parser} {token : Token δ}
    (hnext : nextToken atof parser = some (some token, parser')) (hlexeme : token.lexeme = some l)
    (hfront : longest l.regex.body (parser.ptr.dropWhile isSpace) = none) :
    ¬ LexesAtCursor atof parser := by
  rintro (⟨-, heq⟩ | ⟨l', s, rest, token', -, hmatch, hread, heq⟩ | ⟨-, heq⟩)
  · cases hnext.symm.trans heq
  · have htoken := Option.some.inj (Prod.mk.inj (Option.some.inj (hnext.symm.trans heq))).1
    have hlexeme' := lexeme_of_readLexeme atof hread
    rw [← htoken, hlexeme] at hlexeme'
    obtain rfl := Option.some.inj hlexeme'
    exact longest_eq_none_iff.mp hfront s hmatch.isPrefix hmatch.matched
  · have htoken := Option.some.inj (Prod.mk.inj (Option.some.inj (hnext.symm.trans heq))).1
    rw [htoken] at hlexeme
    cases hlexeme

/-- **Where the lexer reads the token at the cursor.** -/
theorem lexesAtCursor_iff (parser : Parser) :
    LexesAtCursor atof parser ↔ AtCursor (parser.ptr.dropWhile isSpace) := by
  obtain ⟨start, hstart⟩ : ∃ start, skipSpace parser = start := ⟨_, rfl⟩
  have hskip := hstart.symm.trans (skipSpace_eq parser)
  have hptr : parser.ptr.dropWhile isSpace = start.ptr := by rw [hskip]
  rcases ht : start.ptr with - | ⟨c, t⟩
  · rw [LexesAtCursor, ← hskip, hptr, ht]
    refine iff_of_true (.inl ⟨rfl, ?_⟩) atCursor_nil
    simp only [nextToken, hstart, ht]
  · have hcases := nextToken_cases atof parser hstart ht
    rw [ht] at hptr hcases
    rcases hcases with ⟨l, s, rest, hs, hmatch, htime, hnext⟩ |
      ⟨l, hl, hkind, hfront, m, hfound, hnext⟩ | ⟨hnone, hnext⟩
    · rw [hptr, atCursor_iff_of_match atof hmatch htime, LexesAtCursor, ← hskip, ht, hnext]
      rcases hread : readLexeme atof s l with - | token
      · refine iff_of_false ?_ Bool.false_ne_true
        rintro (⟨hnil, -⟩ | ⟨_, _, _, _, -, -, -, heq⟩ | ⟨-, heq⟩)
        · cases hnil
        · cases heq
        · cases heq
      · exact iff_of_true (.inr (.inl ⟨l, s, rest, token, hs, hmatch, hread, rfl⟩)) rfl
    · obtain ⟨token, parser', htoken, hlexeme⟩ := exists_lexToken atof hkind start m
      rw [htoken] at hnext
      rw [hptr]
      exact iff_of_false (not_lexesAtCursor atof hnext hlexeme (hptr ▸ hfront))
        (not_atCursor_of_search hl hkind hfront hfound)
    · obtain ⟨hfront, hcursor⟩ := atCursor_of_none hnone
      rw [hptr, LexesAtCursor, ← hskip, ht]
      exact iff_of_true (.inr (.inr ⟨hfront, hnext⟩)) hcursor

/-- A lone bar is read as the pipe further on, and a string with a backslash in it as a text with
the length of the next string that matches. -/
theorem not_lexesAtCursor_bar :
    (@nextToken Platform.rational.Double (fun _ => none) (parserInit "| x |>".toList) =
        some (some .pipe, ⟨"x |>".toList, 2⟩) ∧
      ¬ @LexesAtCursor Platform.rational.Double (fun _ => none) (parserInit "| x |>".toList)) ∧
    @nextToken Platform.rational.Double (fun _ => none) (parserInit "'\\a''".toList) =
        some (some (.str []), ⟨"a''".toList, 2⟩) ∧
      ¬ @LexesAtCursor Platform.rational.Double (fun _ => none)
        (parserInit "'\\a''".toList) := by
  have hbar : @nextToken Platform.rational.Double (fun _ => none) (parserInit "| x |>".toList) =
      some (some .pipe, ⟨"x |>".toList, 2⟩) := by
    decide +kernel
  have hstr : @nextToken Platform.rational.Double (fun _ => none)
      (parserInit "'\\a''".toList) = some (some (.str []), ⟨"a''".toList, 2⟩) := by
    decide +kernel
  exact ⟨⟨hbar, not_lexesAtCursor _ hbar rfl (by decide +kernel)⟩, hstr,
    not_lexesAtCursor _ hstr rfl (by decide +kernel)⟩

end Racs
