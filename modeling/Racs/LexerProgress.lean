import Racs.Parser

/-!
# Planning ends inside the text

The loop of `racs_exec_plan_build` (`exec.c`) takes tokens from the lexer until the text ends or a
token is rejected. The lexer moves its cursor by the length of a match, wherever in the text the
match is, and not at all for a token that it does not know; such a token is always rejected.

Here the cursor and the loop stand by themselves. What a token is worth plays no part in how they
move, also where its conversion is undefined, and what the planner does with the tokens that it
knows is a parameter, as POSIX makes offsets wide enough for every text.

## Main definitions

* `Racs.lexNext` — `racs_parser_next_token` without the values of the tokens.
* `Racs.PlanLoop`, `Racs.planPass` — the loop of `racs_exec_plan_build`.
* `Racs.Parser.In` — the cursor is inside of a text.

## Main results

* `Racs.planLoop_ends` — the loop ends, each token moves the cursor, and it stays inside the text.
* `Racs.nextToken_eq`, `Racs.planPass_planHandle` — the lexer and the planner with values.
-/

namespace Racs

open Regex

/-! ### Tokens without values -/

/-- `racs_token_type`; the types with an expression are those of `Racs.Lexeme`. -/
inductive TokenType
  | lexeme (l : Lexeme)
  | eof
  | error
  deriving DecidableEq

/-- A token: its type and the text that its value is made of. -/
structure LexedToken where
  type : TokenType
  text : List Char
  deriving DecidableEq

/-- The text of a match. -/
def lexText (parser : Parser) (m : ℕ × ℕ) : Lexeme → List Char
  | .str => (parserAdvance parser 1).ptr.take (m.2 - m.1 - 2)
  | _ => parser.ptr.take (m.2 - m.1)

/-- The cursor behind a match. -/
def lexAdvance (parser : Parser) (m : ℕ × ℕ) : Lexeme → Parser
  | .str => parserAdvance (parserAdvance parser 1) (m.2 - m.1 - 2 + 1)
  | _ => parserAdvance parser (m.2 - m.1)

/-- The first expression that is found, of those that are tried on the text at the cursor. -/
def findLexeme (start : Parser) (c : Char) : Option (Lexeme × ℕ × ℕ) :=
  (candidates c).findSome? fun l => (matchToken start.ptr l.regex).map fun m => (l, m)

/-- `racs_parser_next_token`. -/
def lexNext (parser : Parser) : LexedToken × Parser :=
  let parser := skipSpace parser
  match parser.ptr with
  | [] => (⟨.eof, []⟩, parser)
  | c :: _ =>
    match findLexeme parser c with
    | some (l, m) => (⟨.lexeme l, lexText parser m l⟩, lexAdvance parser m l)
    | none => (⟨.error, s!"Invalid token at {parser.curr}".toList⟩, parser)

/-! ### The loop -/

/-- The variables of the loop of `racs_exec_plan_build`; `st` is what the functions that handle
tokens work on, with the previous token. -/
structure PlanLoop (σ : Type*) where
  curr : LexedToken
  parser : Parser
  rc : ExecStatus
  st : σ

variable {σ : Type*} (handle : σ → LexedToken → σ × ExecStatus)

/-- The `switch` of the loop: `handle` does what is done with a token that has an expression, and
with the message of an error. -/
def planSwitch (l : PlanLoop σ) : σ × ExecStatus :=
  match l.curr.type with
  | .lexeme _ => handle l.st l.curr
  | .error => ((handle l.st l.curr).1, .abort)
  | .eof => (l.st, l.rc)

/-- One pass of the loop. -/
def planPass (l : PlanLoop σ) : PlanLoop σ :=
  let s := planSwitch handle l
  let next := lexNext l.parser
  ⟨next.1, next.2, s.2, s.1⟩

/-- The variables in front of the loop. -/
def planStart (source : List Char) (st : σ) : PlanLoop σ :=
  let next := lexNext (parserInit source)
  ⟨next.1, next.2, .continue, st⟩

/-- The condition of the loop. -/
def PlanLoop.Continues (l : PlanLoop σ) : Prop := l.curr.type ≠ .eof ∧ l.rc = .continue

/-- The cursor is in front of a character of the text or of its terminator. -/
def Parser.In (source : List Char) (parser : Parser) : Prop :=
  parser.curr ≤ source.length ∧ parser.ptr = source.drop parser.curr

/-! ### The cursor -/

variable {source : List Char} {parser : Parser}

theorem parserInit_in (source : List Char) : (parserInit source).In source :=
  ⟨Nat.zero_le _, rfl⟩

/-- Moving over characters that are there. -/
theorem Parser.In.advance (h : parser.In source) {step : ℕ} (hstep : step ≤ parser.ptr.length) :
    (parserAdvance parser step).In source := by
  rw [h.2, List.length_drop] at hstep
  have hle := h.1
  refine ⟨?_, ?_⟩
  · rw [parserAdvance]
    dsimp only
    omega
  · rw [parserAdvance, h.2, List.drop_drop]

theorem Parser.In.skipSpace (h : parser.In source) : (skipSpace parser).In source :=
  h.advance (List.takeWhile_prefix isSpace).length_le

/-- A match is not empty and ends inside of the text, and that of a string has its two quotes. -/
theorem le_of_matchToken {ptr : List Char} {l : Lexeme} {m : ℕ × ℕ}
    (h : matchToken ptr l.regex = some m) :
    0 < m.2 - m.1 ∧ m.2 - m.1 ≤ ptr.length ∧ (l = .str → 2 ≤ m.2 - m.1) := by
  obtain ⟨s, hinfix, hs, hlen⟩ := Pattern.exists_of_exec h
  rw [← hlen]
  refine ⟨?_, hinfix.length_le, ?_⟩
  · obtain ⟨c, t, rfl, -⟩ := exists_cons_of_mem hs
    exact Nat.succ_pos _
  · rintro rfl
    obtain ⟨c, u, rfl, hu⟩ := exists_of_mem_regexStr hs
    exact Nat.succ_le_succ (List.length_pos_iff.mpr hu)

/-- A match moves the cursor over its length. -/
theorem lexAdvance_eq {l : Lexeme} {m : ℕ × ℕ} (h : matchToken parser.ptr l.regex = some m) :
    lexAdvance parser m l = parserAdvance parser (m.2 - m.1) := by
  obtain ⟨hpos, -, hstr⟩ := le_of_matchToken h
  cases l
  case str =>
    have htwo := hstr rfl
    rw [lexAdvance, parserAdvance, parserAdvance, parserAdvance, List.drop_drop]
    dsimp only
    rw [Nat.add_assoc]
    have hstep : 1 + (m.2 - m.1 - 2 + 1) = m.2 - m.1 := by omega
    rw [hstep]
  all_goals rfl

theorem findLexeme_eq_some {start : Parser} {c : Char} {l : Lexeme} {m : ℕ × ℕ}
    (h : findLexeme start c = some (l, m)) : matchToken start.ptr l.regex = some m := by
  obtain ⟨l', -, hmatch⟩ := List.exists_of_findSome?_eq_some h
  obtain ⟨m', hm', heq⟩ := Option.map_eq_some_iff.mp hmatch
  obtain ⟨rfl, rfl⟩ := Prod.mk.inj heq
  exact hm'

/-- **What the lexer does with the cursor**: it moves over white space, and behind it over a match
of the token, or it stays there, at the end of the text or in front of an error. -/
theorem lexNext_cases (parser : Parser) :
    (∃ l m, (lexNext parser).1.type = .lexeme l ∧
        matchToken (skipSpace parser).ptr l.regex = some m ∧
        (lexNext parser).2 = parserAdvance (skipSpace parser) (m.2 - m.1)) ∨
      ((lexNext parser).1.type = .eof ∨ (lexNext parser).1.type = .error) ∧
        (lexNext parser).2 = skipSpace parser := by
  rw [lexNext]
  split
  · exact .inr ⟨.inl rfl, rfl⟩
  · split
    · rename_i l m hfind
      have hmatch := findLexeme_eq_some hfind
      exact .inl ⟨l, m, rfl, hmatch, lexAdvance_eq hmatch⟩
    · exact .inr ⟨.inr rfl, rfl⟩

theorem Parser.In.lexNext (h : parser.In source) : (lexNext parser).2.In source := by
  rcases lexNext_cases parser with ⟨l, m, -, hmatch, hnext⟩ | ⟨-, hnext⟩
  · rw [hnext]
    exact h.skipSpace.advance (le_of_matchToken hmatch).2.1
  · rw [hnext]
    exact h.skipSpace

theorem curr_le_lexNext (parser : Parser) : parser.curr ≤ (lexNext parser).2.curr := by
  have hskip : parser.curr ≤ (skipSpace parser).curr := Nat.le_add_right _ _
  rcases lexNext_cases parser with ⟨l, m, -, -, hnext⟩ | ⟨-, hnext⟩
  · rw [hnext]
    exact hskip.trans (Nat.le_add_right _ _)
  · rwa [hnext]

/-- **A token moves the cursor**, unless it is the end of the text or an error. -/
theorem curr_lt_lexNext {parser : Parser} (heof : (lexNext parser).1.type ≠ .eof)
    (herror : (lexNext parser).1.type ≠ .error) : parser.curr < (lexNext parser).2.curr := by
  have hskip : parser.curr ≤ (skipSpace parser).curr := Nat.le_add_right _ _
  rcases lexNext_cases parser with ⟨l, m, -, hmatch, hnext⟩ | ⟨htype, -⟩
  · rw [hnext]
    exact lt_of_le_of_lt hskip (Nat.lt_add_of_pos_right (le_of_matchToken hmatch).1)
  · rcases htype with htype | htype
    · exact absurd htype heof
    · exact absurd htype herror

/-! ### The run of the loop -/

variable {handle}

theorem iterate_planPass_in (source : List Char) (st : σ) (n : ℕ) :
    ((planPass handle)^[n] (planStart source st)).parser.In source := by
  induction n with
  | zero => exact (parserInit_in source).lexNext
  | succ n ih =>
    rw [Function.iterate_succ_apply']
    exact ih.lexNext

/-- **Every pass moves the cursor**: with the tokens of `n` passes, and with the one that is next if
it is not an error, as long as the loop goes on. -/
theorem le_curr_of_continues (source : List Char) (st : σ) {n : ℕ}
    (h : ∀ k ≤ n, ((planPass handle)^[k] (planStart source st)).Continues) :
    n ≤ ((planPass handle)^[n] (planStart source st)).parser.curr ∧
      (((planPass handle)^[n] (planStart source st)).curr.type ≠ .error →
        n < ((planPass handle)^[n] (planStart source st)).parser.curr) := by
  induction n with
  | zero => exact ⟨Nat.zero_le _, fun herror => curr_lt_lexNext (h 0 le_rfl).1 herror⟩
  | succ n ih =>
    obtain ⟨-, hmoved⟩ := ih fun k hk => h k (Nat.le_succ_of_le hk)
    have hcontinues := h (n + 1) le_rfl
    rw [Function.iterate_succ_apply'] at hcontinues ⊢
    generalize (planPass handle)^[n] (planStart source st) = l at hmoved hcontinues ⊢
    have hknown : l.curr.type ≠ .error := by
      intro herror
      have habort : (planSwitch handle l).2 = .abort := by rw [planSwitch, herror]
      exact absurd (habort.symm.trans hcontinues.2) (by decide)
    have hlt := hmoved hknown
    exact ⟨hlt.trans_le (curr_le_lexNext l.parser), fun herror =>
      lt_of_le_of_lt hlt (curr_lt_lexNext hcontinues.1 herror)⟩

/-- **Planning ends inside the text.** The loop ends after at most one pass more than the text has
characters, whatever is done with the tokens; in each pass the cursor is inside the text; and every
token other than the end and an error moves it. -/
theorem planLoop_ends (handle : σ → LexedToken → σ × ExecStatus) (source : List Char) (st : σ) :
    (∃ n ≤ source.length + 1, ¬ ((planPass handle)^[n] (planStart source st)).Continues) ∧
      (∀ n, ((planPass handle)^[n] (planStart source st)).parser.In source) ∧
      ∀ parser token parser', lexNext parser = (token, parser') → token.type ≠ .eof →
        token.type ≠ .error → parser.curr + 1 ≤ parser'.curr := by
  refine ⟨?_, iterate_planPass_in source st, ?_⟩
  · by_contra! hall
    have hle := (le_curr_of_continues source st hall).1
    have hin := (@iterate_planPass_in _ handle source st (source.length + 1)).1
    omega
  · rintro parser token parser' hnext heof herror
    have hlt := @curr_lt_lexNext parser (by rwa [hnext]) (by rwa [hnext])
    rwa [hnext] at hlt

/-! ### The lexer and the planner with values -/

variable {δ : Type} (atof : List Char → δ)

/-- The value of a text. -/
def lexemeValue (s : List Char) : Lexeme → Option (Token δ)
  | .id => some (.id (textBytes s))
  | .str => some (.str (textBytes s))
  | .pipe => some .pipe
  | .int => (strtoull s).map fun n => .int n.toInt64
  | .float => some (.float (atof s))
  | .time => (timeFromRfc3339 s).map .time

/-- The value of a token; there is none at the end, or where the conversion is undefined. -/
def LexedToken.value (token : LexedToken) : Option (Token δ) :=
  match token.type with
  | .lexeme l => lexemeValue atof token.text l
  | .eof => none
  | .error => some (.error (ascii (String.ofList token.text)))

theorem lexToken_eq (parser : Parser) (m : ℕ × ℕ) (l : Lexeme) :
    lexToken atof parser m l =
      (lexemeValue atof (lexText parser m l) l).map (·, lexAdvance parser m l) := by
  cases l
  case int =>
    simp only [lexToken, lexTokenInt64, lexemeValue, lexText, lexAdvance, Option.map_map]
    rfl
  case time =>
    simp only [lexToken, lexTokenTime, lexemeValue, lexText, lexAdvance, Option.map_map]
    rfl
  all_goals rfl

/-- The lexer with values moves the cursor in the same way. -/
theorem nextToken_eq (parser : Parser) :
    nextToken atof parser =
      match (lexNext parser).1.type with
      | .eof => some (none, (lexNext parser).2)
      | _ => ((lexNext parser).1.value atof).map fun token => (some token, (lexNext parser).2) := by
  rw [nextToken, lexNext]
  generalize skipSpace parser = start
  rcases hptr : start.ptr with - | ⟨c, t⟩
  · rfl
  · dsimp only
    rw [← hptr, ← findLexeme]
    rcases findLexeme start c with - | ⟨l, m⟩
    · dsimp only
      rw [LexedToken.value, Option.map_some, String.ofList_toList]
      rfl
    · dsimp only
      rw [lexToken_eq, Option.map_map]
      rfl

/-- What the planner does with a token behind the previous one. It is undefined behind a token
whose value is, and behind a pass that is. -/
def planHandle (st : Option (PlanState δ × Option (Token δ))) (token : LexedToken) :
    Option (PlanState δ × Option (Token δ)) × ExecStatus :=
  match st.bind fun (st, prev) => (token.value atof).bind fun value =>
    (planStep st prev value).map fun (st, rc) => ((st, some value), rc) with
  | some (st, rc) => (some st, rc)
  | none => (none, .abort)

/-- A pass of the loop is a step of the planner and a step of the lexer. -/
theorem planPass_planHandle {l : PlanLoop (Option (PlanState δ × Option (Token δ)))}
    {st st' : PlanState δ} {prev : Option (Token δ)} {value : Token δ} {rc : ExecStatus}
    (hst : l.st = some (st, prev)) (hvalue : l.curr.value atof = some value)
    (hstep : planStep st prev value = some (st', rc)) :
    planPass (planHandle atof) l =
      ⟨(lexNext l.parser).1, (lexNext l.parser).2, rc, some (st', some value)⟩ := by
  have hhandle : planHandle atof l.st l.curr = (some (st', some value), rc) := by
    rw [planHandle, hst, Option.bind_some]
    dsimp only
    rw [hvalue, Option.bind_some, hstep, Option.map_some]
  have hswitch : planSwitch (planHandle atof) l = (some (st', some value), rc) := by
    rw [planSwitch]
    rw [LexedToken.value] at hvalue
    split
    · exact hhandle
    · rename_i herror
      rw [herror] at hvalue
      rw [← Option.some.inj hvalue] at hstep
      obtain ⟨-, rfl⟩ := Prod.mk.inj (Option.some.inj hstep)
      rw [hhandle]
    · rename_i heof
      rw [heof] at hvalue
      cases hvalue
  rw [planPass, hswitch]

end Racs
