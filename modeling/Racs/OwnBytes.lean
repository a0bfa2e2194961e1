import Racs.Parser
import Racs.Pipeline
import Racs.Server
import Mathlib.Data.List.DropRight

/-!
# What a text message is answered by

`racs_read_callback` copies a message into a buffer of exactly its length. `racs_is_frame` compares
the first three bytes there, and `racs_db_exec` takes the buffer for a C string: the lexer reads it
up to a terminator that the message itself need not have, and `regexec` always does. What is behind
the buffer in memory can therefore be taken for a part of the message. For the length zero, which
is also that of a message without bytes, the callback returns before it makes a buffer.

## Main definitions

* `Racs.nextTokenIn`, `Racs.planTokens` — the lexer on memory, and the tokens that are planned.
* `Racs.readMessage` — what is done with a message and the memory behind it.
* `Racs.OwnBytes` — what is done does not depend on what is behind the message.

## Main results

* `Racs.ownBytes_iff` — the text messages of which this is true.
-/

namespace Racs

open Regex

variable {δ : Type}

/-! ### The lexer on memory -/

/-- Why there is no result. -/
inductive Fault
  /-- Bytes behind the memory are read. -/
  | outside
  /-- The behaviour is undefined for another reason. -/
  | undefined
  deriving DecidableEq

/-- What is undefined for another reason than a read behind the memory. -/
def defined {α : Type} (x : Option α) : Except Fault α := x.elim (.error .undefined) .ok

/-- Nothing behind the memory is read. -/
def Inside {α : Type} (x : Except Fault α) : Prop := x ≠ .error .outside

theorem inside_ok {α : Type} (a : α) : Inside (.ok a) := by
  rintro ⟨⟩

theorem inside_undefined {α : Type} : Inside (.error .undefined : Except Fault α) := by
  rintro ⟨⟩

theorem inside_defined {α : Type} (x : Option α) : Inside (defined x) := by
  cases x with
  | none => exact inside_undefined
  | some a => exact inside_ok a

@[simp] theorem inside_map_iff {α β : Type} {x : Except Fault α} {f : α → β} :
    Inside (x.map f) ↔ Inside x := by
  rcases x with ⟨- | -⟩ | a
  · exact iff_of_false (fun h => h rfl) fun h => h rfl
  · exact iff_of_true inside_undefined inside_undefined
  · exact iff_of_true (inside_ok _) (inside_ok _)

theorem inside_bind_iff {α β : Type} {x : Except Fault α} {f : α → Except Fault β}
    (hf : ∀ a, Inside (f a)) : Inside (x.bind f) ↔ Inside x := by
  rcases x with ⟨- | -⟩ | a
  · exact iff_of_false (fun h => h rfl) fun h => h rfl
  · exact iff_of_true inside_undefined inside_undefined
  · exact iff_of_true (hf a) (inside_ok a)

/-- The parser on memory that goes on behind the one that it is given. -/
def Parser.followedBy (parser : Parser) (after : List Char) : Parser :=
  ⟨parser.ptr ++ after, parser.curr⟩

@[simp] theorem Parser.followedBy_curr (parser : Parser) (after : List Char) :
    (parser.followedBy after).curr = parser.curr := rfl

/-- `racs_parser_next_token`, where `ptr` is the memory from the cursor on. A character on which no
expression is tried is an error by itself. Else `regexec`, and the functions that copy the token,
read the C string at the cursor. -/
def nextTokenIn (atof : List Char → δ) (parser : Parser) :
    Except Fault (Option (Token δ) × Parser) :=
  let start := skipSpace parser
  match start.ptr with
  | [] => .error .outside
  | c :: _ =>
    if c = '\x00' then .ok (none, start)
    else if candidates c = [] then .ok (some (tokenError start), start)
    else if '\x00' ∈ start.ptr then
      (defined (nextToken atof ⟨start.ptr.takeWhile (· ≠ '\x00'), start.curr⟩)).map fun r =>
        (r.1, r.2.followedBy (start.ptr.dropWhile (· ≠ '\x00')))
    else .error .outside

variable (atof : List Char → δ)

/-! ### The lexer moves on -/

theorem length_skipSpace_le (parser : Parser) :
    (skipSpace parser).ptr.length ≤ parser.ptr.length := by
  rw [skipSpace, parserAdvance, List.length_drop]
  omega

/-- A match moves the cursor. -/
theorem length_of_lexToken {start parser' : Parser} {l : Lexeme} {m : ℕ × ℕ} {token : Token δ}
    (h : lexToken atof start m l = some (token, parser')) (hm : 0 < m.2 - m.1)
    (hne : start.ptr ≠ []) : parser'.ptr.length < start.ptr.length := by
  have hpos := List.length_pos_iff.mpr hne
  cases l
  case int =>
    obtain ⟨n, -, heq⟩ := Option.map_eq_some_iff.mp h
    rw [← (Prod.mk.inj heq).2, parserAdvance, List.length_drop]
    omega
  case time =>
    obtain ⟨n, -, heq⟩ := Option.map_eq_some_iff.mp h
    rw [← (Prod.mk.inj heq).2, parserAdvance, List.length_drop]
    omega
  case str =>
    rw [← (Prod.mk.inj (Option.some.inj h)).2]
    simp only [parserAdvance, List.length_drop]
    omega
  all_goals
    rw [← (Prod.mk.inj (Option.some.inj h)).2, parserAdvance, List.length_drop]
    omega

/-- **The lexer moves on** when it returns a token other than an error. -/
theorem length_of_nextToken {parser parser' : Parser} {token : Token δ}
    (h : nextToken atof parser = some (some token, parser')) (hlexeme : token.lexeme ≠ none) :
    parser'.ptr.length < parser.ptr.length := by
  refine lt_of_lt_of_le ?_ (length_skipSpace_le parser)
  rw [nextToken] at h
  split at h
  · cases h
  · rename_i c t hptr
    split at h
    · rename_i l m hfind
      obtain ⟨⟨_, _⟩, hlex, heq⟩ := Option.map_eq_some_iff.mp h
      obtain ⟨htoken, rfl⟩ := Prod.mk.inj heq
      obtain ⟨l', -, hmatch⟩ := List.exists_of_findSome?_eq_some hfind
      obtain ⟨m', hm', heq'⟩ := Option.map_eq_some_iff.mp hmatch
      obtain ⟨rfl, rfl⟩ := Prod.mk.inj heq'
      obtain ⟨s, -, hs, hlen⟩ := Pattern.exists_of_exec hm'
      obtain ⟨d, u, rfl, -⟩ := exists_cons_of_mem hs
      refine length_of_lexToken atof hlex (hlen ▸ Nat.succ_pos _) ?_
      rw [hptr]
      exact List.cons_ne_nil c t
    · obtain ⟨htoken, -⟩ := Prod.mk.inj (Option.some.inj h)
      rw [← Option.some.inj htoken] at hlexeme
      exact absurd rfl hlexeme

/-- What the lexer on memory does with the character at the cursor. -/
theorem nextTokenIn_of_cons {parser : Parser} {c : Char} {t : List Char}
    (hptr : (skipSpace parser).ptr = c :: t) :
    nextTokenIn atof parser =
      if c = '\x00' then .ok (none, skipSpace parser)
      else if candidates c = [] then
        .ok (some (tokenError (skipSpace parser)), skipSpace parser)
      else if '\x00' ∈ c :: t then
        (defined (nextToken atof
          ⟨(c :: t).takeWhile (· ≠ '\x00'), (skipSpace parser).curr⟩)).map fun r =>
            (r.1, r.2.followedBy ((c :: t).dropWhile (· ≠ '\x00')))
      else .error .outside := by
  simp only [nextTokenIn]
  split
  · rename_i hnil
    cases hptr.symm.trans hnil
  · rename_i c' t' hcons
    obtain ⟨rfl, rfl⟩ := List.cons.inj (hptr.symm.trans hcons)
    rw [hcons]

theorem nextTokenIn_of_nil {parser : Parser} (hptr : (skipSpace parser).ptr = []) :
    nextTokenIn atof parser = .error .outside := by
  simp only [nextTokenIn]
  split
  · rfl
  · rename_i hcons
    cases hptr.symm.trans hcons

/-- The lexer on memory moves on too. -/
theorem length_of_nextTokenIn {parser parser' : Parser} {token : Token δ}
    (h : nextTokenIn atof parser = .ok (some token, parser')) (hlexeme : token.lexeme ≠ none) :
    parser'.ptr.length < parser.ptr.length := by
  refine lt_of_lt_of_le ?_ (length_skipSpace_le parser)
  rcases hptr : (skipSpace parser).ptr with - | ⟨c, t⟩
  · rw [nextTokenIn_of_nil atof hptr] at h
    cases h
  · rw [nextTokenIn_of_cons atof hptr] at h
    split_ifs at h with hend hnone hmem
    · cases h
    · obtain ⟨htoken, -⟩ := Prod.mk.inj (Except.ok.inj h)
      rw [← Option.some.inj htoken] at hlexeme
      exact absurd rfl hlexeme
    · rcases hnext : nextToken atof
        ⟨(c :: t).takeWhile (· ≠ '\x00'), (skipSpace parser).curr⟩ with - | ⟨token', start⟩
      · rw [hnext] at h
        cases h
      · rw [hnext] at h
        obtain ⟨rfl, rfl⟩ := Prod.mk.inj (Except.ok.inj h)
        have hlt := length_of_nextToken atof hnext hlexeme
        have hsum := congrArg List.length
          (@List.takeWhile_append_dropWhile _ (· ≠ '\x00') (c :: t))
        rw [List.length_append] at hsum
        rw [Parser.followedBy, List.length_append]
        exact lt_of_lt_of_eq (Nat.add_lt_add_right hlt _) hsum

/-! ### The planner on memory -/

/-- Only a token with an expression lets the planner continue. -/
theorem lexeme_of_continue {st st' : PlanState δ} {prev : Option (Token δ)} {token : Token δ}
    (h : planStep st prev token = some (st', .continue)) : token.lexeme ≠ none := by
  cases token
  case error message => cases (Prod.mk.inj (Option.some.inj h)).2
  all_goals exact Option.some_ne_none _

/-- The tokens that the loop of `racs_exec_plan_build` takes from the lexer. Behind the one that
ends the planning it asks for another, which it drops. -/
def planTokens (st : PlanState δ) (prev : Option (Token δ)) (parser : Parser) :
    Except Fault (List (Token δ)) :=
  match _ : nextTokenIn atof parser with
  | .error fault => .error fault
  | .ok (none, _) => .ok []
  | .ok (some token, parser') =>
    match _ : planStep st prev token with
    | none => .error .undefined
    | some (st', .continue) => (planTokens st' (some token) parser').map (token :: ·)
    | some (_, .abort) => (nextTokenIn atof parser').map fun _ => [token]
termination_by parser.ptr.length
decreasing_by exact length_of_nextTokenIn atof ‹_› (lexeme_of_continue ‹_›)

variable {st st' : PlanState δ} {prev : Option (Token δ)} {parser parser' : Parser}
  {token : Token δ}

theorem planTokens_eq : planTokens atof st prev parser =
    match nextTokenIn atof parser with
    | .error fault => .error fault
    | .ok (none, _) => .ok []
    | .ok (some token, parser') =>
      match planStep st prev token with
      | none => .error .undefined
      | some (st', .continue) => (planTokens atof st' (some token) parser').map (token :: ·)
      | some (_, .abort) => (nextTokenIn atof parser').map fun _ => [token] := by
  rw [planTokens]
  split <;> rename_i hnext <;> rw [hnext]
  dsimp only
  split <;> rename_i hstep <;> rw [hstep]

/-! ### What is behind the memory -/

theorem skipSpace_followedBy (after : List Char) (h : (skipSpace parser).ptr ≠ []) :
    skipSpace (parser.followedBy after) = (skipSpace parser).followedBy after := by
  rw [skipSpace_eq] at h
  have hdrop : (parser.ptr ++ after).dropWhile isSpace = parser.ptr.dropWhile isSpace ++ after := by
    rw [List.dropWhile_append, if_neg]
    rwa [List.isEmpty_iff]
  have htake : (parser.ptr ++ after).takeWhile isSpace = parser.ptr.takeWhile isSpace := by
    have hsum := congrArg List.length (@List.takeWhile_append_dropWhile _ isSpace parser.ptr)
    have hpos := List.length_pos_iff.mpr h
    rw [List.length_append] at hsum
    rw [List.takeWhile_append, if_neg]
    dsimp only at hpos
    omega
  rw [skipSpace_eq, skipSpace_eq, Parser.followedBy, hdrop, htake]
  rfl

/-- A C string ends in front of what is behind its memory. -/
theorem cString_append {t : List Char} (h : '\x00' ∈ t) (after : List Char) :
    (t ++ after).takeWhile (· ≠ '\x00') = t.takeWhile (· ≠ '\x00') ∧
      (t ++ after).dropWhile (· ≠ '\x00') = t.dropWhile (· ≠ '\x00') ++ after := by
  obtain ⟨a, b, rfl, ha⟩ := List.eq_append_cons_of_mem h
  have hall : ∀ c ∈ a, decide (c ≠ '\x00') = true := fun c hc =>
    decide_eq_true fun heq => ha (heq ▸ hc)
  rw [List.append_assoc, List.takeWhile_append_of_pos hall, List.takeWhile_append_of_pos hall,
    List.dropWhile_append_of_pos hall, List.dropWhile_append_of_pos hall]
  exact ⟨rfl, rfl⟩

/-- **A token that is lexed inside the memory** is lexed whatever is behind it. -/
theorem nextTokenIn_followedBy (after : List Char) (h : Inside (nextTokenIn atof parser)) :
    nextTokenIn atof (parser.followedBy after) =
      (nextTokenIn atof parser).map fun r => (r.1, r.2.followedBy after) := by
  rcases hptr : (skipSpace parser).ptr with - | ⟨c, t⟩
  · exact absurd (nextTokenIn_of_nil atof hptr) h
  · have hskip := skipSpace_followedBy after (hptr ▸ List.cons_ne_nil c t)
    have hptr' : (skipSpace (parser.followedBy after)).ptr = c :: (t ++ after) := by
      rw [hskip, Parser.followedBy, hptr, List.cons_append]
    rw [nextTokenIn_of_cons atof hptr] at h ⊢
    rw [nextTokenIn_of_cons atof hptr', hskip]
    by_cases hend : c = '\x00'
    · rw [if_pos hend, if_pos hend]
      rfl
    · rw [if_neg hend] at h
      rw [if_neg hend, if_neg hend]
      by_cases hnone : candidates c = []
      · rw [if_pos hnone, if_pos hnone]
        rfl
      · rw [if_neg hnone] at h
        rw [if_neg hnone, if_neg hnone]
        by_cases hmem : '\x00' ∈ c :: t
        · obtain ⟨htake, hdrop⟩ := cString_append hmem after
          have hmem' : '\x00' ∈ c :: (t ++ after) := List.mem_append_left after hmem
          rw [List.cons_append] at htake hdrop
          rw [if_pos hmem, if_pos hmem', htake, hdrop, Parser.followedBy_curr]
          cases nextToken atof
            ⟨(c :: t).takeWhile (· ≠ '\x00'), (skipSpace parser).curr⟩ with
          | none => rfl
          | some r =>
            simp only [defined, Option.elim, Except.map, Parser.followedBy, List.append_assoc]
        · rw [if_neg hmem] at h
          exact absurd rfl h

/-! ### One token of the planner -/

theorem planTokens_fault {fault : Fault} (h : nextTokenIn atof parser = .error fault) :
    planTokens atof st prev parser = .error fault := by
  rw [planTokens_eq, h]

theorem planTokens_end (h : nextTokenIn atof parser = .ok (none, parser')) :
    planTokens atof st prev parser = .ok [] := by
  rw [planTokens_eq, h]

theorem planTokens_undefined (h : nextTokenIn atof parser = .ok (some token, parser'))
    (hstep : planStep st prev token = none) :
    planTokens atof st prev parser = .error .undefined := by
  rw [planTokens_eq, h]
  dsimp only
  rw [hstep]

theorem planTokens_continue (h : nextTokenIn atof parser = .ok (some token, parser'))
    (hstep : planStep st prev token = some (st', .continue)) :
    planTokens atof st prev parser =
      (planTokens atof st' (some token) parser').map (token :: ·) := by
  rw [planTokens_eq, h]
  dsimp only
  rw [hstep]

theorem planTokens_abort (h : nextTokenIn atof parser = .ok (some token, parser'))
    (hstep : planStep st prev token = some (st', .abort)) :
    planTokens atof st prev parser = (nextTokenIn atof parser').map fun _ => [token] := by
  rw [planTokens_eq, h]
  dsimp only
  rw [hstep]

/-- **Tokens that are planned inside the memory** are planned whatever is behind it. -/
theorem planTokens_followedBy (after : List Char)
    (h : Inside (planTokens atof st prev parser)) :
    planTokens atof st prev (parser.followedBy after) = planTokens atof st prev parser := by
  induction hlen : parser.ptr.length using Nat.strong_induction_on generalizing st prev parser with
  | _ n ih =>
    subst hlen
    have hbehind := nextTokenIn_followedBy atof after fun hfault =>
      h (planTokens_fault atof hfault)
    rcases htoken : nextTokenIn atof parser with fault | ⟨- | token, parser'⟩
    · rw [htoken] at hbehind
      rw [planTokens_fault atof hbehind, planTokens_fault atof htoken]
    · rw [htoken] at hbehind
      rw [planTokens_end atof hbehind, planTokens_end atof htoken]
    · rw [htoken] at hbehind
      rcases hstep : planStep st prev token with - | ⟨st', - | -⟩
      · rw [planTokens_undefined atof hbehind hstep, planTokens_undefined atof htoken hstep]
      · rw [planTokens_continue atof htoken hstep] at h ⊢
        have hlt := length_of_nextTokenIn atof htoken (lexeme_of_continue hstep)
        rw [planTokens_continue atof hbehind hstep, ih _ hlt (inside_map_iff.mp h) rfl]
      · rw [planTokens_abort atof htoken hstep] at h ⊢
        rw [planTokens_abort atof hbehind hstep,
          nextTokenIn_followedBy atof after (inside_map_iff.mp h)]
        cases nextTokenIn atof parser' <;> rfl

/-! ### When the memory is enough -/

theorem ptr_skipSpace (parser : Parser) :
    (skipSpace parser).ptr = parser.ptr.dropWhile isSpace := by
  rw [skipSpace_eq]

/-- A terminator that is not among the elements that are skipped is behind them. -/
theorem mem_dropWhile {p : Char → Bool} (hp : p '\x00' = false) {t : List Char}
    (h : '\x00' ∈ t) : '\x00' ∈ t.dropWhile p := by
  rw [← @List.takeWhile_append_dropWhile _ p t] at h
  rcases List.mem_append.mp h with h | h
  · exact absurd ((List.mem_takeWhile_imp h).symm.trans hp) (by decide)
  · exact h

/-- With a terminator in the memory, the lexer stays inside, and in front of it. -/
theorem nextTokenIn_of_mem (h : '\x00' ∈ parser.ptr) :
    Inside (nextTokenIn atof parser) ∧
      ∀ r, nextTokenIn atof parser = .ok r → '\x00' ∈ r.2.ptr := by
  have hmem : '\x00' ∈ (skipSpace parser).ptr := by
    rw [ptr_skipSpace]
    exact mem_dropWhile (by decide) h
  obtain ⟨c, t, hptr⟩ := List.exists_cons_of_ne_nil (List.ne_nil_of_mem hmem)
  rw [nextTokenIn_of_cons atof hptr, ← hptr]
  split_ifs
  · exact ⟨inside_ok _, fun r hr => Except.ok.inj hr ▸ hmem⟩
  · exact ⟨inside_ok _, fun r hr => Except.ok.inj hr ▸ hmem⟩
  · refine ⟨inside_map_iff.mpr (inside_defined _), fun r hr => ?_⟩
    cases hnext : nextToken atof ⟨(skipSpace parser).ptr.takeWhile (· ≠ '\x00'),
        (skipSpace parser).curr⟩ with
    | none =>
      rw [hnext] at hr
      cases hr
    | some r' =>
      rw [hnext] at hr
      rw [← Except.ok.inj hr]
      exact List.mem_append_right _ (mem_dropWhile (by decide) hmem)

/-- With a terminator in the memory, the planner stays inside. -/
theorem planTokens_of_mem (h : '\x00' ∈ parser.ptr) : Inside (planTokens atof st prev parser) := by
  induction hlen : parser.ptr.length using Nat.strong_induction_on generalizing st prev parser with
  | _ n ih =>
    subst hlen
    obtain ⟨hinside, hkeeps⟩ := nextTokenIn_of_mem atof h
    rcases htoken : nextTokenIn atof parser with fault | ⟨- | token, parser'⟩
    · rw [planTokens_fault atof htoken]
      exact fun hfault => hinside (htoken.trans (congrArg _ (Except.error.inj hfault)))
    · rw [planTokens_end atof htoken]
      exact inside_ok _
    · have hmem := hkeeps _ htoken
      rcases hstep : planStep st prev token with - | ⟨st', - | -⟩
      · rw [planTokens_undefined atof htoken hstep]
        exact inside_undefined
      · rw [planTokens_continue atof htoken hstep, inside_map_iff]
        exact ih _ (length_of_nextTokenIn atof htoken (lexeme_of_continue hstep)) hmem rfl
      · rw [planTokens_abort atof htoken hstep, inside_map_iff]
        exact (nextTokenIn_of_mem atof hmem).1

/-- A character on which no expression is tried ends the planning. -/
theorem planTokens_of_candidates {c : Char} {t : List Char}
    (hptr : (skipSpace parser).ptr = c :: t) (hnone : candidates c = []) :
    Inside (planTokens atof st prev parser) := by
  have hnext : ∀ parser : Parser, (skipSpace parser).ptr = c :: t →
      nextTokenIn atof parser = if c = '\x00' then .ok (none, skipSpace parser)
        else .ok (some (tokenError (skipSpace parser)), skipSpace parser) := by
    intro parser hptr
    rw [nextTokenIn_of_cons atof hptr, if_pos hnone]
  by_cases hend : c = '\x00'
  · rw [planTokens_end atof ((hnext parser hptr).trans (if_pos hend))]
    exact inside_ok _
  · have hagain : (skipSpace (skipSpace parser)).ptr = c :: t := by
      rw [ptr_skipSpace, ptr_skipSpace, List.dropWhile_idempotent, ← ptr_skipSpace, hptr]
    rw [planTokens_abort atof ((hnext parser hptr).trans (if_neg hend)) rfl, inside_map_iff,
      hnext _ hagain, if_neg hend]
    exact inside_ok _

/-- **The planner stays inside the memory** if there is a terminator, or nothing but white space in
front of a character on which no expression is tried. -/
theorem inside_planTokens_iff : Inside (planTokens atof st prev parser) ↔
    '\x00' ∈ parser.ptr ∨ ∃ c ∈ (parser.ptr.dropWhile isSpace).head?, candidates c = [] := by
  constructor
  · intro h
    by_contra hnot
    rw [not_or] at hnot
    obtain ⟨hmem, hnone⟩ := hnot
    refine h (planTokens_fault atof ?_)
    rcases hptr : (skipSpace parser).ptr with - | ⟨c, t⟩
    · exact nextTokenIn_of_nil atof hptr
    · have hsub : ∀ d ∈ c :: t, d ≠ '\x00' := by
        intro d hd heq
        rw [← hptr, ptr_skipSpace] at hd
        exact hmem (heq ▸ (List.dropWhile_suffix isSpace).subset hd)
      rw [nextTokenIn_of_cons atof hptr, if_neg (hsub c List.mem_cons_self), if_neg, if_neg]
      · exact fun hzero => hsub _ hzero rfl
      · intro hc
        refine hnone ⟨c, ?_, hc⟩
        rw [← ptr_skipSpace, hptr]
        rfl
  · rintro (hmem | ⟨c, hc, hnone⟩)
    · exact planTokens_of_mem atof hmem
    · obtain ⟨t, ht⟩ := List.head?_eq_some_iff.mp hc
      exact planTokens_of_candidates atof ((ptr_skipSpace parser).trans ht) hnone

/-! ### Messages -/

/-- The characters of bytes in memory. -/
def memoryText (mem : List UInt8) : List Char := mem.map fun b => Char.ofNat b.toNat

/-- `racs_is_frame`; undefined for less than three bytes. -/
def isFrameIn (mem : List UInt8) : Except Fault Bool :=
  if 3 ≤ mem.length then .ok (isFrame mem) else .error .outside

section Message

variable {P : Platform} (b : Backend P) (atof : List Char → P.Double)

/-- `racs_exec_exec` on memory, with the tokens that it plans. -/
def execExecIn (s : Store) (mem : List UInt8) :
    Except Fault (List (Token P.Double) × Store × Option Status × Buffer P.Double) :=
  (planTokens atof ⟨0, [], none, []⟩ none (parserInit (memoryText mem))).bind fun tokens =>
    (defined (execExec b s tokens)).map (tokens, ·)

/-- What `racs_read_callback` does with a message that is followed by other bytes in memory, none
where it does not call `racs_db_exec`: it returns for the length zero, and calls
`racs_db_stream_batch` for a batch. -/
def readMessage (s : Store) (message after : List UInt8) :
    Except Fault (Option (List (Token P.Double) × Store × Option Status × Buffer P.Double)) :=
  if message.length = 0 then .ok none
  else (isFrameIn (message ++ after)).bind fun frame =>
    if frame then .ok none else (execExecIn b atof s (message ++ after)).map some

/-- Whatever is behind the message in memory, and in every state of the server, the same tokens are
planned, with the same effect and the same reply, and nothing behind the message is read. -/
def OwnBytes (m : List UInt8) : Prop :=
  ∀ (s : Store) (after : List UInt8),
    readMessage b atof s m after = readMessage b atof s m [] ∧ Inside (readMessage b atof s m [])

variable {b atof} {m : List UInt8}

theorem memoryText_append (m after : List UInt8) :
    memoryText (m ++ after) = memoryText m ++ memoryText after := List.map_append

theorem zero_mem_memoryText : '\x00' ∈ memoryText m ↔ 0 ∈ m := by
  have hchar : ∀ b : UInt8, Char.ofNat b.toNat = '\x00' → b = 0 := by
    intro b h
    have hvalid : b.toNat.isValidChar := Or.inl (lt_trans b.toNat_lt (by decide))
    rw [Char.ofNat, dif_pos hvalid] at h
    exact UInt8.toNat_inj.mp (congrArg Char.toNat h)
  rw [memoryText, List.mem_map]
  constructor
  · rintro ⟨b, hb, hzero⟩
    exact hchar b hzero ▸ hb
  · exact fun h => ⟨0, h, rfl⟩

/-- Three bytes of a text message tell that it is none of frames. -/
theorem readMessage_eq (htext : isFrame m = false) (hlen : 3 ≤ m.length) (s : Store)
    (after : List UInt8) :
    readMessage b atof s m after = (execExecIn b atof s (m ++ after)).map some := by
  have hle : 3 ≤ (m ++ after).length := by
    rw [List.length_append]
    omega
  have hframe : isFrame (m ++ after) = false := by
    rw [isFrame, List.take_append_of_le_length hlen]
    exact htext
  rw [readMessage, if_neg (by omega), isFrameIn, if_pos hle, hframe]
  rfl

theorem inside_execExecIn_iff (s : Store) : Inside (execExecIn b atof s m) ↔
    0 ∈ m ∨ ∃ c ∈ ((memoryText m).dropWhile isSpace).head?, candidates c = [] := by
  rw [execExecIn, inside_bind_iff fun tokens => inside_map_iff.mpr (inside_defined _),
    inside_planTokens_iff, parserInit, zero_mem_memoryText]

/-- A command that is planned inside the memory has the same effect whatever is behind it. -/
theorem execExecIn_append {s : Store} (h : Inside (execExecIn b atof s m)) (after : List UInt8) :
    execExecIn b atof s (m ++ after) = execExecIn b atof s m := by
  have hparser : parserInit (memoryText (m ++ after)) =
      (parserInit (memoryText m)).followedBy (memoryText after) := by
    rw [memoryText_append]
    rfl
  rw [execExecIn, inside_bind_iff fun tokens => inside_map_iff.mpr (inside_defined _)] at h
  rw [execExecIn, execExecIn, hparser, planTokens_followedBy atof _ h]

/-- **Which text messages are answered by their own bytes**: the one without bytes, and those of
three bytes or more with a terminator, or with a character on which no expression is tried behind
nothing but white space. -/
theorem ownBytes_iff (htext : isFrame m = false) : OwnBytes b atof m ↔
    m = [] ∨ 3 ≤ m.length ∧
      (0 ∈ m ∨ ∃ c ∈ ((memoryText m).dropWhile isSpace).head?, candidates c = []) := by
  rcases eq_or_ne m [] with rfl | hne
  · exact iff_of_true (fun _ _ => ⟨rfl, inside_ok _⟩) (.inl rfl)
  rw [or_iff_right hne]
  constructor
  · intro h
    obtain ⟨-, hinside⟩ := h (Store.init (.small 1 (by decide))) []
    have hlen : 3 ≤ m.length := by
      by_contra hshort
      rw [readMessage, if_neg (List.length_pos_iff.mpr hne).ne', List.append_nil, isFrameIn,
        if_neg hshort] at hinside
      exact hinside rfl
    refine ⟨hlen, ?_⟩
    rw [readMessage_eq htext hlen, List.append_nil, inside_map_iff] at hinside
    exact (inside_execExecIn_iff _).mp hinside
  · rintro ⟨hlen, hbytes⟩ s after
    have hinside := (@inside_execExecIn_iff P b atof m s).mpr hbytes
    rw [readMessage_eq htext hlen, readMessage_eq htext hlen, execExecIn_append hinside,
      List.append_nil]
    exact ⟨rfl, inside_map_iff.mpr hinside⟩

end Message

/-- An `atof` for which no text is a number. -/
def atofNone : List Char → Platform.rational.Double := fun _ => none

/-- With a terminator of its own, `PING` is answered by its own bytes. -/
theorem ownBytes_ping : OwnBytes Backend.idle atofNone (ascii "PING" ++ [0]) :=
  (ownBytes_iff (by decide)).mpr (.inr ⟨by decide, .inl (by decide)⟩)

/-- The planner takes one name from a memory with a name and a terminator. -/
theorem planTokens_name {δ : Type} {atof : List Char → δ} {mem : List Char} {name : List UInt8}
    {parser : Parser}
    (hname : nextTokenIn atof (parserInit mem) = .ok (some (.id name), parser))
    (hend : parser.ptr = ['\x00']) (hlen : name.length < 255) :
    planTokens atof ⟨0, [], none, []⟩ none (parserInit mem) = .ok [.id name] := by
  have hstep : planStep (⟨0, [], none, []⟩ : PlanState δ) none (.id name) =
      some (⟨1, [], some ⟨0, name.map toUpper, []⟩, []⟩, .continue) := by
    simp only [planStep, handleId, commandCreate, if_pos hlen, Option.map_some]
  have hptr : (skipSpace parser).ptr = ['\x00'] := by
    rw [ptr_skipSpace, hend]
    rfl
  have hlast : nextTokenIn atof parser = .ok (none, skipSpace parser) := by
    rw [nextTokenIn_of_cons atof hptr, if_pos rfl]
  rw [planTokens_continue atof hname hstep, planTokens_end atof hlast]
  rfl

/-- Without one, it is whatever command the memory behind it makes of it. -/
theorem not_ownBytes_ping :
    ¬ OwnBytes Backend.idle atofNone (ascii "PING") ∧
      planTokens atofNone ⟨0, [], none, []⟩ none
        (parserInit (memoryText (ascii "PING" ++ [0]))) = .ok [.id (ascii "PING")] ∧
      planTokens atofNone ⟨0, [], none, []⟩ none
        (parserInit (memoryText (ascii "PING" ++ (ascii "X" ++ [0])))) =
          .ok [.id (ascii "PINGX")] := by
  refine ⟨fun h => ?_, ?_, ?_⟩
  · obtain ⟨-, hinside⟩ := h (Store.init (.small 1 (by decide))) []
    rw [readMessage_eq (by decide) (by decide), List.append_nil, inside_map_iff,
      inside_execExecIn_iff] at hinside
    rcases hinside with hmem | ⟨c, hc, hnone⟩
    · exact absurd hmem (by decide)
    · obtain rfl : 'P' = c := Option.some.inj hc
      exact absurd hnone (by decide)
  · exact @planTokens_name _ _ _ _ ⟨['\x00'], 4⟩ (by decide +kernel) rfl (by decide)
  · exact @planTokens_name _ _ _ _ ⟨['\x00'], 5⟩ (by decide +kernel) rfl (by decide)

end Racs
