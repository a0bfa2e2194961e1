import Racs.Exec

/-!
# The grammar of command lines

A command line is a list of commands, each a name with arguments, separated by pipes. `Line.tokens`
writes such a line as tokens. `racs_exec_plan_build` decides with the previous token only whether a
token may stand at its place, and a pipe may stand anywhere. It therefore also accepts lines that
begin or end with a pipe or have two pipes in a row, and puts the command in front of such a pipe
into the plan twice.

## Main definitions

* `Racs.Line`, `Racs.Line.tokens` — the grammar.
* `Racs.PlansGrammar` — a line of the grammar is planned, and everything else is rejected.
* `Racs.misplaced`, `Racs.wellPlaced`, `Racs.strayPipe`.

## Main results

* `Racs.planLoop_line` — the plan of a line of the grammar.
* `Racs.planLoop_abort` — a token that cannot stand at its place ends the planning.
* `Racs.exists_line_iff` — without such a token and without a stray pipe, the tokens are a line.
* `Racs.plansGrammar_iff` — for which tokens the planner follows the grammar.
-/

namespace Racs

open MessagePack

variable {δ : Type}

/-! ### The grammar -/

/-- The tokens that may be arguments. -/
inductive ArgToken (δ : Type)
  | str (s : List UInt8)
  | int (z : Int64)
  | time (z : Int64)
  | float (x : δ)

/-- An argument as a token. -/
def ArgToken.token : ArgToken δ → Token δ
  | str s => .str s
  | int z => .int z
  | time z => .time z
  | float x => .float x

/-- The argument of a command that a token stands for; a time is an integer. -/
def ArgToken.arg : ArgToken δ → CommandArg δ
  | str s => .str s
  | int z => .int z
  | time z => .int z
  | float x => .float x

/-- A command as it is written. -/
structure LineCommand (δ : Type) where
  name : List UInt8
  args : List (ArgToken δ)

/-- `ID ARG*`. -/
def LineCommand.tokens (c : LineCommand δ) : List (Token δ) :=
  .id c.name :: c.args.map ArgToken.token

/-- The commands of a line. -/
abbrev Line (δ : Type) := List (LineCommand δ)

/-- `PIPE ID ARG*` for each command. -/
def Line.pipedTokens (cs : Line δ) : List (Token δ) := cs.flatMap fun c => .pipe :: c.tokens

/-- Nothing, or `ID ARG* (PIPE ID ARG*)*`. -/
def Line.tokens : Line δ → List (Token δ)
  | [] => []
  | c :: cs => c.tokens ++ Line.pipedTokens cs

/-- The tokens of a line are planned as its commands, each once and in order, with the name in upper
case and the arguments in order; all other tokens are rejected with an error in the buffer. -/
def PlansGrammar (tokens : List (Token δ)) : Prop :=
  (∀ line : Line δ, line.tokens = tokens → ∃ st, planBuild tokens = some (st, .continue) ∧
    st.plan.map (fun cmd => (cmd.name, cmd.args)) =
      line.map (fun c => (c.name.map toUpper, c.args.map ArgToken.arg)) ∧
    (st.plan.map Command.address).Nodup) ∧
  ((¬ ∃ line : Line δ, line.tokens = tokens) →
    ∃ st message, planBuild tokens = some (st, .abort) ∧
      st.out = (packError [] (ascii "exec") message).2)

/-! ### What stands at its place -/

/-- A command may begin behind the token. -/
def startsCommand : Option (Token δ) → Bool
  | none | some .pipe => true
  | _ => false

/-- The token cannot stand behind the previous one: a name that does not begin a command, an
argument without a command, or what the lexer does not know. -/
def misplaced (prev : Option (Token δ)) : Token δ → Bool
  | .id _ => !startsCommand prev
  | .pipe => false
  | .error _ => true
  | _ => startsCommand prev

/-- The tokens in front of the first one that cannot stand at its place. -/
def wellPlaced : Option (Token δ) → List (Token δ) → List (Token δ)
  | _, [] => []
  | prev, curr :: rest => if misplaced prev curr then [] else curr :: wellPlaced (some curr) rest

/-- A pipe without a command in front of it or behind it: at the beginning, at the end, or next to
another pipe. -/
def strayPipe (prev : Option (Token δ)) : List (Token δ) → Bool
  | [] => prev.isSome && startsCommand prev
  | .pipe :: rest => startsCommand prev || strayPipe (some .pipe) rest
  | curr :: rest => strayPipe (some curr) rest

/-- The names among the tokens have room in a command. -/
def NamesFit (tokens : List (Token δ)) : Prop :=
  ∀ name, .id name ∈ tokens → name.length < 255

theorem NamesFit.tail {curr : Token δ} {rest : List (Token δ)} (h : NamesFit (curr :: rest)) :
    NamesFit rest := fun name hname => h name (List.mem_cons_of_mem _ hname)

/-! ### One token -/

theorem handleArg_of_startsCommand (st : PlanState δ) {prev : Option (Token δ)}
    (h : startsCommand prev = true) (type : String) (arg : CommandArg δ) :
    handleArg st prev type arg = ({ st with
      out := handleError s!"Token type '{type}' is not a valid command." st.out }, .abort) := by
  unfold startsCommand at h
  split at h
  · rfl
  · rfl
  · cases h

theorem handleArg_of_not_startsCommand (st : PlanState δ) {prev : Option (Token δ)}
    (h : startsCommand prev = false) (type : String) (arg : CommandArg δ) :
    handleArg st prev type arg = (commandAddArg st arg, .continue) := by
  unfold handleArg
  split
  · cases h
  · cases h
  · rfl

theorem handleId_of_startsCommand (st : PlanState δ) {prev : Option (Token δ)}
    (h : startsCommand prev = true) (name : List UInt8) :
    handleId st prev name = (commandCreate st.allocated name).map fun cmd =>
      ({ st with allocated := st.allocated + 1, cmd := some cmd }, .continue) := by
  unfold startsCommand at h
  split at h
  · rfl
  · rfl
  · cases h

theorem handleId_of_not_startsCommand (st : PlanState δ) {prev : Option (Token δ)}
    (h : startsCommand prev = false) (name : List UInt8) :
    handleId st prev name = some ({ st with
      cmd := none
      out := handleError "Token type 'id' is not a valid argument." st.out }, .abort) := by
  unfold handleId
  split
  · cases h
  · cases h
  · rfl

/-- A token that cannot stand at its place is an error. -/
theorem planStep_of_misplaced (st : PlanState δ) {prev : Option (Token δ)} {curr : Token δ}
    (h : misplaced prev curr = true) : ∃ st' message, planStep st prev curr = some (st', .abort) ∧
      st'.out = (packError st.out (ascii "exec") message).2 := by
  cases curr with
  | id name =>
    have hstart : startsCommand prev = false := by simpa [misplaced] using h
    exact ⟨_, _, handleId_of_not_startsCommand st hstart name, rfl⟩
  | pipe => cases h
  | error message => exact ⟨_, message, rfl, rfl⟩
  | str s => exact ⟨_, _, congrArg some (handleArg_of_startsCommand st h _ _), rfl⟩
  | int z => exact ⟨_, _, congrArg some (handleArg_of_startsCommand st h _ _), rfl⟩
  | time z => exact ⟨_, _, congrArg some (handleArg_of_startsCommand st h _ _), rfl⟩
  | float x => exact ⟨_, _, congrArg some (handleArg_of_startsCommand st h _ _), rfl⟩

/-- A token at its place does not end the planning, unless it is a name without room. -/
theorem planStep_of_wellPlaced (st : PlanState δ) {prev : Option (Token δ)} {curr : Token δ}
    (h : misplaced prev curr = false) :
    (∃ st', planStep st prev curr = some (st', .continue)) ∨
      ∃ name, curr = .id name ∧ 255 ≤ name.length ∧ planStep st prev curr = none := by
  cases curr with
  | id name =>
    have hstart : startsCommand prev = true := by simpa [misplaced] using h
    rw [planStep, handleId_of_startsCommand st hstart]
    by_cases hname : name.length < 255
    · exact .inl ⟨_, by rw [commandCreate, if_pos hname]; rfl⟩
    · exact .inr ⟨name, rfl, not_lt.mp hname, by rw [commandCreate, if_neg hname]; rfl⟩
  | pipe => exact .inl ⟨_, rfl⟩
  | error message => cases h
  | str s => exact .inl ⟨_, congrArg some (handleArg_of_not_startsCommand st h _ _)⟩
  | int z => exact .inl ⟨_, congrArg some (handleArg_of_not_startsCommand st h _ _)⟩
  | time z => exact .inl ⟨_, congrArg some (handleArg_of_not_startsCommand st h _ _)⟩
  | float x => exact .inl ⟨_, congrArg some (handleArg_of_not_startsCommand st h _ _)⟩

/-! ### The loop -/

/-- Without room for a name the planning is undefined. -/
theorem planLoop_eq_none (st : PlanState δ) {prev : Option (Token δ)} {tokens : List (Token δ)}
    (h : ¬ NamesFit (wellPlaced prev tokens)) : planLoop st prev tokens = none := by
  induction tokens generalizing st prev with
  | nil => exact absurd (fun name hname => by cases hname) h
  | cons curr rest ih =>
    cases hcurr : misplaced prev curr with
    | true =>
      rw [wellPlaced, if_pos hcurr] at h
      exact absurd (fun name hname => by cases hname) h
    | false =>
      rw [wellPlaced, if_neg (by simp [hcurr])] at h
      rw [planLoop]
      rcases planStep_of_wellPlaced st hcurr with ⟨st', hstep⟩ | ⟨name, -, -, hstep⟩
      · rw [hstep]
        refine ih st' fun hrest => h ?_
        intro name hname
        rcases List.mem_cons.mp hname with rfl | hname
        · by_contra hlong
          have hnone : planStep st prev (.id name) = none := by
            rw [planStep, handleId_of_startsCommand st (by simpa [misplaced] using hcurr),
              commandCreate, if_neg hlong]
            rfl
          rw [hnone] at hstep
          cases hstep
        · exact hrest name hname
      · rw [hstep]
        rfl

/-- A token that cannot stand at its place ends the planning with an error. -/
theorem planLoop_abort (st : PlanState δ) {prev : Option (Token δ)} {tokens : List (Token δ)}
    (hnames : NamesFit (wellPlaced prev tokens)) (h : wellPlaced prev tokens ≠ tokens) :
    ∃ st' message, planLoop st prev tokens = some (st', .abort) ∧
      st'.out = (packError st.out (ascii "exec") message).2 := by
  induction tokens generalizing st prev with
  | nil => exact absurd rfl h
  | cons curr rest ih =>
    cases hcurr : misplaced prev curr with
    | true =>
      obtain ⟨st', message, hstep, hout⟩ := planStep_of_misplaced st hcurr
      exact ⟨st', message, by rw [planLoop, hstep]; rfl, hout⟩
    | false =>
      rw [wellPlaced, if_neg (by simp [hcurr])] at h hnames
      rcases planStep_of_wellPlaced st hcurr with ⟨st₁, hstep⟩ | ⟨name, rfl, hlong, -⟩
      · obtain ⟨st', message, hloop, hout⟩ :=
          ih st₁ hnames.tail fun hrest => h (congrArg (curr :: ·) hrest)
        refine ⟨st', message, by rw [planLoop, hstep]; exact hloop, ?_⟩
        rw [hout, planStep_out hstep]
      · exact absurd (hnames name List.mem_cons_self) (not_lt.mpr hlong)

/-- With every token at its place the planning succeeds. -/
theorem planLoop_continue (st : PlanState δ) {prev : Option (Token δ)} {tokens : List (Token δ)}
    (hnames : NamesFit tokens) (h : wellPlaced prev tokens = tokens) :
    ∃ st', planLoop st prev tokens = some (st', .continue) := by
  induction tokens generalizing st prev with
  | nil => exact ⟨st, rfl⟩
  | cons curr rest ih =>
    cases hcurr : misplaced prev curr with
    | true =>
      rw [wellPlaced, if_pos hcurr] at h
      cases h
    | false =>
      rw [wellPlaced, if_neg (by simp [hcurr])] at h
      rcases planStep_of_wellPlaced st hcurr with ⟨st₁, hstep⟩ | ⟨name, rfl, hlong, -⟩
      · obtain ⟨st', hloop⟩ := ih st₁ hnames.tail (List.cons.inj h).2
        exact ⟨st', by rw [planLoop, hstep]; exact hloop⟩
      · exact absurd (hnames name List.mem_cons_self) (not_lt.mpr hlong)

/-! ### Lines of the grammar -/

@[simp]
theorem startsCommand_argToken (a : ArgToken δ) : startsCommand (some a.token) = false := by
  cases a <;> rfl

theorem misplaced_argToken (prev : Option (Token δ)) (a : ArgToken δ) :
    misplaced prev a.token = startsCommand prev := by
  cases a <;> rfl

/-- Arguments are added to the command in front of them. -/
theorem planStep_argToken (st : PlanState δ) {prev : Option (Token δ)}
    (h : startsCommand prev = false) (a : ArgToken δ) :
    planStep st prev a.token = some (commandAddArg st a.arg, .continue) := by
  cases a <;> exact congrArg some (handleArg_of_not_startsCommand st h _ _)

theorem planLoop_args (st : PlanState δ) (prev : Option (Token δ))
    (h : startsCommand prev = false) (args : List (ArgToken δ)) (rest : List (Token δ)) :
    ∃ prev', startsCommand prev' = false ∧
      planLoop st prev (args.map ArgToken.token ++ rest) =
        planLoop ((args.map ArgToken.arg).foldl commandAddArg st) prev' rest := by
  induction args generalizing st prev with
  | nil => exact ⟨prev, h, rfl⟩
  | cons a args ih =>
    obtain ⟨prev', hprev', hloop⟩ :=
      ih (commandAddArg st a.arg) (some a.token) (startsCommand_argToken a)
    refine ⟨prev', hprev', ?_⟩
    rw [List.map_cons, List.cons_append, planLoop, planStep_argToken st h]
    exact hloop

theorem foldl_commandAddArg (st : PlanState δ) (cmd : Command δ) (args : List (CommandArg δ)) :
    args.foldl commandAddArg { st with cmd := some cmd } =
      { st with cmd := some { cmd with args := cmd.args ++ args } } := by
  induction args generalizing cmd with
  | nil => rw [List.foldl_nil, List.append_nil]
  | cons a args ih =>
    rw [List.foldl_cons]
    refine (ih { cmd with args := cmd.args ++ [a] }).trans ?_
    rw [List.append_assoc, List.singleton_append]

/-- The plan of a line, whose commands are allocated from the given number on. -/
def Line.commands (address : ℕ) : Line δ → List (Command δ)
  | [] => []
  | c :: cs => ⟨address, c.name.map toUpper, c.args.map ArgToken.arg⟩ :: commands (address + 1) cs

theorem Line.commands_map (address : ℕ) (line : Line δ) :
    (line.commands address).map (fun cmd => (cmd.name, cmd.args)) =
      line.map fun c => (c.name.map toUpper, c.args.map ArgToken.arg) := by
  induction line generalizing address with
  | nil => rfl
  | cons c cs ih => rw [Line.commands, List.map_cons, List.map_cons, ih]

theorem Line.commands_address (address : ℕ) (line : Line δ) :
    (line.commands address).map Command.address = List.range' address line.length := by
  induction line generalizing address with
  | nil => rfl
  | cons c cs ih => rw [Line.commands, List.map_cons, ih, List.length_cons, List.range'_succ]

/-- A command with its arguments, where a command may begin. -/
theorem planLoop_command (st : PlanState δ) (prev : Option (Token δ))
    (h : startsCommand prev = true) (c : LineCommand δ) (hc : c.name.length < 255)
    (rest : List (Token δ)) :
    ∃ prev', startsCommand prev' = false ∧ planLoop st prev (c.tokens ++ rest) = planLoop
      { st with
        allocated := st.allocated + 1
        cmd := some ⟨st.allocated, c.name.map toUpper, c.args.map ArgToken.arg⟩ } prev' rest := by
  obtain ⟨prev', hprev', hloop⟩ := planLoop_args
    { st with
      allocated := st.allocated + 1
      cmd := some ⟨st.allocated, c.name.map toUpper, []⟩ }
    (some (.id c.name)) rfl c.args rest
  refine ⟨prev', hprev', ?_⟩
  rw [LineCommand.tokens, List.cons_append, planLoop, planStep, handleId_of_startsCommand st h,
    commandCreate, if_pos hc]
  refine hloop.trans ?_
  rw [foldl_commandAddArg { st with allocated := st.allocated + 1 }]
  rfl

/-- The commands behind the first one: each pipe puts the command in front of it into the plan. -/
theorem planLoop_pipedTokens (st : PlanState δ) (cmd : Command δ) (prev : Option (Token δ))
    (cs : Line δ) (hcs : ∀ c ∈ cs, c.name.length < 255) :
    ∃ st', planLoop { st with cmd := some cmd } prev (Line.pipedTokens cs) =
        some (st', .continue) ∧
      (planAddCommand st').plan = st.plan ++ cmd :: Line.commands st.allocated cs := by
  induction cs generalizing st cmd prev with
  | nil => exact ⟨_, rfl, rfl⟩
  | cons c cs ih =>
    obtain ⟨prev', -, hcommand⟩ := planLoop_command
      { st with plan := st.plan ++ [cmd], cmd := some cmd } (some .pipe) rfl c
      (hcs c List.mem_cons_self) (Line.pipedTokens cs)
    obtain ⟨st', hloop, hplan⟩ := ih
      { st with plan := st.plan ++ [cmd], allocated := st.allocated + 1 }
      ⟨st.allocated, c.name.map toUpper, c.args.map ArgToken.arg⟩ prev'
      fun c hc => hcs c (List.mem_cons_of_mem _ hc)
    refine ⟨st', hcommand.trans hloop, ?_⟩
    rw [hplan, List.append_assoc]
    rfl

/-- The names of a line are among its tokens. -/
theorem mem_tokens {line : Line δ} {c : LineCommand δ} (hc : c ∈ line) :
    .id c.name ∈ line.tokens := by
  cases line with
  | nil => cases hc
  | cons d cs =>
    rcases List.mem_cons.mp hc with rfl | hc
    · exact List.mem_cons_self
    · refine List.mem_append_right _ (List.mem_flatMap.mpr ⟨c, hc, ?_⟩)
      exact List.mem_cons_of_mem _ List.mem_cons_self

/-- **A line of the grammar is planned as its commands.** -/
theorem planLoop_line (line : Line δ) (hline : ∀ c ∈ line, c.name.length < 255) :
    ∃ st, planBuild line.tokens = some (st, .continue) ∧ st.plan = line.commands 0 := by
  cases line with
  | nil => exact ⟨_, rfl, rfl⟩
  | cons c cs =>
    obtain ⟨prev, -, hcommand⟩ := planLoop_command ⟨0, [], none, []⟩ none rfl c
      (hline c List.mem_cons_self) (Line.pipedTokens cs)
    obtain ⟨st, hloop, hplan⟩ := planLoop_pipedTokens ⟨1, [], none, []⟩
      ⟨0, c.name.map toUpper, c.args.map ArgToken.arg⟩ prev cs
      fun c hc => hline c (List.mem_cons_of_mem _ hc)
    exact ⟨planAddCommand st, by rw [planBuild, Line.tokens, hcommand, hloop]; rfl, hplan⟩

/-! ### Which tokens are lines -/

/-- The tokens that may follow the previous one up to the end of a line. -/
def InLine (prev : Option (Token δ)) (tokens : List (Token δ)) : Prop :=
  wellPlaced prev tokens = tokens ∧ strayPipe prev tokens = false

theorem inLine_nil {prev : Option (Token δ)} (h : startsCommand prev = false) :
    InLine prev [] := by
  refine ⟨rfl, ?_⟩
  rw [strayPipe, h, Bool.and_false]

theorem wellPlaced_cons_iff (prev : Option (Token δ)) (curr : Token δ) (rest : List (Token δ)) :
    wellPlaced prev (curr :: rest) = curr :: rest ↔
      misplaced prev curr = false ∧ wellPlaced (some curr) rest = rest := by
  cases hcurr : misplaced prev curr with
  | true =>
    rw [wellPlaced, if_pos hcurr]
    simp
  | false =>
    rw [wellPlaced, if_neg (by simp [hcurr])]
    simp

theorem inLine_pipe_iff (prev : Option (Token δ)) (rest : List (Token δ)) :
    InLine prev (.pipe :: rest) ↔ startsCommand prev = false ∧ InLine (some .pipe) rest := by
  rw [InLine, wellPlaced_cons_iff, strayPipe, Bool.or_eq_false_iff]
  constructor
  · rintro ⟨⟨-, hrest⟩, hprev, hstray⟩
    exact ⟨hprev, hrest, hstray⟩
  · rintro ⟨hprev, hrest, hstray⟩
    exact ⟨⟨rfl, hrest⟩, hprev, hstray⟩

theorem inLine_id_iff (prev : Option (Token δ)) (name : List UInt8) (rest : List (Token δ)) :
    InLine prev (.id name :: rest) ↔
      startsCommand prev = true ∧ InLine (some (.id name)) rest := by
  have hstray : strayPipe prev (.id name :: rest) = strayPipe (some (.id name)) rest := rfl
  rw [InLine, wellPlaced_cons_iff, hstray, and_assoc, misplaced, Bool.not_eq_false']
  rfl

theorem inLine_argToken_iff (prev : Option (Token δ)) (a : ArgToken δ) (rest : List (Token δ)) :
    InLine prev (a.token :: rest) ↔
      startsCommand prev = false ∧ InLine (some a.token) rest := by
  have hstray : strayPipe prev (a.token :: rest) = strayPipe (some a.token) rest := by
    cases a <;> rfl
  rw [InLine, wellPlaced_cons_iff, hstray, and_assoc, misplaced_argToken]
  rfl

theorem not_inLine_error (prev : Option (Token δ)) (message : List UInt8)
    (rest : List (Token δ)) : ¬ InLine prev (.error message :: rest) := by
  rintro ⟨hrest, -⟩
  cases ((wellPlaced_cons_iff _ _ _).mp hrest).1

theorem inLine_args {prev : Option (Token δ)} (h : startsCommand prev = false)
    (args : List (ArgToken δ)) {rest : List (Token δ)}
    (hrest : ∀ prev, startsCommand prev = false → InLine prev rest) :
    InLine prev (args.map ArgToken.token ++ rest) := by
  induction args generalizing prev with
  | nil => exact hrest prev h
  | cons a args ih =>
    exact (inLine_argToken_iff prev a _).mpr ⟨h, ih (startsCommand_argToken a)⟩

theorem inLine_command {prev : Option (Token δ)} (h : startsCommand prev = true)
    (c : LineCommand δ) {rest : List (Token δ)}
    (hrest : ∀ prev, startsCommand prev = false → InLine prev rest) :
    InLine prev (c.tokens ++ rest) :=
  (inLine_id_iff prev c.name _).mpr ⟨h, inLine_args rfl c.args hrest⟩

theorem inLine_pipedTokens (cs : Line δ) {prev : Option (Token δ)}
    (h : startsCommand prev = false) : InLine prev (Line.pipedTokens cs) := by
  induction cs generalizing prev with
  | nil => exact inLine_nil h
  | cons c cs ih =>
    exact (inLine_pipe_iff prev _).mpr ⟨h, inLine_command rfl c fun _ hprev => ih hprev⟩

/-- In a line every token stands at its place, and no pipe lacks a command. -/
theorem inLine_tokens (line : Line δ) : InLine none line.tokens := by
  cases line with
  | nil => exact ⟨rfl, rfl⟩
  | cons c cs => exact inLine_command rfl c fun _ hprev => inLine_pipedTokens cs hprev

theorem exists_pipedTokens {prev : Option (Token δ)} {tokens : List (Token δ)}
    (h : InLine prev tokens) :
    (startsCommand prev = false → ∃ (args : List (ArgToken δ)) (cs : Line δ),
      args.map ArgToken.token ++ Line.pipedTokens cs = tokens) ∧
    (startsCommand prev = true → (prev = none ∧ tokens = []) ∨
      ∃ (c : LineCommand δ) (cs : Line δ), c.tokens ++ Line.pipedTokens cs = tokens) := by
  induction tokens generalizing prev with
  | nil =>
    refine ⟨fun _ => ⟨[], [], rfl⟩, fun hprev => .inl ⟨?_, rfl⟩⟩
    match prev, h, hprev with
    | none, _, _ => rfl
    | some .pipe, h, _ => cases h.2
  | cons curr rest ih =>
    -- an argument, whichever kind it is of
    have harg : ∀ a : ArgToken δ, a.token = curr → startsCommand prev = false ∧
        ∃ (args : List (ArgToken δ)) (cs : Line δ),
          args.map ArgToken.token ++ Line.pipedTokens cs = curr :: rest := by
      rintro a rfl
      obtain ⟨hprev, hrest⟩ := (inLine_argToken_iff prev a rest).mp h
      obtain ⟨args, cs, hcs⟩ := (ih hrest).1 (startsCommand_argToken a)
      exact ⟨hprev, a :: args, cs, congrArg (a.token :: ·) hcs⟩
    have of_arg : (startsCommand prev = false ∧ ∃ (args : List (ArgToken δ)) (cs : Line δ),
          args.map ArgToken.token ++ Line.pipedTokens cs = curr :: rest) →
        (startsCommand prev = false → ∃ (args : List (ArgToken δ)) (cs : Line δ),
          args.map ArgToken.token ++ Line.pipedTokens cs = curr :: rest) ∧
        (startsCommand prev = true → (prev = none ∧ curr :: rest = []) ∨
          ∃ (c : LineCommand δ) (cs : Line δ),
            c.tokens ++ Line.pipedTokens cs = curr :: rest) :=
      fun ⟨hprev, hcs⟩ => ⟨fun _ => hcs, fun hstart => by rw [hprev] at hstart; cases hstart⟩
    cases curr with
    | id name =>
      obtain ⟨hprev, hrest⟩ := (inLine_id_iff prev name rest).mp h
      obtain ⟨args, cs, hcs⟩ := (ih hrest).1 rfl
      refine ⟨fun hstart => ?_, fun _ => .inr ⟨⟨name, args⟩, cs, ?_⟩⟩
      rotate_left
      · exact congrArg (List.cons (Token.id name)) hcs
      · rw [hprev] at hstart
        cases hstart
    | pipe =>
      obtain ⟨hprev, hrest⟩ := (inLine_pipe_iff prev rest).mp h
      obtain ⟨hnone, -⟩ | ⟨c, cs, hcs⟩ := (ih hrest).2 rfl
      · cases hnone
      · refine ⟨fun _ => ⟨[], c :: cs, congrArg (List.cons Token.pipe) hcs⟩, fun hstart => ?_⟩
        rw [hprev] at hstart
        cases hstart
    | error message => exact absurd h (not_inLine_error prev message rest)
    | str s => exact of_arg (harg (.str s) rfl)
    | int z => exact of_arg (harg (.int z) rfl)
    | time z => exact of_arg (harg (.time z) rfl)
    | float x => exact of_arg (harg (.float x) rfl)

/-- **Tokens that stand at their place, without a stray pipe, are a line.** -/
theorem exists_line_iff (tokens : List (Token δ)) :
    (∃ line : Line δ, line.tokens = tokens) ↔ InLine none tokens := by
  constructor
  · rintro ⟨line, rfl⟩
    exact inLine_tokens line
  · intro h
    obtain ⟨-, rfl⟩ | ⟨c, cs, hcs⟩ := (exists_pipedTokens h).2 rfl
    · exact ⟨[], rfl⟩
    · exact ⟨c :: cs, hcs⟩

/-- **When the planner follows the grammar**: the names of the tokens that it looks at have room in
a command, and tokens that all stand at their place are without a stray pipe. -/
theorem plansGrammar_iff (tokens : List (Token δ)) :
    PlansGrammar tokens ↔ NamesFit (wellPlaced none tokens) ∧
      (wellPlaced none tokens = tokens → strayPipe none tokens = false) := by
  constructor
  · rintro ⟨hline, habort⟩
    have hplan : ∃ r, planBuild tokens = some r := by
      by_cases h : ∃ line : Line δ, line.tokens = tokens
      · obtain ⟨line, h⟩ := h
        obtain ⟨st, hst, -⟩ := hline line h
        exact ⟨_, hst⟩
      · obtain ⟨st, message, hst, -⟩ := habort h
        exact ⟨_, hst⟩
    have hnames : NamesFit (wellPlaced none tokens) := by
      by_contra hlong
      obtain ⟨r, hr⟩ := hplan
      rw [planBuild, planLoop_eq_none _ hlong] at hr
      cases hr
    refine ⟨hnames, fun hplaced => ?_⟩
    by_contra hstray
    have hno : ¬ ∃ line : Line δ, line.tokens = tokens :=
      fun h => hstray ((exists_line_iff tokens).mp h).2
    obtain ⟨st, message, hst, -⟩ := habort hno
    obtain ⟨st', hloop⟩ := planLoop_continue ⟨0, [], none, []⟩ (hplaced ▸ hnames) hplaced
    rw [planBuild, hloop] at hst
    cases (Prod.mk.inj (Option.some.inj hst)).2
  · rintro ⟨hnames, hstray⟩
    refine ⟨?_, fun hno => ?_⟩
    · rintro line rfl
      rw [(inLine_tokens line).1] at hnames
      obtain ⟨st, hst, hplan⟩ := planLoop_line line fun c hc => hnames c.name (mem_tokens hc)
      refine ⟨st, hst, ?_, ?_⟩
      · rw [hplan, Line.commands_map]
      · rw [hplan, Line.commands_address]
        exact List.nodup_range'
    · have hplaced : wellPlaced none tokens ≠ tokens :=
        fun h => hno ((exists_line_iff tokens).mpr ⟨h, hstray h⟩)
      obtain ⟨st, message, hloop, hout⟩ := planLoop_abort ⟨0, [], none, []⟩ hnames hplaced
      exact ⟨st, message, by rw [planBuild, hloop]; rfl, hout⟩

/-- `PING |>` is not a line, and its plan holds the command twice. -/
theorem not_plansGrammar_trailingPipe :
    ¬ PlansGrammar [Token.id (ascii "PING"), (Token.pipe : Token ℕ)] := by
  rintro ⟨-, habort⟩
  have hno : ¬ ∃ line : Line ℕ,
      line.tokens = [Token.id (ascii "PING"), (Token.pipe : Token ℕ)] := by
    rw [exists_line_iff]
    rintro ⟨-, hstray⟩
    cases hstray
  obtain ⟨st, message, hst, -⟩ := habort hno
  cases (Prod.mk.inj (Option.some.inj hst)).2

end Racs
