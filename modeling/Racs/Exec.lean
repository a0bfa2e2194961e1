import Racs.Command

/-!
# Command lines

A command line is a list of tokens. `racs_exec_plan_build` (`exec.c`) turns it into a plan, a list
of commands with their arguments, and `racs_exec_plan_exec` runs the plan: every command is one
stage, and a stage that fails is the last one.

A plan is a list of pointers. A command that follows no other token of its own, as after two pipes
or at the end of a line, is in the plan twice, and `racs_exec_plan_destroy` then frees it twice.

## Main definitions

* `Racs.Token`, `Racs.planBuild` — from tokens to a plan.
* `Racs.execGet` — the command with a name.
* `Racs.planRun`, `Racs.planExec`, `Racs.execExec`.
-/

namespace Racs

open MessagePack

variable {δ : Type}

/-- `racs_token`, other than the ones for the end of the line and for no token. -/
inductive Token (δ : Type)
  | id (name : List UInt8)
  | str (s : List UInt8)
  | pipe
  | int (z : Int64)
  | time (z : Int64)
  | float (x : δ)
  | error (message : List UInt8)
  deriving DecidableEq

/-- `racs_command_arg`. -/
inductive CommandArg (δ : Type)
  | str (s : List UInt8)
  | int (z : Int64)
  | float (x : δ)
  deriving DecidableEq

/-- `racs_command`, with the number of the allocation as its address. -/
structure Command (δ : Type) where
  address : ℕ
  name : List UInt8
  args : List (CommandArg δ)

/-! ### Planning -/

/-- `racs_exec_status`. -/
inductive ExecStatus
  | continue
  | abort
  deriving DecidableEq

/-- The variables of `racs_exec_plan_build`, with the number of allocated commands. Arguments are
added to `cmd` only before it is put into the plan. -/
structure PlanState (δ : Type) where
  allocated : ℕ
  plan : List (Command δ)
  cmd : Option (Command δ)
  out : Buffer δ

/-- `toupper`. -/
def toUpper (c : UInt8) : UInt8 := if 0x61 ≤ c ∧ c ≤ 0x7a then c - 0x20 else c

/-- `racs_command_create`; the name is stored in 255 bytes. -/
def commandCreate (address : ℕ) (name : List UInt8) : Option (Command δ) :=
  if name.length < 255 then some ⟨address, name.map toUpper, []⟩ else none

/-- `racs_handle_error`. -/
def handleError (message : String) (out : Buffer δ) : Buffer δ :=
  (packError out (ascii "exec") (ascii message)).2

/-- `racs_command_add_arg`. -/
def commandAddArg (st : PlanState δ) (arg : CommandArg δ) : PlanState δ :=
  { st with cmd := st.cmd.map fun cmd => { cmd with args := cmd.args ++ [arg] } }

/-- `racs_exec_plan_add_command`. -/
def planAddCommand (st : PlanState δ) : PlanState δ :=
  { st with plan := st.plan ++ st.cmd.toList }

/-- `racs_command_handle_str`, `racs_command_handle_int64`, `racs_command_handle_time` and
`racs_command_handle_float64`. -/
def handleArg (st : PlanState δ) (prev : Option (Token δ)) (type : String) (arg : CommandArg δ) :
    PlanState δ × ExecStatus :=
  match prev with
  | none | some .pipe =>
    let out := handleError s!"Token type '{type}' is not a valid command." st.out
    ({ st with out := out }, .abort)
  | _ => (commandAddArg st arg, .continue)

/-- `racs_handle_id` and `racs_command_handle_id`. -/
def handleId (st : PlanState δ) (prev : Option (Token δ)) (name : List UInt8) :
    Option (PlanState δ × ExecStatus) :=
  match prev with
  | none | some .pipe => (commandCreate st.allocated name).map fun cmd =>
    ({ st with allocated := st.allocated + 1, cmd := some cmd }, .continue)
  | _ =>
    let out := handleError "Token type 'id' is not a valid argument." st.out
    some ({ st with cmd := none, out := out }, .abort)

/-- One pass of the loop of `racs_exec_plan_build`. -/
def planStep (st : PlanState δ) (prev : Option (Token δ)) :
    Token δ → Option (PlanState δ × ExecStatus)
  | .id name => handleId st prev name
  | .str s => some (handleArg st prev "string" (.str s))
  | .pipe => some (planAddCommand st, .continue)
  | .int z => some (handleArg st prev "int" (.int z))
  | .time z => some (handleArg st prev "time" (.int z))
  | .float x => some (handleArg st prev "float" (.float x))
  | .error message =>
    some ({ st with out := (packError st.out (ascii "exec") message).2 }, .abort)

/-- The loop of `racs_exec_plan_build`. -/
def planLoop (st : PlanState δ) (prev : Option (Token δ)) :
    List (Token δ) → Option (PlanState δ × ExecStatus)
  | [] => some (st, .continue)
  | curr :: rest => (planStep st prev curr).bind fun
    | (st, .continue) => planLoop st (some curr) rest
    | (st, .abort) => some (st, .abort)

/-- `racs_exec_plan_build`. -/
def planBuild (tokens : List (Token δ)) : Option (PlanState δ × ExecStatus) :=
  (planLoop ⟨0, [], none, []⟩ none tokens).map fun
    | (st, .continue) => (planAddCommand st, .continue)
    | (st, .abort) => (st, .abort)

theorem handleArg_out {st st' : PlanState δ} {prev : Option (Token δ)} {type : String}
    {arg : CommandArg δ} (h : handleArg st prev type arg = (st', .continue)) :
    st'.out = st.out := by
  unfold handleArg at h
  split at h
  · cases (Prod.mk.inj h).2
  · cases (Prod.mk.inj h).2
  · obtain ⟨rfl, -⟩ := Prod.mk.inj h
    rfl

theorem handleId_out {st st' : PlanState δ} {prev : Option (Token δ)} {name : List UInt8}
    (h : handleId st prev name = some (st', .continue)) : st'.out = st.out := by
  unfold handleId at h
  split at h
  · obtain ⟨cmd, -, hst⟩ := Option.map_eq_some_iff.mp h
    obtain ⟨rfl, -⟩ := Prod.mk.inj hst
    rfl
  · obtain ⟨cmd, -, hst⟩ := Option.map_eq_some_iff.mp h
    obtain ⟨rfl, -⟩ := Prod.mk.inj hst
    rfl
  · cases (Prod.mk.inj (Option.some.inj h)).2

/-- A token that does not end the planning leaves the buffer as it is. -/
theorem planStep_out {st st' : PlanState δ} {prev : Option (Token δ)} {curr : Token δ}
    (h : planStep st prev curr = some (st', .continue)) : st'.out = st.out := by
  cases curr
  case id name => exact handleId_out h
  case pipe =>
    obtain ⟨rfl, -⟩ := Prod.mk.inj (Option.some.inj h)
    rfl
  case error message => cases (Prod.mk.inj (Option.some.inj h)).2
  all_goals exact handleArg_out (Option.some.inj h)

theorem planLoop_out {st st' : PlanState δ} {prev : Option (Token δ)} {tokens : List (Token δ)}
    (h : planLoop st prev tokens = some (st', .continue)) : st'.out = st.out := by
  induction tokens generalizing st prev with
  | nil =>
    obtain ⟨rfl, -⟩ := Prod.mk.inj (Option.some.inj h)
    rfl
  | cons curr rest ih =>
    obtain ⟨⟨st₁, rc⟩, hstep, h⟩ := Option.bind_eq_some_iff.mp h
    cases rc
    · exact (ih h).trans (planStep_out hstep)
    · cases h

theorem planBuild_out {tokens : List (Token δ)} {st : PlanState δ}
    (h : planBuild tokens = some (st, .continue)) : st.out = [] := by
  obtain ⟨⟨st₁, rc⟩, hloop, h⟩ := Option.map_eq_some_iff.mp h
  cases rc
  · obtain ⟨rfl, -⟩ := Prod.mk.inj h
    exact planLoop_out hloop
  · cases (Prod.mk.inj h).2

/-! ### Execution -/

/-- `racs_exec_hash` and `racs_exec_cmp`. -/
def execOps : KvStoreOps (List UInt8) where
  hash := murmur3X64128
  cmp a b := murmur3X64128 a = murmur3X64128 b

/-- The names that `racs_exec_init` registers. -/
def execNames : List (String × CommandName) :=
  [("PING", .ping), ("CREATE", .create), ("META", .metadata), ("OPEN", .openStream),
    ("CLOSE", .closeStream), ("LIST", .list), ("RANGE", .range), ("EVAL", .eval),
    ("ENCODE", .encode), ("SHUTDOWN", .shutdown), ("GAIN", .gain), ("TRIM", .trim),
    ("FADE", .fade), ("PAN", .pan), ("PAD", .pad), ("CLIP", .clip), ("SPLIT", .split)]

/-- `racs_exec_init`. -/
def execInit : KvStore (List UInt8) CommandName :=
  execNames.foldl (fun kv (name, func) => kvstorePut kv (ascii name) func)
    (kvstoreCreate 17 (by decide) execOps)

/-- `racs_exec_get`. -/
def execGet (name : List UInt8) : Option CommandName := kvstoreGet execInit name

/-- Every registered command is found under its name. -/
theorem execGet_execNames :
    ∀ p ∈ execNames, execGet (ascii p.1) = some p.2 := by
  decide +kernel

/-- `racs_command_serialize_args`. -/
def CommandArg.item : CommandArg δ → Item δ
  | .str s => .str s
  | .int z => .int z
  | .float x => .float x

/-- `racs_command_serialize_args`. -/
def serializeArgs (cmd : Command δ) : Buffer δ :=
  .array cmd.args.length :: cmd.args.map CommandArg.item

variable {P : Platform} (b : Backend P)

/-- The stages of `racs_exec_plan_exec`, each a command with its function: the state of the server
and the reply of the last stage that is executed, starting with what the buffer holds. -/
def planRun (s : Store) (reply : Reply P.Double) :
    List (CommandName × Command P.Double) → Option (Store × Reply P.Double)
  | [] => some (s, reply)
  | (name, cmd) :: rest =>
    ((command b name).run (serializeArgs cmd) reply.2 s rest.isEmpty).bind fun (reply, s) =>
      if reply.1 ≠ .ok then some (s, reply) else planRun s reply rest

/-- The commands of a plan with their functions. -/
def planStages {δ : Type} (plan : List (Command δ)) : List (CommandName × Command δ) :=
  plan.filterMap fun cmd => (execGet cmd.name).map (·, cmd)

/-- `racs_exec_plan_exec`: the reply of the last stage, or none with the buffer when no stage is
executed. -/
def planExec (s : Store) (plan : List (Command P.Double)) (out : Buffer P.Double) :
    Option (Store × Option Status × Buffer P.Double) :=
  match plan.find? fun cmd => (execGet cmd.name).isNone with
  | some cmd =>
    some (s, none, (packError out (ascii "exec") (ascii "Unknown command: " ++ cmd.name)).2)
  | none =>
    (planRun b s (.ok, out) (planStages plan)).map fun (s, reply) =>
      (s, if plan = [] then none else some reply.1, reply.2)

/-- `racs_exec_plan_destroy`; undefined when a command is freed twice. -/
def planDestroy (plan : List (Command P.Double)) : Option Unit :=
  if (plan.map Command.address).Nodup then some () else none

/-- `racs_exec_exec`, with the status of the last stage that was executed. -/
def execExec (s : Store) (tokens : List (Token P.Double)) :
    Option (Store × Option Status × Buffer P.Double) :=
  (planBuild tokens).bind fun (st, rc) =>
  (match rc with
    | .abort => some (s, none, st.out)
    | .continue => planExec b s st.plan st.out).bind fun r =>
  (planDestroy st.plan).map fun _ => r

end Racs
