import Racs.Clients
import Racs.Contents
import Racs.LexerProgress
import Racs.Pipeline

/-!
# From messages to requests

`racs_db_stream_batch` and `racs_db_exec` (`db.c`) do what the messages of clients ask for: a batch
of frames is handed to `racs_stream_append` frame by frame, and a command line is planned while it
is read, and executed stage by stage. With the event loop around them and the detached flushes
beside them, this is the whole server.

All that it does to its store are the events of a run: a client can do no more, whatever bytes it
sends.

## Main definitions

* `Racs.Library` — the library functions that translate between bytes and objects.
* `Racs.planText`, `Racs.dbExec`, `Racs.dbStreamBatch`, `Racs.dbHandlers`.
* `Racs.ServerEvent`, `Racs.serverStep` — the event loop, and the flushes.

## Main results

* `Racs.planText_passes` — the loop of the planner has passes enough.
* `Racs.server_refines` — the store of a server after any run of it.
-/

namespace Racs

open MessagePack PartialRun

/-! ### Planning a text -/

section Planning

variable {δ : Type} (atof : List Char → δ)

/-- The loop of `racs_exec_plan_build`, with at most so many passes: the token that was read last,
and the lexer behind it. -/
def planTextLoop (st : PlanState δ) (prev : Option (Token δ)) :
    ℕ → Option (Token δ) → Parser → Option (PlanState δ × ExecStatus)
  | 0, _, _ => none
  | _ + 1, none, _ => some (st, .continue)
  | passes + 1, some curr, parser =>
    (planStep st prev curr).bind fun (st, rc) =>
    (nextToken atof parser).bind fun (next, parser) =>
    match rc with
    | .continue => planTextLoop st (some curr) passes next parser
    | .abort => some (st, .abort)

/-- `racs_exec_plan_build` on a text. -/
def planText (source : List Char) : Option (PlanState δ × ExecStatus) :=
  (nextToken atof (parserInit source)).bind fun (first, parser) =>
  (planTextLoop atof ⟨0, [], none, []⟩ none (source.length + 1) first parser).map fun
    | (st, .continue) => (planAddCommand st, .continue)
    | (st, .abort) => (st, .abort)

variable {atof}

/-- A token that is no error is taken out of the text. -/
theorem length_ptr_nextToken {parser parser' : Parser} {token : Token δ}
    (h : nextToken atof parser = some (some token, parser')) :
    (∃ message, token = .error message) ∨ parser'.ptr.length < parser.ptr.length := by
  rw [nextToken_eq] at h
  rcases lexNext_cases parser with ⟨l, m, htype, hmatch, hnext⟩ | ⟨htype | htype, -⟩
  · rw [htype] at h
    obtain ⟨token', -, heq⟩ := Option.map_eq_some_iff.mp h
    obtain ⟨-, rfl⟩ := Prod.mk.inj heq
    obtain ⟨hpos, hle, -⟩ := le_of_matchToken hmatch
    have hskip : (skipSpace parser).ptr.length ≤ parser.ptr.length :=
      (List.drop_sublist ..).length_le
    rw [hnext, parserAdvance, List.length_drop]
    exact .inr (by omega)
  · rw [htype] at h
    cases h
  · rw [htype] at h
    obtain ⟨token', hvalue, heq⟩ := Option.map_eq_some_iff.mp h
    obtain ⟨htoken, -⟩ := Prod.mk.inj heq
    rw [LexedToken.value, htype] at hvalue
    rw [← Option.some.inj htoken, ← Option.some.inj hvalue]
    exact .inl ⟨_, rfl⟩

/-- One pass more makes no difference if there is one for every character behind the token, one for
the token, and one for the end; an error needs no further pass. -/
theorem planTextLoop_succ (st : PlanState δ) (prev curr : Option (Token δ)) {parser : Parser}
    {passes : ℕ} (hpos : 0 < passes)
    (h : ∀ token, curr = some token →
      (∃ message, token = .error message) ∨ parser.ptr.length + 1 < passes) :
    planTextLoop atof st prev (passes + 1) curr parser =
      planTextLoop atof st prev passes curr parser := by
  induction passes generalizing st prev curr parser with
  | zero => exact absurd hpos (Nat.lt_irrefl 0)
  | succ passes ih =>
    rcases curr with - | token
    · rfl
    · rw [planTextLoop, planTextLoop]
      rcases hstep : planStep st prev token with - | ⟨st', rc⟩
      · rfl
      · rcases hnext : nextToken atof parser with - | ⟨next, parser'⟩
        · rfl
        · simp only [Option.bind_some]
          cases rc with
          | abort => rfl
          | «continue» =>
            rcases h token rfl with ⟨message, rfl⟩ | hlt
            · cases (Prod.mk.inj (Option.some.inj hstep)).2
            · refine ih st' (some token) next (by omega) fun token' htoken' => ?_
              rw [htoken'] at hnext
              refine (length_ptr_nextToken hnext).imp_right fun hshorter => ?_
              omega

/-- **The planner has passes enough**: with more of them, it does the same. -/
theorem planText_passes (source : List Char) (n : ℕ) :
    planText atof source = (nextToken atof (parserInit source)).bind fun (first, parser) =>
      (planTextLoop atof ⟨0, [], none, []⟩ none (source.length + 1 + n) first parser).map fun
        | (st, .continue) => (planAddCommand st, .continue)
        | (st, .abort) => (st, .abort) := by
  induction n with
  | zero => rfl
  | succ n ih =>
    rw [ih]
    rcases hfirst : nextToken atof (parserInit source) with - | ⟨first, parser⟩
    · rfl
    · simp only [Option.bind_some]
      rw [← Nat.add_assoc, planTextLoop_succ _ _ _ (by omega)]
      rintro token rfl
      refine (length_ptr_nextToken hfirst).imp_right fun hshorter => ?_
      have hlength : (parserInit source).ptr.length = source.length := rfl
      omega

end Planning

/-! ### The messages -/

/-- What translates between bytes and objects: `atof`, the bytes that libmsgpack packs objects to,
and the objects in bytes, none when one is of a kind that `Item` lacks. A binary among these stands
for what is in memory from its first byte on. -/
structure Library (δ : Type) where
  atof : List Char → δ
  bytes : Buffer δ → List UInt8
  items : List UInt8 → Option (Buffer δ)

variable {P : Platform} (lib : Library P.Double) (b : Backend P)

/-- The text of a command; undefined without a terminator, which is then looked for behind the
message. -/
def cmdText (cmd : List UInt8) : Option (List Char) :=
  if 0 ∈ cmd then some ((cString cmd).map fun c => Char.ofNat c.toNat) else none

/-- `racs_exec_exec` behind the planning. -/
def execBuilt (s : Store) (built : PlanState P.Double × ExecStatus) :
    Option (Store × Option Status × Buffer P.Double) :=
  (match built.2 with
    | .abort => some (s, none, built.1.out)
    | .continue => planExec b s built.1.plan built.1.out).bind fun r =>
  (planDestroy built.1.plan).map fun _ => r

/-- `racs_db_exec`, with the data of the result. -/
def dbExec (s : Store) (cmd : List UInt8) : Option (Store × List UInt8) :=
  (cmdText cmd).bind fun source =>
  (planText lib.atof source).bind fun built =>
  (execBuilt b s built).map fun (s, _, out) => (s, lib.bytes out)

/-- `racs_db_stream_batch`, which passes over the three bytes in front of the batch. -/
def dbStreamBatch (s : Store) (data : List UInt8) : Option (Store × List UInt8) :=
  (lib.items (data.drop 3)).bind fun buffer =>
  (stream P s buffer).map fun (s, reply) => (s, lib.bytes reply.2)

/-- What the event loop is left with: nothing more is said of a server whose behaviour became
undefined, or which has shut down. -/
def answered : Option (Store × List UInt8) → Option Store × List UInt8
  | some (s, data) => (some s, data)
  | none => (none, [])

/-- The functions of `db.c`. -/
def dbHandlers : Handlers (Option Store) where
  streamBatch s data := answered (s.bind (dbStreamBatch lib · data))
  exec s data := answered (s.bind (dbExec lib b · data))

/-- What happens to a server: an event of the event loop, or a detached flush runs. -/
inductive ServerEvent (κ : Type)
  | loop (ev : LoopEvent κ)
  | flush (i : ℕ)
  deriving DecidableEq

variable {κ : Type} [DecidableEq κ]

/-- One step of the server, with the message that it executes. -/
def serverStep (l : EventLoop κ (Option Store)) :
    ServerEvent κ → Option (EventLoop κ (Option Store) × Option (κ × List UInt8))
  | .loop ev => eventLoopStep (dbHandlers lib b) l ev
  | .flush i =>
    some ({ l with state := l.state.bind fun s => (step P s (.flush i)).map Prod.fst }, none)

/-- The frames of a message; those of a command are none. -/
def framesIn (message : List UInt8) : List (List UInt8) :=
  if isFrame message then
    match (lib.items (message.drop 3)).map unpackNext with
    | some (.array items) => (List.range items.length).filterMap (unpackU8v items)
    | _ => []
  else []

/-- The frames that a run hands to `racs_stream_append`. -/
def appendsOf (evs : List Event) : List (List UInt8) :=
  evs.filterMap fun
    | .append data => some data
    | _ => none

theorem appendsOf_append (evs evs' : List Event) :
    appendsOf (evs ++ evs') = appendsOf evs ++ appendsOf evs' := List.filterMap_append

/-! ### One stage -/

/-- The request of CREATE, at a time. -/
def createEvent {δ : Type} (now : Int64) : List (Item δ) → Option Event
  | [.str streamId, .int sampleRate, .int channels, .int bitDepth] =>
    let channelsCut := channels.toUInt64.toUInt16
    let bitDepthCut := bitDepth.toUInt64.toUInt16
    if (0 ≤ sampleRate ∧ 0 ≤ channels ∧ 0 ≤ bitDepth) ∧ (bitDepthCut = 16 ∨ bitDepthCut = 24) ∧
        (channelsCut = 1 ∨ channelsCut = 2) then
      some (.create (streamName streamId) sampleRate.toUInt64.toUInt32 channelsCut bitDepthCut now)
    else none
  | _ => none

/-- The request of OPEN or CLOSE. -/
def sessionEvent {δ : Type} (request : UInt64 → Event) : List (Item δ) → Option Event
  | [.str streamId] => some (request (racsHash (cString streamId)))
  | _ => none

/-- The request that a stage makes of the store, at a time. A stage with arguments that its command
does not take makes none. -/
def stageEvent {δ : Type} (now : Int64) (name : CommandName) (args : List (Item δ)) :
    Option Event :=
  match name with
  | .create => createEvent now args
  | .openStream => sessionEvent .openStream args
  | .closeStream => sessionEvent .closeStream args
  | _ => none

/-- Whether a request changes the store. -/
def Store.succeeds (s : Store) : Event → Bool
  | .create streamId sampleRate channels bitDepth now =>
    (streamCreate s.disk.metadata streamId sampleRate channels bitDepth now).2
  | .openStream streamId => (streamOpen s.kv streamId).2
  | .closeStream streamId => (streamClose s.kv streamId).2
  | _ => true

/-- The commands that change the store. -/
def CommandName.changes : CommandName → Bool
  | .create | .openStream | .closeStream => true
  | _ => false

/-- A command with a reply of its own fails on other arguments, and leaves the store. -/
theorem plain_reply_cases {δ : Type} {c : CommandDef δ} {f} (hbody : c.body = .plain f)
    {cmd : Command δ} {out : Buffer δ} {s s' : Store} {isFinal : Bool} {reply : Reply δ}
    (h : c.run (serializeArgs cmd) out s isFinal = some (reply, s')) :
    (¬ ArgsValid c.args (cmd.args.map CommandArg.item) ∧ s' = s ∧ reply.1 = .error) ∨
      ArgsValid c.args (cmd.args.map CommandArg.item) ∧
        f (cmd.args.map CommandArg.item) s isFinal = some (reply, s') := by
  simp only [CommandDef.run, unpackNext_serializeArgs, hbody] at h
  rcases validateArgs_cases [] c.name c.args (cmd.args.map CommandArg.item) with
    ⟨hlen, heq⟩ | ⟨-, hvalid, message, heq⟩ | ⟨-, hvalid, heq⟩
  · rw [heq] at h
    obtain ⟨rfl, rfl⟩ := Prod.mk.inj (Option.some.inj h)
    exact .inl ⟨fun hvalid => hlen ((argsValid_iff _ _).mp hvalid).1, rfl, rfl⟩
  · rw [heq] at h
    obtain ⟨rfl, rfl⟩ := Prod.mk.inj (Option.some.inj h)
    exact .inl ⟨hvalid, rfl, rfl⟩
  · rw [heq] at h
    exact .inr ⟨hvalid, h⟩

/-- A command on samples leaves the store. -/
theorem run_vector_store {δ : Type} {c : CommandDef δ} {f} (hbody : c.body = .vector f)
    {cmd : Command δ} {out : Buffer δ} {s s' : Store} {isFinal : Bool} {reply : Reply δ}
    (h : c.run (serializeArgs cmd) out s isFinal = some (reply, s')) : s' = s := by
  simp only [CommandDef.run, unpackNext_serializeArgs, hbody] at h
  split at h
  · exact (Prod.mk.inj (Option.some.inj h)).2.symm
  · obtain ⟨reply', -, heq⟩ := Option.map_eq_some_iff.mp h
    exact (Prod.mk.inj heq).2.symm

/-- A command with a reply of its own that makes no request. -/
theorem run_plain_store {δ : Type} {c : CommandDef δ} {f} (hbody : c.body = .plain f)
    {cmd : Command δ} {out : Buffer δ} {s s' : Store} {isFinal : Bool} {reply : Reply δ}
    (hf : ∀ args r, f args s isFinal = some r → r.2 = s)
    (h : c.run (serializeArgs cmd) out s isFinal = some (reply, s')) : s' = s := by
  rcases plain_reply_cases hbody h with ⟨-, hsame, -⟩ | ⟨-, hreply⟩
  · exact hsame
  · exact hf _ _ hreply

/-- The arguments of CREATE. -/
theorem exists_of_argsValid_create {δ : Type} {args : List (Item δ)} {e e₁ e₂ e₃ : String}
    (h : ArgsValid [(.str, e), (.positiveInteger, e₁), (.positiveInteger, e₂),
      (.positiveInteger, e₃)] args) :
    ∃ streamId sampleRate channels bitDepth,
      args = [.str streamId, .int sampleRate, .int channels, .int bitDepth] ∧
        0 ≤ sampleRate ∧ 0 ≤ channels ∧ 0 ≤ bitDepth := by
  obtain ⟨a, args', rfl, ha, hvalid⟩ := List.map_eq_cons_iff.mp h
  obtain ⟨a₁, args', rfl, ha₁, hvalid⟩ := List.map_eq_cons_iff.mp hvalid
  obtain ⟨a₂, a₃, rfl, ha₂, ha₃⟩ := @argsValid_two _ _ _ e₂ e₃ _ hvalid
  have hnonneg : ∀ {z : Int64}, (Item.int z : Item δ).type = .positiveInteger → 0 ≤ z := by
    intro z hz
    by_contra hneg
    rw [Item.type, if_neg hneg] at hz
    cases hz
  obtain ⟨streamId, rfl⟩ := Item.exists_str ha
  obtain ⟨sampleRate, rfl⟩ := Item.exists_int (.inl ha₁)
  obtain ⟨channels, rfl⟩ := Item.exists_int (.inl ha₂)
  obtain ⟨bitDepth, rfl⟩ := Item.exists_int (.inl ha₃)
  exact ⟨streamId, sampleRate, channels, bitDepth, rfl, hnonneg ha₁, hnonneg ha₂, hnonneg ha₃⟩

/-- CREATE makes a request only with valid arguments. -/
theorem argsValid_of_createEvent {δ : Type} {now : Int64} {args : List (Item δ)} {ev : Event}
    {e e₁ e₂ e₃ : String} (h : createEvent now args = some ev) :
    ArgsValid [(.str, e), (.positiveInteger, e₁), (.positiveInteger, e₂),
      (.positiveInteger, e₃)] args := by
  unfold createEvent at h
  split at h
  · dsimp only at h
    split_ifs at h with hcond
    obtain ⟨hrate, hchannels, hdepth⟩ := hcond.1
    simp [ArgsValid, Item.type, hrate, hchannels, hdepth]
  · cases h

theorem argsValid_of_sessionEvent {δ : Type} {request : UInt64 → Event} {args : List (Item δ)}
    {ev : Event} {e : String} (h : sessionEvent request args = some ev) :
    ArgsValid [(.str, e)] args := by
  unfold sessionEvent at h
  split at h
  · rfl
  · cases h

/-- What is refused changes nothing. -/
theorem streamCreate_refused {md : MetadataDir} {streamId : { id : List UInt8 // 0 ∉ id }}
    {sampleRate : UInt32} {channels bitDepth : UInt16} {now : Int64}
    (h : ¬ (streamCreate md streamId sampleRate channels bitDepth now).2 = true) :
    (streamCreate md streamId sampleRate channels bitDepth now).1 = md := by
  unfold streamCreate at h ⊢
  split
  · rfl
  · rename_i hnone
    rw [hnone] at h
    exact absurd rfl h

theorem streamOpen_refused {kv : StreamKv} {streamId : UInt64}
    (h : ¬ (streamOpen kv streamId).2 = true) : (streamOpen kv streamId).1 = kv := by
  unfold streamOpen at h ⊢
  split
  · rfl
  · rename_i hnone
    rw [hnone] at h
    exact absurd rfl h

theorem streamClose_refused {kv : StreamKv} {streamId : UInt64}
    (h : ¬ (streamClose kv streamId).2 = true) : (streamClose kv streamId).1 = kv := by
  unfold streamClose at h ⊢
  split
  · rfl
  · rename_i hsome
    rw [hsome] at h
    exact absurd rfl h

theorem stageEvent_of_not_changes {δ : Type} {now : Int64} {name : CommandName}
    {args : List (Item δ)} (h : name.changes = false) : stageEvent now name args = none := by
  cases name <;> first | rfl | cases h

/-- What a stage did to the store, with its status, for the request that it makes or for none. The
flag says whether its command could make one. -/
def StageOutcome (P : Platform) (changes : Bool) (s s' : Store) (status : Status) :
    Option Event → Prop
  | some ev => step P s ev = some (s', .other) ∧ (status = .ok ↔ s.succeeds ev = true)
  | none => s' = s ∧ (changes = true → status ≠ .ok)

/-- A stage that fails without a request. -/
theorem stageOutcome_error {changes : Bool} {s s' : Store} {status : Status} {ev : Option Event}
    (hev : ev = none) (hsame : s' = s) (hstatus : status = .error) :
    StageOutcome P changes s s' status ev := by
  subst hev
  exact ⟨hsame, fun _ hok => Status.noConfusion (hok.symm.trans hstatus)⟩

section Stages

variable {cmd : Command P.Double} {out : Buffer P.Double} {s s' : Store} {isFinal : Bool}
  {reply : Reply P.Double}

/-- The commands that make no requests leave the store. -/
theorem run_readOnly {name : CommandName} (hname : name.changes = false)
    (h : (command b name).run (serializeArgs cmd) out s isFinal = some (reply, s')) : s' = s := by
  cases name with
  | create | openStream | closeStream => cases hname
  | gain | trim | fade | pan | pad | clip | split | encode => exact run_vector_store rfl h
  | ping =>
    refine run_plain_store rfl ?_ h
    rintro args r hr
    rw [← Option.some.inj hr]
  | shutdown =>
    refine run_plain_store rfl ?_ h
    rintro args r hr
    cases hr
  | list =>
    refine run_plain_store rfl ?_ h
    rintro args r hr
    split at hr
    · rw [← Option.some.inj hr]
    · cases hr
  | range =>
    refine run_plain_store rfl ?_ h
    rintro args r hr
    split at hr
    · obtain ⟨found, -, hr⟩ := Option.bind_eq_some_iff.mp hr
      split at hr
      · rw [← Option.some.inj hr]
      · obtain ⟨range, -, hr⟩ := Option.map_eq_some_iff.mp hr
        cases range <;> rw [← hr]
    · cases hr
  | eval =>
    refine run_plain_store rfl ?_ h
    rintro args r hr
    split at hr
    · obtain ⟨reply', -, hr⟩ := Option.map_eq_some_iff.mp hr
      rw [← hr]
    · cases hr
  | metadata =>
    refine run_plain_store rfl ?_ h
    rintro args r hr
    split at hr
    · dsimp only at hr
      split at hr
      · rw [← Option.some.inj hr]
      · split_ifs at hr <;> rw [← Option.some.inj hr]
    · cases hr

/-- CREATE. -/
theorem run_create
    (h : (command b .create).run (serializeArgs cmd) out s isFinal = some (reply, s')) :
    StageOutcome P true s s' reply.1
      (createEvent (b.timeNow s) (cmd.args.map CommandArg.item)) := by
  rcases plain_reply_cases rfl h with ⟨hvalid, hsame, hstatus⟩ | ⟨hvalid, hreply⟩
  · refine stageOutcome_error ?_ hsame hstatus
    exact Option.eq_none_iff_forall_ne_some.mpr fun ev hev => hvalid (argsValid_of_createEvent hev)
  · obtain ⟨streamId, sampleRate, channels, bitDepth, hargs, hpos⟩ :=
      exists_of_argsValid_create hvalid
    rw [hargs] at hreply ⊢
    dsimp only at hreply
    dsimp only [createEvent]
    split_ifs at hreply with hdepth hchannels hcreated
    · obtain ⟨rfl, rfl⟩ := Prod.mk.inj (Option.some.inj hreply)
      refine stageOutcome_error (if_neg fun hcond => ?_) rfl rfl
      exact hcond.2.1.elim hdepth.1 hdepth.2
    · obtain ⟨rfl, rfl⟩ := Prod.mk.inj (Option.some.inj hreply)
      refine stageOutcome_error (if_neg fun hcond => ?_) rfl rfl
      exact hcond.2.2.elim hchannels.1 hchannels.2
    · obtain ⟨rfl, rfl⟩ := Prod.mk.inj (Option.some.inj hreply)
      rw [if_pos ⟨hpos, by tauto, by tauto⟩]
      exact ⟨rfl, iff_of_true rfl hcreated⟩
    · obtain ⟨rfl, rfl⟩ := Prod.mk.inj (Option.some.inj hreply)
      rw [if_pos ⟨hpos, by tauto, by tauto⟩]
      refine ⟨?_, iff_of_false Status.noConfusion hcreated⟩
      rw [step, streamCreate_refused hcreated]

/-- OPEN and CLOSE, with the function on the sessions that they call. -/
theorem run_session {c : CommandDef P.Double} {e message : String} {f}
    {change : StreamKv → UInt64 → StreamKv × Bool} {request : UInt64 → Event}
    (hbody : c.body = .plain f) (hargs : c.args = [(.str, e)])
    (hf : ∀ streamId, f [.str streamId] s isFinal =
      if (change s.kv (racsHash (cString streamId))).2 then
        some (packNullWithStatusOk [],
          { s with kv := (change s.kv (racsHash (cString streamId))).1 })
      else some (packError [] (ascii c.name) (ascii message), s))
    (hrefused : ∀ streamId, ¬ (change s.kv streamId).2 = true → (change s.kv streamId).1 = s.kv)
    (hstep : ∀ streamId, step P s (request streamId) =
      some ({ s with kv := (change s.kv streamId).1 }, .other))
    (hsucceeds : ∀ streamId, s.succeeds (request streamId) = (change s.kv streamId).2)
    (h : c.run (serializeArgs cmd) out s isFinal = some (reply, s')) :
    StageOutcome P true s s' reply.1 (sessionEvent request (cmd.args.map CommandArg.item)) := by
  rcases plain_reply_cases hbody h with ⟨hvalid, hsame, hstatus⟩ | ⟨hvalid, hreply⟩
  · refine stageOutcome_error ?_ hsame hstatus
    exact Option.eq_none_iff_forall_ne_some.mpr fun ev hev =>
      hvalid (hargs ▸ argsValid_of_sessionEvent hev)
  · obtain ⟨a, heq, ha⟩ := argsValid_one (hargs ▸ hvalid)
    obtain ⟨streamId, rfl⟩ := Item.exists_str ha
    rw [heq, hf] at hreply
    rw [heq]
    change step P s (request _) = _ ∧ (_ ↔ s.succeeds (request _) = true)
    rw [hstep, hsucceeds]
    split_ifs at hreply with hchanged
    · obtain ⟨rfl, rfl⟩ := Prod.mk.inj (Option.some.inj hreply)
      exact ⟨rfl, iff_of_true rfl hchanged⟩
    · obtain ⟨rfl, rfl⟩ := Prod.mk.inj (Option.some.inj hreply)
      exact ⟨by rw [hrefused _ hchanged], iff_of_false Status.noConfusion hchanged⟩

/-- **What a stage does to the store**: the request that it makes, and its status is OK exactly if
that succeeds; a command that could make a request and makes none fails. -/
theorem run_stage {name : CommandName}
    (h : (command b name).run (serializeArgs cmd) out s isFinal = some (reply, s')) :
    StageOutcome P name.changes s s' reply.1
      (stageEvent (b.timeNow s) name (cmd.args.map CommandArg.item)) := by
  cases hname : name.changes with
  | false =>
    rw [stageEvent_of_not_changes hname]
    exact ⟨run_readOnly b hname h, fun htrue => absurd htrue Bool.false_ne_true⟩
  | true =>
    cases name with
    | create => exact run_create b h
    | openStream =>
      exact run_session rfl rfl (fun _ => rfl) (fun _ => streamOpen_refused) (fun _ => rfl)
        (fun _ => rfl) h
    | closeStream =>
      exact run_session rfl rfl (fun _ => rfl) (fun _ => streamClose_refused) (fun _ => rfl)
        (fun _ => rfl) h
    | _ => cases hname

end Stages

/-- Whether a request changes the contents. -/
def Contents.succeeds (q : Contents) : Event → Bool
  | .create streamId sampleRate channels bitDepth _ =>
    (q.create streamId sampleRate channels bitDepth).2
  | .openStream streamId => (q.openStream streamId).2
  | .closeStream streamId => (q.closeStream streamId).2
  | _ => true

/-- The stages at the front of a plan that make requests, or reply to PING, up to the first one that
fails. -/
def Contents.stages (P : Platform) {δ : Type} (q : Contents) :
    List (CommandName × Command δ) → Contents
  | [] => q
  | (name, cmd) :: rest =>
    match stageEvent 0 name (cmd.args.map CommandArg.item) with
    | some ev => if q.succeeds ev then (q.step P ev).stages P rest else q
    | none => if name = .ping ∧ cmd.args = [] then q.stages P rest else q

/-- Behind a stage that neither makes a request nor is a PING, no stage makes one. -/
def ChangesFirst {δ : Type} : List (CommandName × Command δ) → Prop
  | [] => True
  | (name, _) :: rest =>
    if name.changes = true ∨ name = .ping then ChangesFirst rest
    else ∀ p ∈ rest, p.1.changes = false

/-- The event at another time. -/
def Event.at (now : Int64) : Event → Event
  | .create streamId sampleRate channels bitDepth _ =>
    .create streamId sampleRate channels bitDepth now
  | ev => ev

/-- Only the time of the request of a stage comes from the clock. -/
theorem stageEvent_eq_map {δ : Type} (now : Int64) (name : CommandName) (args : List (Item δ)) :
    stageEvent now name args = (stageEvent 0 name args).map (Event.at now) := by
  have hsession : ∀ request : UInt64 → Event, (∀ id, (request id).at now = request id) →
      sessionEvent request args = (sessionEvent request args).map (Event.at now) := by
    intro request hrequest
    unfold sessionEvent
    split
    · rw [Option.map_some, hrequest]
    · rfl
  cases name
  case create =>
    rw [stageEvent, stageEvent]
    unfold createEvent
    split
    · dsimp only
      split_ifs <;> rfl
    · rfl
  case openStream => exact hsession _ fun _ => rfl
  case closeStream => exact hsession _ fun _ => rfl
  all_goals rfl

theorem Contents.step_at (q : Contents) (now : Int64) (ev : Event) :
    q.step P (ev.at now) = q.step P ev := by
  cases ev <;> rfl

/-- A stage sends no frame. -/
theorem appendsOf_stageEvent {δ : Type} {now : Int64} {name : CommandName} {args : List (Item δ)}
    {ev : Event} (h : stageEvent now name args = some ev) : appendsOf [ev] = [] := by
  have hsession : ∀ request : UInt64 → Event, (∀ id, appendsOf [request id] = []) →
      sessionEvent request args = some ev → appendsOf [ev] = [] := by
    intro request hrequest h
    unfold sessionEvent at h
    split at h
    · rw [← Option.some.inj h, hrequest]
    · cases h
  cases name
  case create =>
    rw [stageEvent] at h
    unfold createEvent at h
    split at h
    · dsimp only at h
      split_ifs at h
      rw [← Option.some.inj h]
      rfl
    · cases h
  case openStream => exact hsession _ (fun _ => rfl) h
  case closeStream => exact hsession _ (fun _ => rfl) h
  all_goals cases h

/-- A request succeeds with the store if and only if it does with its contents. -/
theorem Reflects.succeeds {q : Contents} {s : Store} {es : List MemtableEntry}
    (h : Reflects P q s es) (now : Int64) (ev : Event) :
    s.succeeds (ev.at now) = q.succeeds ev := by
  cases ev with
  | create streamId sampleRate channels bitDepth _ =>
    exact (h.create streamId sampleRate channels bitDepth now).1
  | openStream streamId => exact (h.openStream streamId).1
  | closeStream streamId => exact (h.closeStream streamId).1
  | append data => rfl
  | flush i => rfl

/-- A request that is refused leaves the contents as they are. -/
theorem Contents.step_of_not_succeeds {q : Contents} {ev : Event} (h : ¬ q.succeeds ev = true) :
    q.step P ev = q := by
  cases ev with
  | create streamId sampleRate channels bitDepth now =>
    rw [Contents.succeeds, Contents.create] at h
    rw [Contents.step, Contents.create]
    split at h
    · rfl
    · exact absurd rfl h
  | openStream streamId =>
    rw [Contents.succeeds, Contents.openStream] at h
    rw [Contents.step, Contents.openStream]
    split at h
    · rfl
    · exact absurd rfl h
  | closeStream streamId =>
    rw [Contents.succeeds, Contents.closeStream] at h
    rw [Contents.step, Contents.closeStream]
    split at h
    · rfl
    · exact absurd rfl h
  | append data => exact absurd rfl h
  | flush i => exact absurd rfl h

/-- PING replies if it has no arguments. -/
theorem run_ping {cmd : Command P.Double} {out : Buffer P.Double} {s s' : Store} {isFinal : Bool}
    {reply : Reply P.Double}
    (h : (command b .ping).run (serializeArgs cmd) out s isFinal = some (reply, s')) :
    reply.1 = .ok ↔ cmd.args = [] := by
  have hargs : ArgsValid (command b .ping).args (cmd.args.map CommandArg.item) ↔ cmd.args = [] := by
    simp [ArgsValid, command, commandPing]
  rw [← hargs]
  rcases plain_reply_cases rfl h with ⟨hvalid, -, hstatus⟩ | ⟨hvalid, hreply⟩
  · exact iff_of_false (by rw [hstatus]; exact Status.noConfusion) hvalid
  · refine iff_of_true ?_ hvalid
    rw [← (Prod.mk.inj (Option.some.inj hreply)).1]
    rfl

/-- Stages that make no requests. -/
theorem stages_of_not_changes {δ : Type} {plan : List (CommandName × Command δ)}
    (h : ∀ p ∈ plan, p.1.changes = false) (q : Contents) :
    ChangesFirst plan ∧ q.stages P plan = q := by
  induction plan with
  | nil => exact ⟨trivial, rfl⟩
  | cons p rest ih =>
    obtain ⟨hname, hrest⟩ := List.forall_mem_cons.mp h
    obtain ⟨hfirst, hstages⟩ := ih hrest
    rw [ChangesFirst, Contents.stages, stageEvent_of_not_changes hname]
    constructor
    · split_ifs
      · exact hfirst
      · exact hrest
    · dsimp only
      split_ifs
      · exact hstages
      · rfl

/-- **What a plan does to the store**: the requests of its stages, one after the other; and if no
stage makes a request behind one that uses the clock or the audio, the contents become those that
the stages lead to. -/
theorem planRun_events {s s' : Store} {reply reply' : Reply P.Double}
    {plan : List (CommandName × Command P.Double)}
    (h : planRun b s reply plan = some (s', reply')) :
    ∃ evs os, exec (step P) s evs = some (s', os) ∧ appendsOf evs = [] ∧
      ∀ q es, Reflects P q s es → ChangesFirst plan → q.run P evs = q.stages P plan := by
  induction plan generalizing s reply with
  | nil =>
    obtain ⟨rfl, -⟩ := Prod.mk.inj (Option.some.inj h)
    exact ⟨[], [], rfl, rfl, fun q es _ _ => rfl⟩
  | cons p rest ih =>
    obtain ⟨name, cmd⟩ := p
    obtain ⟨⟨reply₁, s₁⟩, hrun, hnext⟩ := Option.bind_eq_some_iff.mp h
    dsimp only at hnext
    have hstage := run_stage b hrun
    rw [stageEvent_eq_map] at hstage
    rcases hev : stageEvent 0 name (cmd.args.map CommandArg.item) with - | ev
    · rw [hev] at hstage
      obtain ⟨rfl, hfails⟩ := hstage
      split_ifs at hnext with hstatus
      · -- the stage fails, and the plan ends
        obtain ⟨rfl, -⟩ := Prod.mk.inj (Option.some.inj hnext)
        refine ⟨[], [], rfl, rfl, fun q es _ _ => ?_⟩
        rw [Contents.stages, hev]
        dsimp only
        rw [if_neg]
        · rfl
        · rintro ⟨rfl, hargs⟩
          exact hstatus ((run_ping b hrun).mpr hargs)
      · rw [not_not] at hstatus
        obtain ⟨evs, os, hevs, happends, hcontents⟩ := ih hnext
        refine ⟨evs, os, hevs, happends, fun q es hq hfirst => ?_⟩
        have hname : ¬ name.changes = true := fun hchanges => hfails hchanges hstatus
        rw [ChangesFirst] at hfirst
        rw [Contents.stages, hev]
        dsimp only
        split_ifs at hfirst with hping
        · obtain rfl := hping.resolve_left hname
          rw [if_pos ⟨rfl, (run_ping b hrun).mp hstatus⟩]
          exact hcontents q es hq hfirst
        · obtain ⟨hrest, hsame⟩ := stages_of_not_changes (P := P) hfirst q
          rw [if_neg fun hcond => hping (.inr hcond.1), hcontents q es hq hrest, hsame]
    · rw [hev] at hstage
      obtain ⟨hstep, hstatus⟩ := hstage
      have happend : appendsOf [ev.at (b.timeNow s)] = [] := by
        refine @appendsOf_stageEvent _ (b.timeNow s) name (cmd.args.map CommandArg.item) _ ?_
        rw [stageEvent_eq_map, hev, Option.map_some]
      split_ifs at hnext with hfails
      · obtain ⟨rfl, -⟩ := Prod.mk.inj (Option.some.inj hnext)
        refine ⟨[ev.at (b.timeNow s)], [.other], ?_, happend, fun q es hq _ => ?_⟩
        · exact exec_cons_eq_some.mpr ⟨_, _, [], hstep, rfl, rfl⟩
        · have hrefused : ¬ q.succeeds ev = true := by
            rw [← hq.succeeds (b.timeNow s)]
            exact hstatus.not.mp hfails
          rw [Contents.stages, hev]
          dsimp only
          rw [if_neg hrefused]
          exact (q.step_at (b.timeNow s) ev).trans (Contents.step_of_not_succeeds hrefused)
      · rw [not_not] at hfails
        obtain ⟨evs, os, hevs, happends, hcontents⟩ := ih hnext
        refine ⟨ev.at (b.timeNow s) :: evs, .other :: os, ?_, ?_, fun q es hq hfirst => ?_⟩
        · exact exec_cons_eq_some.mpr ⟨_, _, os, hstep, hevs, rfl⟩
        · rw [← List.singleton_append, appendsOf_append, happend, happends, List.append_nil]
        · have hname : name.changes = true := by
            by_contra hname
            rw [stageEvent_of_not_changes (Bool.not_eq_true _ ▸ hname)] at hev
            cases hev
          have hsucceeds : q.succeeds ev = true := by
            rw [← hq.succeeds (b.timeNow s)]
            exact hstatus.mp hfails
          rw [ChangesFirst, if_pos (.inl hname)] at hfirst
          rw [Contents.stages, hev]
          dsimp only
          rw [if_pos hsucceeds, ← q.step_at (b.timeNow s) ev]
          exact hcontents _ _ (hq.step hstep) hfirst

/-- What a message does to the contents. -/
def Contents.message (q : Contents) (message : List UInt8) : Contents :=
  if isFrame message then (framesIn lib message).foldl (Contents.append P) q
  else match (cmdText message).bind (planText lib.atof) with
    | some (st, .continue) =>
      if ∃ cmd ∈ st.plan, (execGet cmd.name).isNone then q else q.stages P (planStages st.plan)
    | _ => q

/-- What the message does to the contents does not depend on the clock or the audio. -/
def ClockFree (message : List UInt8) : Prop :=
  isFrame message = true ∨ ∀ st, (cmdText message).bind (planText lib.atof) =
    some (st, .continue) → ChangesFirst (planStages st.plan)

variable {lib b} {s s' : Store}

/-- A command line runs the requests of its stages. -/
theorem dbExec_events {cmd data : List UInt8} (h : dbExec lib b s cmd = some (s', data))
    (hframe : isFrame cmd = false) :
    ∃ evs os, exec (step P) s evs = some (s', os) ∧ appendsOf evs = framesIn lib cmd ∧
      ∀ q es, Reflects P q s es → ClockFree lib cmd → q.run P evs = q.message lib cmd := by
  obtain ⟨source, hsource, h⟩ := Option.bind_eq_some_iff.mp h
  obtain ⟨⟨st, rc⟩, hbuilt, h⟩ := Option.bind_eq_some_iff.mp h
  obtain ⟨⟨t, status, out⟩, hexec, heq⟩ := Option.map_eq_some_iff.mp h
  obtain ⟨rfl, -⟩ := Prod.mk.inj heq
  obtain ⟨r, hr, hdestroy⟩ := Option.bind_eq_some_iff.mp hexec
  obtain ⟨-, -, rfl⟩ := Option.map_eq_some_iff.mp hdestroy
  have hplan : (cmdText cmd).bind (planText lib.atof) = some (st, rc) := by
    rw [hsource, Option.bind_some, hbuilt]
  have hframes : framesIn lib cmd = [] := by rw [framesIn, hframe]; rfl
  rw [hframes]
  cases rc with
  | abort =>
    obtain ⟨rfl, -⟩ := Prod.mk.inj (Option.some.inj hr)
    refine ⟨[], [], rfl, rfl, fun q es _ _ => ?_⟩
    rw [Contents.message, hframe, hplan]
    rfl
  | «continue» =>
    have hmessage : ∀ q : Contents, q.message lib cmd =
        if ∃ cmd ∈ st.plan, (execGet cmd.name).isNone then q
        else q.stages P (planStages st.plan) := by
      intro q
      rw [Contents.message, hframe, hplan]
      rfl
    dsimp only at hr
    rw [planExec] at hr
    rcases hfind : st.plan.find? (fun cmd => (execGet cmd.name).isNone) with - | unknown
    · rw [hfind] at hr
      obtain ⟨⟨t', reply⟩, hrun, heq⟩ := Option.map_eq_some_iff.mp hr
      obtain ⟨rfl, -⟩ := Prod.mk.inj heq
      obtain ⟨evs, os, hevs, happends, hcontents⟩ := planRun_events b hrun
      refine ⟨evs, os, hevs, happends, fun q es hq hfree => ?_⟩
      rw [hmessage, if_neg, hcontents q es hq]
      · exact hfree.resolve_left (by rw [hframe]; exact Bool.false_ne_true) st hplan
      · rintro ⟨cmd', hmem, hunknown⟩
        exact List.find?_eq_none.mp hfind cmd' hmem hunknown
    · rw [hfind] at hr
      obtain ⟨rfl, -⟩ := Prod.mk.inj (Option.some.inj hr)
      refine ⟨[], [], rfl, rfl, fun q es _ _ => ?_⟩
      have hunknown := List.find?_some hfind
      rw [hmessage, if_pos ⟨unknown, List.mem_of_find?_eq_some hfind, hunknown⟩]
      rfl

/-- A batch appends its frames. -/
theorem streamBatch_events {items : List (Item P.Double)} {is : List ℕ}
    (h : is.foldlM (fun s i => (unpackU8v items i).bind fun frame =>
      (streamAppend P s frame).map Prod.fst) s = some s') :
    ∃ os, exec (step P) s ((is.filterMap (unpackU8v items)).map .append) = some (s', os) := by
  induction is generalizing s with
  | nil =>
    obtain rfl := Option.some.inj h
    exact ⟨[], rfl⟩
  | cons i is ih =>
    rw [List.foldlM_cons] at h
    obtain ⟨s₁, hi, h⟩ := Option.bind_eq_some_iff.mp h
    obtain ⟨frame, hframe, hi⟩ := Option.bind_eq_some_iff.mp hi
    obtain ⟨⟨t, status⟩, happend, rfl⟩ := Option.map_eq_some_iff.mp hi
    obtain ⟨os, hrun⟩ := ih h
    rw [List.filterMap_cons, hframe]
    refine ⟨appendOutput s t status :: os, exec_cons_eq_some.mpr ⟨t, _, os, ?_, hrun, rfl⟩⟩
    rw [step, happend, Option.map_some]

theorem appendsOf_map_append (frames : List (List UInt8)) :
    appendsOf (frames.map .append) = frames := by
  rw [appendsOf, List.filterMap_map]
  exact List.filterMap_some

theorem dbStreamBatch_events {data reply : List UInt8}
    (h : dbStreamBatch lib s data = some (s', reply)) (hframe : isFrame data = true) :
    ∃ evs os, exec (step P) s evs = some (s', os) ∧ appendsOf evs = framesIn lib data ∧
      ∀ q : Contents, q.run P evs = q.message lib data := by
  obtain ⟨buffer, hitems, h⟩ := Option.bind_eq_some_iff.mp h
  obtain ⟨⟨t, reply'⟩, hstream, heq⟩ := Option.map_eq_some_iff.mp h
  obtain ⟨rfl, -⟩ := Prod.mk.inj heq
  obtain ⟨t, hbatch, heq⟩ := Option.map_eq_some_iff.mp hstream
  obtain ⟨rfl, -⟩ := Prod.mk.inj heq
  have hframes : ∃ os, exec (step P) s ((framesIn lib data).map .append) = some (t, os) := by
    rw [framesIn, hframe, hitems, Option.map_some]
    rw [streamBatchAppend] at hbatch
    rcases hunpack : unpackNext buffer with - | i | items
    · rw [hunpack] at hbatch
      obtain rfl := Option.some.inj hbatch
      exact ⟨[], rfl⟩
    · rw [hunpack] at hbatch
      cases hbatch
    · rw [hunpack] at hbatch
      exact streamBatch_events hbatch
  obtain ⟨os, hrun⟩ := hframes
  refine ⟨_, os, hrun, appendsOf_map_append _, fun q => ?_⟩
  rw [Contents.message, if_pos hframe, Contents.run, List.foldl_map]
  rfl

/-- **What a message does to the store**: events of a run, which append exactly its frames. -/
theorem answer_events {message data : List UInt8}
    (h : (dbHandlers lib b).answer (some s) message = (some s', data)) :
    ∃ evs os, exec (step P) s evs = some (s', os) ∧ appendsOf evs = framesIn lib message ∧
      ∀ q es, Reflects P q s es → ClockFree lib message → q.run P evs = q.message lib message := by
  have hanswered : ∀ {r : Option (Store × List UInt8)}, answered r = (some s', data) →
      r = some (s', data) := by
    rintro (- | ⟨t, data'⟩) hr
    · cases (Prod.mk.inj hr).1
    · obtain ⟨ht, rfl⟩ := Prod.mk.inj hr
      rw [Option.some.inj ht]
  rw [Handlers.answer] at h
  split_ifs at h with hframe
  · obtain ⟨evs, os, hevs, happends, hcontents⟩ := dbStreamBatch_events (hanswered h) hframe
    exact ⟨evs, os, hevs, happends, fun q _ _ _ => hcontents q⟩
  · exact dbExec_events (hanswered h) (by simpa using hframe)

/-! ### The server -/

variable (lib) in
/-- What the messages of a log do to the contents. -/
def Contents.messages (q : Contents) (log : List (κ × List UInt8)) : Contents :=
  log.foldl (fun q m => q.message lib m.2) q

variable {l l' : EventLoop κ (Option Store)} {ev : ServerEvent κ} {o : Option (κ × List UInt8)}

omit [DecidableEq κ] in
/-- The store does not come back once it is lost. -/
theorem exists_of_answer {store : Option Store} {message : List UInt8}
    (h : ((dbHandlers lib b).answer store message).1 = some s') :
    ∃ s data, store = some s ∧ (dbHandlers lib b).answer (some s) message = (some s', data) := by
  rcases store with - | s
  · rw [Handlers.answer] at h
    split_ifs at h <;> cases h
  · exact ⟨s, _, rfl, Prod.ext h rfl⟩

/-- **One step of the server** runs events on its store, which append the frames of the message that
it executes, if it executes one. -/
theorem serverStep_events (hstep : serverStep lib b l ev = some (l', o))
    (hs' : l'.state = some s') :
    ∃ s evs os, l.state = some s ∧ exec (step P) s evs = some (s', os) ∧
      appendsOf evs = o.toList.flatMap (fun m => framesIn lib m.2) ∧
      ∀ q es, Reflects P q s es → (∀ m ∈ o.toList, ClockFree lib m.2) →
        q.run P evs = q.messages lib o.toList := by
  have hidle : l'.state = l.state → o = none →
      ∃ s evs os, l.state = some s ∧ exec (step P) s evs = some (s', os) ∧
        appendsOf evs = o.toList.flatMap (fun m => framesIn lib m.2) ∧
        ∀ q es, Reflects P q s es → (∀ m ∈ o.toList, ClockFree lib m.2) →
          q.run P evs = q.messages lib o.toList := by
    rintro hsame rfl
    exact ⟨s', [], [], hsame ▸ hs', rfl, rfl, fun q _ _ _ => rfl⟩
  cases ev with
  | flush i =>
    obtain ⟨rfl, rfl⟩ := Prod.mk.inj (Option.some.inj hstep)
    obtain ⟨s, hs, hflush⟩ := Option.bind_eq_some_iff.mp hs'
    obtain ⟨⟨s₁, out⟩, hstep, rfl⟩ := Option.map_eq_some_iff.mp hflush
    exact ⟨s, [.flush i], [out], hs, exec_cons_eq_some.mpr ⟨_, _, [], hstep, rfl, rfl⟩, rfl,
      fun q _ _ _ => rfl⟩
  | loop ev =>
    rcases eventLoopStep_cases hstep with ⟨k, -, rfl, hnew, rfl⟩ |
      ⟨k, chunk, c, conn, executed, -, hclient, hread, rfl, rfl⟩ |
      ⟨k, -, c, isOpen, -, rfl, hclient, rfl⟩
    · exact hidle rfl rfl
    · rcases readCallback_cases (dbHandlers lib b) (l.connection c chunk) with hnone |
        ⟨raw, buf, rest, hmessage⟩
      · obtain ⟨rfl, rfl⟩ := Prod.mk.inj (hread.symm.trans hnone)
        exact hidle rfl rfl
      · obtain ⟨rfl, rfl⟩ := Prod.mk.inj (hread.symm.trans hmessage)
        obtain ⟨s, data, hs, hanswer⟩ := exists_of_answer hs'
        obtain ⟨evs, os, hevs, happends, hcontents⟩ := answer_events hanswer
        refine ⟨s, evs, os, hs, hevs, ?_, fun q es hq hfree => ?_⟩
        · rw [happends]
          exact (List.flatMap_singleton ..).symm
        · exact hcontents q es hq (hfree (k, buf) (List.mem_singleton.mpr rfl))
    · exact hidle rfl rfl

/-- The events that a run of the server is for its store. -/
theorem server_events {cfg : Config} {events : List (ServerEvent κ)}
    {t : EventLoop κ (Option Store)} {executed : List (Option (κ × List UInt8))}
    (hrun : exec (serverStep lib b) (.init (some (Store.init cfg))) events = some (t, executed))
    (hs : t.state = some s) :
    ∃ evs os, exec (step P) (Store.init cfg) evs = some (s, os) ∧
      appendsOf evs = executed.reduceOption.flatMap (fun m => framesIn lib m.2) ∧
      ((∀ m ∈ executed.reduceOption, ClockFree lib m.2) →
        Contents.empty.run P evs = Contents.empty.messages lib executed.reduceOption) := by
  induction events using List.reverseRecOn generalizing t executed s with
  | nil =>
    obtain ⟨rfl, rfl⟩ : EventLoop.init (some (Store.init cfg)) = t ∧ [] = executed := by
      simpa using hrun
    obtain rfl := Option.some.inj hs
    exact ⟨[], [], rfl, rfl, fun _ => rfl⟩
  | append_singleton events ev ih =>
    obtain ⟨m, executed, o, hbefore, hstep, rfl⟩ := exec_concat_eq_some.mp hrun
    obtain ⟨s₀, evs, os, hs₀, hevs, happends, hcontents⟩ := serverStep_events hstep hs
    obtain ⟨evs₀, os₀, hevs₀, happends₀, hcontents₀⟩ := ih hbefore hs₀
    rw [reduceOption_concat]
    refine ⟨evs₀ ++ evs, os₀ ++ os, exec_append_eq_some.mpr ⟨s₀, os₀, os, hevs₀, hevs, rfl⟩, ?_,
      fun hfree => ?_⟩
    · rw [appendsOf_append, happends₀, happends, List.flatMap_append]
    · have hbefore := hcontents₀ fun m hm => hfree m (List.mem_append_left _ hm)
      have hafter := hcontents _ _ (reflects_exec hevs₀) fun m hm =>
        hfree m (List.mem_append_right _ hm)
      rw [Contents.run, List.foldl_append, Contents.messages, List.foldl_append]
      rw [Contents.run, Contents.messages] at hbefore
      rw [Contents.run, Contents.run, Contents.messages, hbefore] at hafter
      rw [hbefore]
      exact hafter

/-- `n` binary elements of the format with a length of eight bits, each with what is behind it in
memory. -/
def bin8Items {δ : Type} : ℕ → List UInt8 → Option (Buffer δ)
  | 0, _ => some []
  | n + 1, tag :: size :: data =>
    if tag = 0xc4 ∧ size.toNat ≤ data.length then
      (bin8Items n (data.drop size.toNat)).map (.bin data :: ·)
    else none
  | _, _ => none

/-- A library for arrays of up to fifteen such elements. -/
def batchLibrary : Library Platform.rational.Double where
  atof _ := Platform.rational.ofInt 0
  bytes _ := []
  items
    | [] => none
    | tag :: data =>
      if 0x90 ≤ tag ∧ tag ≤ 0x9f then
        (bin8Items (tag - 0x90).toNat data).map (.array (tag - 0x90).toNat :: ·)
      else none

/-- The line that creates and opens the stream `a`. -/
def createOpenLine : List UInt8 := ascii "CREATE 'a' 48000 2 16 |> OPEN 'a'" ++ [0]

/-- The line makes its requests first. -/
theorem clockFree_createOpenLine : ClockFree batchLibrary createOpenLine := by
  have hnames : ((cmdText createOpenLine).bind (planText batchLibrary.atof)).map
      (fun r => (planStages r.1.plan).map Prod.fst) = some [.create, .openStream] := by
    decide +kernel
  refine .inr fun st hst => ?_
  rw [hst] at hnames
  have hplan := Option.some.inj hnames
  obtain ⟨p, rest, hrest, hp, hnames⟩ := List.map_eq_cons_iff.mp hplan
  obtain ⟨p', hrest', hp'⟩ := List.map_eq_singleton_iff.mp hnames
  dsimp only at hrest
  rw [hrest, hrest', ChangesFirst, hp, if_pos (.inl rfl), ChangesFirst, hp', if_pos (.inl rfl)]
  trivial

/-- A batch of two frames of the stream `a`, with four bytes of audio each. -/
def pairBatch : List UInt8 :=
  ascii "rsp" ++ 0x92 ::
    (0xc4 :: 38 :: (Frame.constant (racsHash streamA) 1 4).bytes ++
      0xc4 :: 38 :: (Frame.constant (racsHash streamA) 2 4).bytes)

/-- A client creates and opens the stream `a` and sends a batch, of which the last byte comes
later, when the memtables are being flushed. -/
def createOpenSend : List (ServerEvent Unit) :=
  [.loop (.accept ()), .loop (.read () (replyBytes createOpenLine)),
    .loop (.read () (replyBytes pairBatch).dropLast), .flush 0,
    .loop (.read () (pairBatch.drop 83))]

end Racs
