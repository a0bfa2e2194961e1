import Racs.Server
import Mathlib.Logic.Function.Basic

/-!
# The event loop

`racs_accept_callback`, `racs_read_callback` and `racs_event_callback` (`server.c`) run in one
thread, one after the other, in the order in which the connections are made, bytes arrive and
connections end. All connections share the server; each has an input and an output buffer of its
own.

A connection stays known after it is freed, with the buffers that it had.

## Main definitions

* `Racs.Client`, `Racs.EventLoop`, `Racs.LoopEvent`, `Racs.eventLoopStep`.
* `Racs.Handlers.serve` — a server without buffers, which is given whole messages.
* `Racs.executedBy`, `Racs.chunksOf` — what a run executes for a client, and what it receives from
  it.

## Main results

* `Racs.eventLoop_serial` — a run answers the messages of all clients as if they were handed over
  whole, in one order, and every client receives the replies to its own messages.
* `Racs.eventLoop_isolated` — which messages of a client are executed, and what stays in its input
  buffer, does not depend on the other clients.
-/

namespace Racs

open PartialRun

/-! ### The callbacks -/

/-- The buffers of a connection, and whether it is open. -/
structure Client where
  input : List UInt8
  output : List UInt8
  isOpen : Bool
  deriving DecidableEq

/-- The connections by their number, the messages handed to `racs_broadcast_to_slaves`, and the
state of the server. -/
structure EventLoop (κ σ : Type) where
  clients : κ → Option Client
  broadcast : List (List UInt8)
  state : σ

/-- What the event loop calls. -/
inductive LoopEvent (κ : Type)
  /-- `racs_accept_callback`. -/
  | accept (k : κ)
  /-- A chunk has arrived in the input buffer, and `racs_read_callback` runs. -/
  | read (k : κ) (chunk : List UInt8)
  /-- `racs_event_callback`. -/
  | event (k : κ) (events : Int16)
  deriving DecidableEq

variable {κ σ τ : Type} [DecidableEq κ]

/-- The connection with a number, if it is open. -/
def EventLoop.open? (l : EventLoop κ σ) (k : κ) : Option Client :=
  (l.clients k).filter Client.isOpen

/-- `racs_accept_callback`; the numbers of connections are new. -/
def acceptCallback (l : EventLoop κ σ) (k : κ) : Option (EventLoop κ σ) :=
  match l.clients k with
  | none => some { l with clients := Function.update l.clients k (some ⟨[], [], true⟩) }
  | some _ => none

/-- `racs_event_callback`: `BEV_EVENT_EOF` is `0x10`, and `BEV_EVENT_ERROR` is `0x20`. -/
def eventCallback (l : EventLoop κ σ) (k : κ) (c : Client) (events : Int16) : EventLoop κ σ :=
  if events &&& (0x10 ||| 0x20) ≠ 0 then
    { l with clients := Function.update l.clients k (some { c with isOpen := false }) }
  else l

/-- The connection of a client, with the server. -/
def EventLoop.connection (l : EventLoop κ σ) (c : Client) (chunk : List UInt8) : Connection σ :=
  ⟨c.input ++ chunk, c.output, l.broadcast, l.state⟩

/-- What a callback leaves of a connection and the server. -/
def EventLoop.set (l : EventLoop κ σ) (k : κ) (conn : Connection σ) : EventLoop κ σ where
  clients := Function.update l.clients k (some ⟨conn.input, conn.output, true⟩)
  broadcast := conn.broadcast
  state := conn.state

/-- One callback, with the message that it executes. There are no callbacks for connections that are
not open. -/
def eventLoopStep (h : Handlers σ) (l : EventLoop κ σ) :
    LoopEvent κ → Option (EventLoop κ σ × Option (κ × List UInt8))
  | .accept k => (acceptCallback l k).map (·, none)
  | .read k chunk => (l.open? k).map fun c =>
      let (conn, executed) := readCallback h (l.connection c chunk)
      (l.set k conn, executed.map (k, ·))
  | .event k events => (l.open? k).map fun c => (eventCallback l k c events, none)

/-- The event loop before the first connection. -/
def EventLoop.init (state : σ) : EventLoop κ σ := ⟨fun _ => none, [], state⟩

/-! ### The server without buffers -/

/-- The messages answered one after the other: the state of the server, and the result for each,
with the client that sent it. -/
def Handlers.serve (h : Handlers σ) (state : σ) (log : List (κ × List UInt8)) :
    σ × List (κ × List UInt8) :=
  log.foldl (fun r q => ((h.answer r.1 q.2).1, r.2 ++ [(q.1, (h.answer r.1 q.2).2)])) (state, [])

/-- What is written for a client of these results. -/
def repliesTo (k : κ) (results : List (κ × List UInt8)) : List UInt8 :=
  (results.filter fun q => q.1 = k).flatMap fun q => replyBytes q.2

/-- The message that a step executed, if it is one of the client. -/
def sentBy? (k : κ) (o : Option (κ × List UInt8)) : Option (List UInt8) :=
  o.bind fun q => if q.1 = k then some q.2 else none

/-- The messages of a client among those that a run executed. -/
def executedBy (k : κ) (os : List (Option (κ × List UInt8))) : List (List UInt8) :=
  os.filterMap (sentBy? k)

/-- What an event brings of a client. -/
def LoopEvent.chunk? (k : κ) : LoopEvent κ → Option (List UInt8)
  | .read k' chunk => if k' = k then some chunk else none
  | _ => none

/-- The chunks of a client. -/
def chunksOf (k : κ) (events : List (LoopEvent κ)) : List (List UInt8) :=
  events.filterMap (LoopEvent.chunk? k)

omit [DecidableEq κ] in
theorem serve_concat (h : Handlers σ) (state : σ) (log : List (κ × List UInt8))
    (q : κ × List UInt8) :
    h.serve state (log ++ [q]) =
      ((h.answer (h.serve state log).1 q.2).1,
        (h.serve state log).2 ++ [(q.1, (h.answer (h.serve state log).1 q.2).2)]) := by
  rw [Handlers.serve, List.foldl_append]
  rfl

theorem repliesTo_concat (k : κ) (results : List (κ × List UInt8)) (q : κ × List UInt8) :
    repliesTo k (results ++ [q]) =
      repliesTo k results ++ if q.1 = k then replyBytes q.2 else [] := by
  rw [repliesTo, List.filter_append, List.flatMap_append]
  by_cases hk : q.1 = k
  · have hfilter : [q].filter (fun q => q.1 = k) = [q] := by simp [hk]
    rw [if_pos hk, hfilter, List.flatMap_singleton, repliesTo]
  · have hfilter : [q].filter (fun q => q.1 = k) = [] := by simp [hk]
    rw [if_neg hk, hfilter, List.flatMap_nil, repliesTo]

theorem reduceOption_concat {α : Type} (os : List (Option α)) (o : Option α) :
    (os ++ [o]).reduceOption = os.reduceOption ++ o.toList := by
  rw [List.reduceOption_append]
  rcases o with - | a <;> rfl

theorem executedBy_concat (k : κ) (os : List (Option (κ × List UInt8)))
    (o : Option (κ × List UInt8)) :
    executedBy k (os ++ [o]) = executedBy k os ++ (sentBy? k o).toList := by
  rw [executedBy, List.filterMap_append]
  rcases hsent : sentBy? k o with - | message <;> simp [executedBy, hsent]

theorem chunksOf_concat (k : κ) (events : List (LoopEvent κ)) (ev : LoopEvent κ) :
    chunksOf k (events ++ [ev]) = chunksOf k events ++ (ev.chunk? k).toList := by
  rw [chunksOf, List.filterMap_append]
  rcases hchunk : ev.chunk? k with - | chunk <;> simp [chunksOf, hchunk]

/-! ### One step -/

variable {h : Handlers σ} {l l' : EventLoop κ σ} {ev : LoopEvent κ}
  {o : Option (κ × List UInt8)}

omit [DecidableEq κ] in
theorem open?_eq_some {k : κ} {c : Client} :
    l.open? k = some c ↔ l.clients k = some c ∧ c.isOpen = true := by
  rw [EventLoop.open?, Option.filter_eq_some_iff]

theorem set_clients_self (l : EventLoop κ σ) (k : κ) (conn : Connection σ) :
    (l.set k conn).clients k = some ⟨conn.input, conn.output, true⟩ :=
  Function.update_self ..

theorem set_clients_of_ne (l : EventLoop κ σ) {k k' : κ} (hk : k' ≠ k) (conn : Connection σ) :
    (l.set k conn).clients k' = l.clients k' :=
  Function.update_of_ne hk ..

/-- **All that a step can do**: make a connection, answer a message or leave it in the buffer, and
free a connection. -/
theorem eventLoopStep_cases (hstep : eventLoopStep h l ev = some (l', o)) :
    (∃ k, ev = .accept k ∧ o = none ∧ l.clients k = none ∧
      l' = { l with clients := Function.update l.clients k (some ⟨[], [], true⟩) }) ∨
    (∃ k chunk c conn executed, ev = .read k chunk ∧ l.clients k = some c ∧
      readCallback h (l.connection c chunk) = (conn, executed) ∧ l' = l.set k conn ∧
      o = executed.map (k, ·)) ∨
    (∃ k events c isOpen, ev = .event k events ∧ o = none ∧ l.clients k = some c ∧
      l' = { l with
        clients := Function.update l.clients k (some { c with isOpen := isOpen }) }) := by
  cases ev with
  | accept k =>
    obtain ⟨l₁, haccept, heq⟩ := Option.map_eq_some_iff.mp hstep
    obtain ⟨rfl, rfl⟩ := Prod.mk.inj heq
    rw [acceptCallback] at haccept
    split at haccept
    · rename_i hnew
      exact .inl ⟨k, rfl, rfl, hnew, (Option.some.inj haccept).symm⟩
    · cases haccept
  | read k chunk =>
    obtain ⟨c, hopen, heq⟩ := Option.map_eq_some_iff.mp hstep
    obtain ⟨rfl, rfl⟩ := Prod.mk.inj heq
    exact .inr (.inl ⟨k, chunk, c, _, _, rfl, (open?_eq_some.mp hopen).1, rfl, rfl, rfl⟩)
  | event k events =>
    obtain ⟨c, hopen, heq⟩ := Option.map_eq_some_iff.mp hstep
    obtain ⟨rfl, rfl⟩ := Prod.mk.inj heq
    have hclient := (open?_eq_some.mp hopen).1
    refine .inr (.inr ?_)
    rw [eventCallback]
    split_ifs with hend
    · exact ⟨k, events, c, false, rfl, rfl, hclient, rfl⟩
    · refine ⟨k, events, c, c.isOpen, rfl, rfl, hclient, ?_⟩
      rw [Function.update_eq_self_iff.mpr hclient.symm]

/-- A callback executes nothing and leaves the connection as it is, or it answers a message. -/
theorem readCallback_cases (h : Handlers σ) (conn : Connection σ) :
    readCallback h conn = (conn, none) ∨
      ∃ raw buf rest, readCallback h conn =
        (⟨rest, conn.output ++ replyBytes (h.answer conn.state buf).2, conn.broadcast ++ [raw],
          (h.answer conn.state buf).1⟩, some buf) := by
  by_cases hzero : lengthPrefix conn.input = 0
  · exact .inl (readCallback_none h hzero)
  · rw [readCallback]
    dsimp only
    rw [if_neg hzero]
    exact .inr ⟨_, _, _, rfl⟩

/-! ### One order of all messages -/

/-- The server and the output of every connection after the messages of a log. -/
structure Serialized (h : Handlers σ) (state : σ) (log : List (κ × List UInt8))
    (l : EventLoop κ σ) : Prop where
  state_eq : l.state = (h.serve state log).1
  output_eq : ∀ k c, l.clients k = some c → c.output = repliesTo k (h.serve state log).2
  unknown : ∀ k, l.clients k = none → repliesTo k (h.serve state log).2 = []

/-- A callback that answers no message keeps the server and all outputs. -/
theorem Serialized.update {state : σ} {log : List (κ × List UInt8)}
    (hl : Serialized h state log l) {k : κ} {c : Client}
    (hoff : c.output = repliesTo k (h.serve state log).2) :
    Serialized h state log { l with clients := Function.update l.clients k (some c) } where
  state_eq := hl.state_eq
  output_eq k' c' hclient := by
    dsimp only at hclient
    by_cases hk : k' = k
    · subst hk
      rw [Function.update_self] at hclient
      rw [← Option.some.inj hclient, hoff]
    · rw [Function.update_of_ne hk] at hclient
      exact hl.output_eq k' c' hclient
  unknown k' hnone := by
    dsimp only at hnone
    by_cases hk : k' = k
    · subst hk
      rw [Function.update_self] at hnone
      cases hnone
    · rw [Function.update_of_ne hk] at hnone
      exact hl.unknown k' hnone

/-- **The step lemma**: a step answers the message that it executes, and no other. -/
theorem Serialized.step {state : σ} {log : List (κ × List UInt8)}
    (hl : Serialized h state log l) (hstep : eventLoopStep h l ev = some (l', o)) :
    Serialized h state (log ++ o.toList) l' := by
  rcases eventLoopStep_cases hstep with ⟨k, -, rfl, hnew, rfl⟩ |
    ⟨k, chunk, c, conn, executed, -, hclient, hread, rfl, rfl⟩ |
    ⟨k, -, c, isOpen, -, rfl, hclient, rfl⟩
  · rw [Option.toList_none, List.append_nil]
    exact hl.update (hl.unknown k hnew).symm
  · rcases readCallback_cases h (l.connection c chunk) with hidle | ⟨raw, buf, rest, hmessage⟩
    · obtain ⟨rfl, rfl⟩ := Prod.mk.inj (hread.symm.trans hidle)
      rw [Option.map_none, Option.toList_none, List.append_nil]
      exact hl.update (hl.output_eq k c hclient)
    · obtain ⟨rfl, rfl⟩ := Prod.mk.inj (hread.symm.trans hmessage)
      have hstate : (l.connection c chunk).state = (h.serve state log).1 := hl.state_eq
      rw [Option.map_some, Option.toList_some]
      refine ⟨?_, fun k' c' hclient' => ?_, fun k' hnone => ?_⟩
      · rw [serve_concat, ← hstate]
        rfl
      · rw [serve_concat, repliesTo_concat, ← hstate]
        by_cases hk : k' = k
        · subst hk
          rw [set_clients_self] at hclient'
          rw [if_pos rfl, ← hl.output_eq k' c hclient, ← Option.some.inj hclient']
          rfl
        · rw [set_clients_of_ne l hk] at hclient'
          rw [if_neg (Ne.symm hk), List.append_nil]
          exact hl.output_eq k' c' hclient'
      · have hk : k' ≠ k := by
          rintro rfl
          rw [set_clients_self] at hnone
          cases hnone
        rw [set_clients_of_ne l hk] at hnone
        rw [serve_concat, repliesTo_concat, if_neg (Ne.symm hk), List.append_nil]
        exact hl.unknown k' hnone
  · rw [Option.toList_none, List.append_nil]
    exact hl.update (hl.output_eq k c hclient)

/-- **One order of all messages.** After any run, the state of the server is the one after the
messages that were executed, of all clients, handed over whole and one at a time; and every client
was sent the replies to its own messages, each computed at its place in this order. -/
theorem eventLoop_serial {state : σ} {events : List (LoopEvent κ)} {t : EventLoop κ σ}
    {os : List (Option (κ × List UInt8))}
    (hrun : exec (eventLoopStep h) (.init state) events = some (t, os)) :
    t.state = (h.serve state os.reduceOption).1 ∧
      ∀ k c, t.clients k = some c → c.output = repliesTo k (h.serve state os.reduceOption).2 := by
  have hserialized : Serialized h state os.reduceOption t := by
    refine exec_induction (P := fun os l => Serialized h state os.reduceOption l) ?_ ?_ hrun
    · intro os l ev l' o hl hstep
      rw [reduceOption_concat]
      exact hl.step hstep
    · exact ⟨rfl, fun _ _ hclient => (nomatch hclient), fun _ _ => rfl⟩
  exact ⟨hserialized.state_eq, hserialized.output_eq⟩

/-! ### Every client by itself -/

/-- What a callback takes out of the input buffer does not depend on the server. -/
theorem readCallback_input (h : Handlers σ) (h' : Handlers τ) {conn : Connection σ}
    {conn' : Connection τ} (hinput : conn.input = conn'.input) :
    (readCallback h conn).1.input = (readCallback h' conn').1.input ∧
      (readCallback h conn).2 = (readCallback h' conn').2 := by
  rw [readCallback, readCallback, ← hinput]
  dsimp only
  split_ifs with hzero
  · exact ⟨hinput, rfl⟩
  · exact ⟨rfl, rfl⟩

/-- The input buffer of a client; none of its bytes have arrived before it is connected. -/
def EventLoop.input (l : EventLoop κ σ) (k : κ) : List UInt8 :=
  ((l.clients k).map Client.input).getD []

/-- What a step brings of a client, and what it executes for it. -/
theorem eventLoopStep_client (k : κ) (hstep : eventLoopStep h l ev = some (l', o)) :
    (ev.chunk? k = none ∧ sentBy? k o = none ∧ l'.input k = l.input k) ∨
      ∃ chunk conn, ev.chunk? k = some chunk ∧ conn.input = l.input k ++ chunk ∧
        l'.input k = (readCallback h conn).1.input ∧ sentBy? k o = (readCallback h conn).2 := by
  rcases eventLoopStep_cases hstep with ⟨k', rfl, rfl, hnew, rfl⟩ |
    ⟨k', chunk, c, conn, executed, rfl, hclient, hread, rfl, rfl⟩ |
    ⟨k', events, c, isOpen, rfl, rfl, hclient, rfl⟩
  · refine .inl ⟨rfl, rfl, ?_⟩
    by_cases hk : k = k'
    · subst hk
      simp [EventLoop.input, hnew]
    · simp [EventLoop.input, Function.update_of_ne hk]
  · by_cases hk : k = k'
    · subst hk
      refine .inr ⟨chunk, l.connection c chunk, if_pos rfl, ?_, ?_, ?_⟩
      · rw [EventLoop.input, hclient]
        rfl
      · rw [EventLoop.input, set_clients_self, hread]
        rfl
      · rw [hread]
        rcases executed with - | message
        · rfl
        · exact if_pos rfl
    · refine .inl ⟨if_neg (Ne.symm hk), ?_, ?_⟩
      · rcases executed with - | message
        · rfl
        · exact if_neg (Ne.symm hk)
      · rw [EventLoop.input, set_clients_of_ne l hk, EventLoop.input]
  · refine .inl ⟨rfl, rfl, ?_⟩
    by_cases hk : k = k'
    · subst hk
      simp [EventLoop.input, hclient]
    · simp [EventLoop.input, Function.update_of_ne hk]

/-- The messages of a client that were executed, and the bytes in its input buffer, are those that
its chunks lead to on any server that has no other client. -/
def Alone (h' : Handlers τ) (state' : τ) (k : κ) (chunks executed : List (List UInt8))
    (l : EventLoop κ σ) : Prop :=
  ∃ conn os', exec (receive h') (.init state') chunks = some (conn, os') ∧
    os'.reduceOption = executed ∧ conn.input = l.input k

theorem Alone.step {h' : Handlers τ} {state' : τ} {k : κ} {chunks executed : List (List UInt8)}
    (halone : Alone h' state' k chunks executed l) (hstep : eventLoopStep h l ev = some (l', o)) :
    Alone h' state' k (chunks ++ (ev.chunk? k).toList) (executed ++ (sentBy? k o).toList) l' := by
  obtain ⟨conn, os', hrun, hexecuted, hinput⟩ := halone
  rcases eventLoopStep_client k hstep with ⟨hchunk, hsent, hsame⟩ |
    ⟨chunk, connHere, hchunk, hinputHere, hafter, hsent⟩
  · rw [hchunk, hsent, Option.toList_none, List.append_nil, List.append_nil]
    exact ⟨conn, os', hrun, hexecuted, hinput.trans hsame.symm⟩
  · let alone : Connection τ := { conn with input := conn.input ++ chunk }
    have hread := @readCallback_input σ τ h h' connHere alone (by rw [hinputHere, ← hinput])
    have hreceive : receive h' conn chunk = some (readCallback h' alone) := rfl
    rw [hchunk, hsent, hread.2]
    refine ⟨(readCallback h' alone).1, os' ++ [(readCallback h' alone).2], ?_, ?_, ?_⟩
    · exact exec_concat_eq_some.mpr ⟨conn, os', _, hrun, hreceive, rfl⟩
    · rw [reduceOption_concat, hexecuted]
    · rw [hafter, hread.1]

/-- **Every client by itself.** The messages of a client that a run executes, and the bytes that
stay in its input buffer, are those of a run with this client alone, on any server. -/
theorem eventLoop_isolated {state : σ} {events : List (LoopEvent κ)} {t : EventLoop κ σ}
    {os : List (Option (κ × List UInt8))} (h' : Handlers τ) (state' : τ) (k : κ)
    (hrun : exec (eventLoopStep h) (.init state) events = some (t, os)) :
    ∃ conn os', exec (receive h') (.init state') (chunksOf k events) = some (conn, os') ∧
      os'.reduceOption = executedBy k os ∧ conn.input = t.input k := by
  induction events using List.reverseRecOn generalizing t os with
  | nil =>
    obtain ⟨rfl, rfl⟩ : EventLoop.init state = t ∧ [] = os := by simpa using hrun
    exact ⟨_, [], rfl, rfl, rfl⟩
  | append_singleton events ev ih =>
    obtain ⟨m, os, o, hbefore, hstep, rfl⟩ := exec_concat_eq_some.mp hrun
    rw [chunksOf_concat, executedBy_concat]
    exact Alone.step (ih hbefore) hstep

/-! ### Two clients -/

/-- Two clients, the second of which sends its message while the first one is sending its own, and
then goes away. -/
def twoClients : List (LoopEvent Bool) :=
  [.accept false, .read false [1, 0, 0, 0, 0], .accept true, .read true [1, 0, 0, 0, 0, 0, 0, 0, 7],
    .event true 0x11, .read false [0, 0, 0, 5, 2]]

/-- A server that replies with the number of messages before. -/
def counting : Handlers UInt8 := ⟨fun n _ => (n + 1, [n]), fun n _ => (n + 1, [n])⟩

/-- The messages are executed in the order in which they were complete. -/
example :
    (exec (eventLoopStep counting) (.init 0) twoClients).map (fun r => r.2.reduceOption) =
      some [(true, [7]), (false, [5])] := by
  decide

theorem eventLoop_serial_twoClients :
    ∃ t os, exec (eventLoopStep counting) (.init 0) twoClients = some (t, os) ∧
      t.state = (counting.serve 0 os.reduceOption).1 ∧
      ∀ k c, t.clients k = some c →
        c.output = repliesTo k (counting.serve 0 os.reduceOption).2 := by
  have hsome : (exec (eventLoopStep counting) (.init 0) twoClients).isSome := by decide
  obtain ⟨⟨t, os⟩, hrun⟩ := Option.isSome_iff_exists.mp hsome
  exact ⟨t, os, hrun, eventLoop_serial hrun⟩

theorem eventLoop_isolated_twoClients :
    ∃ t os conn os', exec (eventLoopStep counting) (.init 0) twoClients = some (t, os) ∧
      exec (receive echo) (.init ()) (chunksOf false twoClients) = some (conn, os') ∧
      os'.reduceOption = executedBy false os ∧ conn.input = t.input false := by
  have hsome : (exec (eventLoopStep counting) (.init 0) twoClients).isSome := by decide
  obtain ⟨⟨t, os⟩, hrun⟩ := Option.isSome_iff_exists.mp hsome
  obtain ⟨conn, os', halone, hexecuted⟩ := eventLoop_isolated echo () false hrun
  exact ⟨t, os, conn, os', hrun, halone, hexecuted⟩

end Racs
