import Racs.Database
import Racs.Replication

/-!
# A replica follows its master

With one slave in the configuration, a master writes every message that it executes to the slave,
which executes what arrives like the messages of any client. Bytes on the way arrive in order and in
pieces of any size, and the two servers have clocks and memtables of their own.

## Main definitions

* `Racs.Replicated`, `Racs.ReplicaEvent`, `Racs.replicaStep`.
* `Racs.Genuine` — the clients of the master send messages that a buffer can hold.

## Main results

* `Racs.replica_log` — the slave executes the messages of the master, in the same order, and when
  nothing is on the way it has executed all of them.
* `Racs.replica_sameContents` — the slave then holds the streams, the sessions and the audio of the
  master.
-/

namespace Racs

open PartialRun

/-! ### The two servers -/

/-- A master, the bytes on the way to its slave, and the slave, whose only client is the master. -/
structure Replicated (κ : Type) where
  master : EventLoop κ (Option Store)
  link : List UInt8
  slave : EventLoop Unit (Option Store)

/-- What happens to the two servers. -/
inductive ReplicaEvent (κ : Type)
  | master (ev : ServerEvent κ)
  /-- So many bytes on the way arrive, and `racs_read_callback` of the slave runs. -/
  | arrive (n : ℕ)
  /-- A detached flush of the slave runs. -/
  | slaveFlush (i : ℕ)

/-- What `racs_broadcast_to_slaves` writes of these messages to an address. -/
def forwarded (slaves : List SlaveConnection) (addr : SockAddr) (raws : List (List UInt8)) :
    List UInt8 :=
  ((raws.flatMap (broadcastToSlaves slaves)).filter (·.1 = addr)).flatMap Prod.snd

variable {κ : Type} [DecidableEq κ] {P : Platform} (lib : Library P.Double) (b b' : Backend P)
  (slaves : List SlaveConnection) (addr : SockAddr)

/-- One step of the two servers, with the message that each of them executes. -/
def replicaStep (r : Replicated κ) :
    ReplicaEvent κ → Option (Replicated κ × Option (κ × List UInt8) × Option (List UInt8))
  | .master ev => (serverStep lib b r.master ev).map fun (m, o) =>
      let raws := m.broadcast.drop r.master.broadcast.length
      ({ r with master := m, link := r.link ++ forwarded slaves addr raws }, o, none)
  | .arrive n => (serverStep lib b' r.slave (.loop (.read () (r.link.take n)))).map fun (t, o) =>
      ({ r with link := r.link.drop n, slave := t }, none, o.map Prod.snd)
  | .slaveFlush i => (serverStep lib b' r.slave (.flush i)).map fun (t, o) =>
      ({ r with slave := t }, none, o.map Prod.snd)

/-- The slave has accepted the connection of the master. -/
def EventLoop.accepted (state : Option Store) : EventLoop Unit (Option Store) :=
  ⟨fun _ => some ⟨[], [], true⟩, [], state⟩

/-- Both servers are started, each with its configuration. -/
def Replicated.init (cfg cfg' : Config) : Replicated κ :=
  ⟨.init (some (Store.init cfg)), [], .accepted (some (Store.init cfg'))⟩

/-- The events of the master. -/
def masterEvents (events : List (ReplicaEvent κ)) : List (ServerEvent κ) :=
  events.filterMap fun
    | .master ev => some ev
    | _ => none

/-- The events of the event loop. -/
def loopEvents (events : List (ServerEvent κ)) : List (LoopEvent κ) :=
  events.filterMap fun
    | .loop ev => some ev
    | .flush _ => none

/-- Every client sends messages that a buffer can hold, the last of which may not be complete. -/
def Genuine (events : List (ServerEvent κ)) : Prop :=
  ∀ k, ∃ ms : List Message,
    (chunksOf k (loopEvents events)).flatten <+: ms.flatMap Message.bytes

/-! ### The messages of the master -/

/-- A buffer that holds the beginning of messages: the callback executes the first of them if it is
complete and not empty, and nothing else. -/
theorem readCallback_genuine {σ : Type} (h : Handlers σ) {conn : Connection σ} {rest : List UInt8}
    {ms : List Message} (hinput : conn.input ++ rest = ms.flatMap Message.bytes) :
    readCallback h conn = (conn, none) ∨ ∃ m ∈ ms, ∃ tail, m.data ≠ [] ∧
      conn.input = m.bytes ++ tail := by
  rcases ms with - | ⟨m, ms⟩
  · rw [List.flatMap_nil, List.append_eq_nil_iff] at hinput
    refine .inl (readCallback_none h ?_)
    rw [hinput.1]
    rfl
  · rw [List.flatMap_cons] at hinput
    have hstart := lengthPrefix_eq hinput
    by_cases hne : m.data = []
    · refine .inl (readCallback_none h ?_)
      rw [hstart, hne]
      split_ifs <;> rfl
    · by_cases hlen : m.bytes.length ≤ conn.input.length
      · obtain ⟨tail, htail⟩ := List.prefix_of_prefix_length_le ⟨_, hinput.symm⟩ ⟨rest, rfl⟩ hlen
        exact .inr ⟨m, List.mem_cons_self, tail, hne, htail.symm⟩
      · exact .inl (readCallback_none h (by rw [hstart, if_neg hlen]))

variable {lib b b'} {store : Option Store} {events : List (ServerEvent κ)}
  {t : EventLoop κ (Option Store)} {os : List (Option (κ × List UInt8))}

omit [DecidableEq κ] in
theorem loopEvents_concat (events : List (ServerEvent κ)) (ev : ServerEvent κ) :
    loopEvents (events ++ [ev]) = loopEvents events ++ loopEvents [ev] := List.filterMap_append

/-- The flushes of a server have no part in what it takes out of its buffers. -/
theorem server_alone {τ : Type} (h' : Handlers τ) (state' : τ) (k : κ)
    (hrun : exec (serverStep lib b) (.init store) events = some (t, os)) :
    Alone h' state' k (chunksOf k (loopEvents events)) (executedBy k os) t := by
  induction events using List.reverseRecOn generalizing t os with
  | nil =>
    obtain ⟨rfl, rfl⟩ : EventLoop.init store = t ∧ [] = os := by simpa using hrun
    exact ⟨_, [], rfl, rfl, rfl⟩
  | append_singleton events ev ih =>
    obtain ⟨m, os, o, hbefore, hstep, rfl⟩ := exec_concat_eq_some.mp hrun
    rw [loopEvents_concat, executedBy_concat]
    cases ev with
    | loop ev =>
      rw [show loopEvents [ServerEvent.loop ev] = [ev] from rfl, chunksOf_concat]
      exact (ih hbefore).step hstep
    | flush i =>
      obtain ⟨rfl, rfl⟩ := Prod.mk.inj (Option.some.inj hstep)
      rw [show loopEvents [(ServerEvent.flush i : ServerEvent κ)] = [] from rfl, List.append_nil,
        show sentBy? k none = none from rfl, Option.toList_none, List.append_nil]
      obtain ⟨conn, os', halone, hexecuted, hinput⟩ := ih hbefore
      exact ⟨conn, os', halone, hexecuted, hinput⟩

/-- What a client has in its input buffer, when it sends messages that a buffer can hold. -/
theorem input_of_genuine {ms : List Message} {k : κ} {chunk rest : List UInt8}
    (hrun : exec (serverStep lib b) (.init store) events = some (t, os))
    (hcut : (chunksOf k (loopEvents events)).flatten ++ chunk ++ rest =
      ms.flatMap Message.bytes) :
    ∃ n, t.input k ++ chunk ++ rest = (ms.drop n).flatMap Message.bytes ∧
      executedBy k os = (ms.take n).map Message.data := by
  obtain ⟨conn, os', halone, hexecuted, hinput⟩ := server_alone echo () k hrun
  obtain ⟨conn', os₁, n, hrun', hframed, -⟩ := @framed_exec _ echo () ms
    (chunksOf k (loopEvents events) ++ [chunk ++ rest])
    (by rw [← hcut, List.flatten_append, List.append_assoc]; simp) _ [chunk ++ rest] rfl
  obtain ⟨rfl, rfl⟩ := Prod.mk.inj (Option.some.inj (halone.symm.trans hrun'))
  refine ⟨n, ?_, hexecuted.symm.trans hframed.executed⟩
  have heq := hframed.input_eq
  rwa [List.flatten_singleton, ← List.append_assoc, hinput] at heq

/-- **What a master executes and forwards**: if its clients send messages that a buffer can hold,
the bytes of the messages that it executes, in the same order. -/
theorem server_broadcast (hgenuine : Genuine events)
    (hrun : exec (serverStep lib b) (.init store) events = some (t, os)) :
    ∃ log : List Message, os.reduceOption.map Prod.snd = log.map Message.data ∧
      t.broadcast = log.map Message.bytes ∧ ∀ m ∈ log, m.data ≠ [] := by
  induction events using List.reverseRecOn generalizing t os with
  | nil =>
    obtain ⟨rfl, rfl⟩ : EventLoop.init store = t ∧ [] = os := by simpa using hrun
    exact ⟨[], rfl, rfl, fun _ h => absurd h List.not_mem_nil⟩
  | append_singleton events ev ih =>
    obtain ⟨m, os, o, hbefore, hstep, rfl⟩ := exec_concat_eq_some.mp hrun
    have hgenuine' : Genuine events := by
      intro k
      obtain ⟨ms, hprefix⟩ := hgenuine k
      refine ⟨ms, List.IsPrefix.trans ?_ hprefix⟩
      rw [loopEvents_concat, chunksOf, chunksOf, List.filterMap_append, List.flatten_append]
      exact List.prefix_append _ _
    obtain ⟨log, hlog, hbroadcast, hne⟩ := ih hgenuine' hbefore
    rw [reduceOption_concat]
    have hidle : t.broadcast = m.broadcast → o = none →
        ∃ log : List Message, (os.reduceOption ++ o.toList).map Prod.snd = log.map Message.data ∧
          t.broadcast = log.map Message.bytes ∧ ∀ m ∈ log, m.data ≠ [] := by
      rintro hsame rfl
      exact ⟨log, by rwa [Option.toList_none, List.append_nil], hsame.trans hbroadcast, hne⟩
    cases ev with
    | flush i =>
      obtain ⟨rfl, rfl⟩ := Prod.mk.inj (Option.some.inj hstep)
      exact hidle rfl rfl
    | loop ev =>
      rcases eventLoopStep_cases hstep with ⟨k, -, rfl, hnew, rfl⟩ |
        ⟨k, chunk, c, conn, executed, rfl, hclient, hread, rfl, rfl⟩ |
        ⟨k, -, c, isOpen, -, rfl, hclient, rfl⟩
      · exact hidle rfl rfl
      · obtain ⟨ms, rest, hcut⟩ := hgenuine k
        rw [loopEvents_concat, show loopEvents [ServerEvent.loop (LoopEvent.read k chunk)] =
          [LoopEvent.read k chunk] from rfl, chunksOf_concat, LoopEvent.chunk?, if_pos rfl,
          Option.toList_some, List.flatten_append, List.flatten_singleton] at hcut
        obtain ⟨n, hinput, -⟩ := input_of_genuine hbefore hcut
        have hconn : (m.connection c chunk).input = m.input k ++ chunk := by
          rw [EventLoop.input, hclient]
          rfl
        rw [← hconn] at hinput
        rcases readCallback_genuine (dbHandlers lib b) hinput with hnone |
          ⟨message, -, tail, hmessage, hfront⟩
        · obtain ⟨rfl, rfl⟩ := Prod.mk.inj (hread.symm.trans hnone)
          exact hidle rfl rfl
        · obtain ⟨rfl, rfl⟩ :=
            Prod.mk.inj (hread.symm.trans (readCallback_message _ hmessage hfront))
          refine ⟨log ++ [message], ?_, ?_, ?_⟩
          · rw [List.map_append, List.map_append, hlog]
            rfl
          · rw [List.map_append, ← hbroadcast]
            rfl
          · intro m' hm'
            rcases List.mem_append.mp hm' with hm' | hm'
            · exact hne m' hm'
            · rwa [List.mem_singleton.mp hm']
      · exact hidle rfl rfl

/-! ### The bytes on the way -/

omit [DecidableEq κ] in
theorem masterEvents_concat (events : List (ReplicaEvent κ)) (ev : ReplicaEvent κ) :
    masterEvents (events ++ [ev]) = masterEvents events ++ masterEvents [ev] :=
  List.filterMap_append

theorem forwarded_append (slaves : List SlaveConnection) (addr : SockAddr)
    (raws raws' : List (List UInt8)) :
    forwarded slaves addr (raws ++ raws') = forwarded slaves addr raws ++
      forwarded slaves addr raws' := by
  rw [forwarded, List.flatMap_append, List.filter_append, List.flatMap_append]
  rfl

/-- With one slave, all bytes go to it. -/
theorem forwarded_one (addr : SockAddr) (raws : List (List UInt8)) :
    forwarded [⟨some addr, addr, true⟩] addr raws = raws.flatten := by
  induction raws with
  | nil => rfl
  | cons raw raws ih =>
    have hsplit := forwarded_append [⟨some addr, addr, true⟩] addr [raw] raws
    rw [List.singleton_append (x := raw), ih] at hsplit
    rw [hsplit, List.flatten_cons]
    simp [forwarded, broadcastToSlaves]

/-- Messages are only added to those that were handed to `racs_broadcast_to_slaves`. -/
theorem broadcast_prefix {l l' : EventLoop κ (Option Store)} {ev : ServerEvent κ}
    {o : Option (κ × List UInt8)} (hstep : serverStep lib b l ev = some (l', o)) :
    l.broadcast <+: l'.broadcast := by
  cases ev with
  | flush i =>
    obtain ⟨rfl, -⟩ := Prod.mk.inj (Option.some.inj hstep)
    exact List.prefix_rfl
  | loop ev =>
    rcases eventLoopStep_cases hstep with ⟨k, -, -, -, rfl⟩ |
      ⟨k, chunk, c, conn, executed, -, -, hread, rfl, -⟩ | ⟨k, -, c, isOpen, -, -, -, rfl⟩
    · exact List.prefix_rfl
    · rcases readCallback_cases (dbHandlers lib b) (l.connection c chunk) with hnone |
        ⟨raw, buf, rest, hmessage⟩
      · obtain ⟨rfl, -⟩ := Prod.mk.inj (hread.symm.trans hnone)
        exact List.prefix_rfl
      · obtain ⟨rfl, -⟩ := Prod.mk.inj (hread.symm.trans hmessage)
        exact List.prefix_append _ _
    · exact List.prefix_rfl

/-- Each of the servers runs for itself, and the chunks that the slave received, with the bytes on
the way behind them, are what the master wrote. -/
def Linked (lib : Library P.Double) (b b' : Backend P) (slaves : List SlaveConnection)
    (addr : SockAddr) (cfg cfg' : Config) (events : List (ReplicaEvent κ)) (r : Replicated κ)
    (outs : List (Option (κ × List UInt8) × Option (List UInt8))) : Prop :=
  ∃ executed sevs sexecuted,
    exec (serverStep lib b) (.init (some (Store.init cfg))) (masterEvents events) =
      some (r.master, executed) ∧
    executed.reduceOption = (outs.map Prod.fst).reduceOption ∧
    exec (serverStep lib b') (.init (some (Store.init cfg'))) sevs = some (r.slave, sexecuted) ∧
    sexecuted.reduceOption.map Prod.snd = (outs.map Prod.snd).reduceOption ∧
    (chunksOf () (loopEvents sevs)).flatten ++ r.link =
      forwarded slaves addr r.master.broadcast

variable {slaves : List SlaveConnection} {addr : SockAddr} {cfg cfg' : Config}
  {revents : List (ReplicaEvent κ)} {r r' : Replicated κ}
  {outs : List (Option (κ × List UInt8) × Option (List UInt8))}

/-- The slave has accepted the master before the first step. -/
theorem linked_init (lib : Library P.Double) (b b' : Backend P) (slaves : List SlaveConnection)
    (addr : SockAddr) (cfg cfg' : Config) :
    Linked lib b b' slaves addr cfg cfg' [] (.init cfg cfg' : Replicated κ) [] := by
  refine ⟨[], [.loop (.accept ())], [none], rfl, rfl, ?_, rfl, rfl⟩
  have haccepted : (Function.update (fun _ : Unit => (none : Option Client)) ()
      (some ⟨[], [], true⟩)) = fun _ => some ⟨[], [], true⟩ := by
    funext k
    exact Function.update_self ..
  refine exec_cons_eq_some.mpr ⟨_, none, [], ?_, rfl, rfl⟩
  rw [serverStep, eventLoopStep, acceptCallback]
  dsimp only [EventLoop.init]
  rw [haccepted]
  rfl

theorem Linked.step {ev : ReplicaEvent κ} {o : Option (κ × List UInt8) × Option (List UInt8)}
    (h : Linked lib b b' slaves addr cfg cfg' revents r outs)
    (hstep : replicaStep lib b b' slaves addr r ev = some (r', o)) :
    Linked lib b b' slaves addr cfg cfg' (revents ++ [ev]) r' (outs ++ [o]) := by
  obtain ⟨executed, sevs, sexecuted, hmaster, hexecuted, hslave, hsexecuted, hlink⟩ := h
  have hslaveOut : ∀ o : Option (Unit × List UInt8),
      (sexecuted ++ [o]).reduceOption.map Prod.snd =
        (outs.map Prod.snd).reduceOption ++ (o.map Prod.snd).toList := by
    intro o
    rw [reduceOption_concat, List.map_append, hsexecuted]
    rcases o with - | q <;> rfl
  rw [Linked, masterEvents_concat, List.map_append, List.map_append, List.map_singleton,
    List.map_singleton, reduceOption_concat, reduceOption_concat]
  cases ev with
  | master ev =>
    obtain ⟨⟨m, o'⟩, hserver, heq⟩ := Option.map_eq_some_iff.mp hstep
    obtain ⟨rfl, rfl⟩ := Prod.mk.inj heq
    refine ⟨executed ++ [o'], sevs, sexecuted, ?_, ?_, hslave, ?_, ?_⟩
    · exact exec_concat_eq_some.mpr ⟨_, _, _, hmaster, hserver, rfl⟩
    · rw [reduceOption_concat, hexecuted]
    · rw [hsexecuted]
      exact (List.append_nil _).symm
    · obtain ⟨raws, hraws⟩ := broadcast_prefix hserver
      dsimp only
      rw [← hraws, List.drop_left, forwarded_append, ← hlink, List.append_assoc]
  | arrive n =>
    obtain ⟨⟨t, o'⟩, hserver, heq⟩ := Option.map_eq_some_iff.mp hstep
    obtain ⟨rfl, rfl⟩ := Prod.mk.inj heq
    refine ⟨executed, sevs ++ [.loop (.read () (r.link.take n))], sexecuted ++ [o'], ?_, ?_, ?_,
      hslaveOut o', ?_⟩
    · rw [show masterEvents [(ReplicaEvent.arrive n : ReplicaEvent κ)] = [] from rfl,
        List.append_nil]
      exact hmaster
    · rw [hexecuted]
      exact (List.append_nil _).symm
    · exact exec_concat_eq_some.mpr ⟨_, _, _, hslave, hserver, rfl⟩
    · rw [loopEvents_concat,
        show loopEvents [ServerEvent.loop (LoopEvent.read () (r.link.take n))] =
          [LoopEvent.read () (r.link.take n)] from rfl, chunksOf_concat, LoopEvent.chunk?,
        if_pos rfl, Option.toList_some, List.flatten_append, List.flatten_singleton,
        List.append_assoc, List.take_append_drop]
      exact hlink
  | slaveFlush i =>
    obtain ⟨rfl, rfl⟩ := Prod.mk.inj (Option.some.inj hstep)
    refine ⟨executed, sevs ++ [.flush i], sexecuted ++ [none], ?_, ?_, ?_, hslaveOut none, ?_⟩
    · rw [show masterEvents [(ReplicaEvent.slaveFlush i : ReplicaEvent κ)] = [] from rfl,
        List.append_nil]
      exact hmaster
    · rw [hexecuted]
      exact (List.append_nil _).symm
    · exact exec_concat_eq_some.mpr ⟨_, _, _, hslave, rfl, rfl⟩
    · rw [loopEvents_concat, show loopEvents [(ServerEvent.flush i : ServerEvent Unit)] = [] from
        rfl, List.append_nil]
      exact hlink

theorem linked_exec
    (hrun : exec (replicaStep lib b b' slaves addr) (.init cfg cfg') revents = some (r, outs)) :
    Linked lib b b' slaves addr cfg cfg' revents r outs := by
  induction revents using List.reverseRecOn generalizing r outs with
  | nil =>
    obtain ⟨rfl, rfl⟩ : Replicated.init cfg cfg' = r ∧ [] = outs := by simpa using hrun
    exact linked_init lib b b' slaves addr cfg cfg'
  | append_singleton events ev ih =>
    obtain ⟨m, outs, o, hbefore, hstep, rfl⟩ := exec_concat_eq_some.mp hrun
    exact (ih hbefore).step hstep

/-! ### The slave follows -/

omit [DecidableEq κ] in
/-- What messages do to the contents does not depend on who sent them. -/
theorem messages_congr {κ' : Type} {log : List (κ × List UInt8)} {log' : List (κ' × List UInt8)}
    (h : log.map Prod.snd = log'.map Prod.snd) (q : Contents) :
    q.messages lib log = q.messages lib log' := by
  have hfold : ∀ {κ : Type} (log : List (κ × List UInt8)),
      q.messages lib log = (log.map Prod.snd).foldl (fun q m => q.message lib m) q := by
    intro κ log
    rw [Contents.messages, List.foldl_map]
  rw [hfold, hfold, h]

/-- The only client of a server has sent what the server executed. -/
theorem executedBy_unit (os : List (Option (Unit × List UInt8))) :
    executedBy () os = os.reduceOption.map Prod.snd := by
  induction os using List.reverseRecOn with
  | nil => rfl
  | append_singleton os o ih =>
    rw [executedBy_concat, reduceOption_concat, List.map_append, ih]
    rcases o with - | q <;> rfl

variable {net : Network} {slave : SlaveConfig} {table : List SlaveConnection}

/-- The table of one slave that can be reached. -/
theorem slavesInitSockets_one (haddr : sockAddr net slave = some addr)
    (hsocket : net.socket 0 = true) (hconnect : net.connect addr = true)
    (htable : slavesInitAddrs net [slave] = some table) :
    slavesInitSockets net table = [⟨some addr, addr, true⟩] := by
  have hone : slavesInitAddrs net [slave] = some [⟨none, addr, false⟩] := by
    rw [slavesInitAddrs_cons (by simp) haddr]
    rfl
  obtain rfl := Option.some.inj (htable.symm.trans hone)
  simp [slavesInitSockets, hsocket, hconnect]

/-- What the slave has executed of the log of its master. -/
theorem prefix_of_linked
    (h : Linked lib b b' [⟨some addr, addr, true⟩] addr cfg cfg' revents r outs)
    (hgenuine : Genuine (masterEvents revents)) :
    (outs.map Prod.snd).reduceOption <+: (outs.map Prod.fst).reduceOption.map Prod.snd ∧
      (r.link = [] → r.slave.input () = [] →
        (outs.map Prod.snd).reduceOption = (outs.map Prod.fst).reduceOption.map Prod.snd) := by
  obtain ⟨executed, sevs, sexecuted, hmaster, hexecuted, hslave, hsexecuted, hlink⟩ := h
  obtain ⟨log, hlog, hbroadcast, -⟩ := server_broadcast hgenuine hmaster
  rw [forwarded_one, hbroadcast, ← List.flatMap_def] at hlink
  obtain ⟨n, hinput, htaken⟩ := @input_of_genuine _ _ _ _ _ _ _ _ _ log () [] r.link hslave
    (by rw [List.append_nil, hlink])
  rw [executedBy_unit, hsexecuted] at htaken
  rw [← hexecuted, hlog, htaken]
  refine ⟨(List.take_prefix n log).map Message.data, fun hnothing hempty => ?_⟩
  rw [hnothing, hempty, List.append_nil, List.append_nil] at hinput
  have hdrop : log.drop n = [] := by
    rcases hrest : log.drop n with - | ⟨m, rest⟩
    · rfl
    · have hlength := m.length_bytes
      rw [hrest, List.flatMap_cons] at hinput
      have hzero := congrArg List.length hinput
      rw [List.length_append, List.length_nil] at hzero
      omega
  rw [List.take_of_length_le (List.drop_eq_nil_iff.mp hdrop)]

/-- **The slave executes the log of its master.** The messages that the slave has executed are the
first ones of those that the master has executed, and when no bytes are on the way or in its input
buffer, they are all of them. -/
theorem replica_log (haddr : sockAddr net slave = some addr) (hsocket : net.socket 0 = true)
    (hconnect : net.connect addr = true) (htable : slavesInitAddrs net [slave] = some table)
    (hgenuine : Genuine (masterEvents revents))
    (hrun : exec (replicaStep lib b b' (slavesInitSockets net table) addr) (.init cfg cfg')
      revents = some (r, outs)) :
    (outs.map Prod.snd).reduceOption <+: (outs.map Prod.fst).reduceOption.map Prod.snd ∧
      (r.link = [] → r.slave.input () = [] →
        (outs.map Prod.snd).reduceOption = (outs.map Prod.fst).reduceOption.map Prod.snd) := by
  rw [slavesInitSockets_one haddr hsocket hconnect htable] at hrun
  exact prefix_of_linked (linked_exec hrun) hgenuine

/-- **The slave holds what its master holds**, when nothing is on the way or in its input buffer and
no command line makes a request behind a stage that uses the clock or the audio: whatever the clocks
and the configurations of the two servers are, and whenever each of them flushes its memtables. -/
theorem replica_sameContents {s s' : Store} (haddr : sockAddr net slave = some addr)
    (hsocket : net.socket 0 = true) (hconnect : net.connect addr = true)
    (htable : slavesInitAddrs net [slave] = some table)
    (hgenuine : Genuine (masterEvents revents))
    (hrun : exec (replicaStep lib b b' (slavesInitSockets net table) addr) (.init cfg cfg')
      revents = some (r, outs))
    (hlink : r.link = []) (hempty : r.slave.input () = [])
    (hfree : ∀ m ∈ (outs.map Prod.fst).reduceOption, ClockFree lib m.2)
    (hs : r.master.state = some s) (hs' : r.slave.state = some s') :
    ∃ evs os evs' os', exec (step P) (Store.init cfg) evs = some (s, os) ∧
      exec (step P) (Store.init cfg') evs' = some (s', os') ∧
      SameContents s s' (acceptedEntries os) (acceptedEntries os') := by
  rw [slavesInitSockets_one haddr hsocket hconnect htable] at hrun
  have hlinked := linked_exec hrun
  have hlog := (prefix_of_linked hlinked hgenuine).2 hlink hempty
  obtain ⟨executed, sevs, sexecuted, hmaster, hexecuted, hslave, hsexecuted, -⟩ := hlinked
  obtain ⟨evs, os, hevs, -, hcontents⟩ := server_events hmaster hs
  obtain ⟨evs', os', hevs', -, hcontents'⟩ := server_events hslave hs'
  rw [hexecuted] at hcontents
  have hsame : sexecuted.reduceOption.map Prod.snd =
      (outs.map Prod.fst).reduceOption.map Prod.snd :=
    hsexecuted.trans hlog
  have hfree' : ∀ m ∈ sexecuted.reduceOption, ClockFree lib m.2 := by
    intro m hm
    have hmem : m.2 ∈ (outs.map Prod.fst).reduceOption.map Prod.snd :=
      hsame ▸ List.mem_map_of_mem hm
    obtain ⟨m', hm', heq⟩ := List.mem_map.mp hmem
    rw [← heq]
    exact hfree m' hm'
  have h := reflects_exec hevs
  have h' := reflects_exec hevs'
  rw [hcontents hfree] at h
  rw [hcontents' hfree', messages_congr hsame] at h'
  exact ⟨evs, os, evs', os', hevs, hevs', h.same h'⟩

/-! ### A stream on two servers -/

/-- A server whose clock is a second ahead. -/
def Backend.ahead : Backend Platform.rational := { Backend.idle with timeNow := fun _ => 1000 }

/-- The line arrives in two pieces, behind which the client sends a batch. -/
def createOpenReplica : List (ReplicaEvent Unit) :=
  [.master (.loop (.accept ())), .master (.loop (.read () (replyBytes createOpenLine))),
    .arrive 20, .master (.loop (.read () (replyBytes pairBatch))), .arrive 22, .master (.flush 0),
    .arrive 92]

theorem genuine_createOpenReplica : Genuine (masterEvents createOpenReplica) := by
  rintro ⟨⟩
  exact ⟨[⟨createOpenLine, by decide⟩, ⟨pairBatch, by decide⟩], by decide +kernel⟩

theorem exec_createOpenReplica :
    ∃ (table : List SlaveConnection) (r : Replicated Unit)
      (outs : List (Option (Unit × List UInt8) × Option (List UInt8))) (s s' : Store),
      slavesInitAddrs twoHosts [slaveOne] = some table ∧
      exec (replicaStep batchLibrary .idle .ahead (slavesInitSockets twoHosts table)
        ⟨htons 6381, 0x0100000a⟩) (.init (.small 4 (by decide)) (.small 2 (by decide)))
        createOpenReplica = some (r, outs) ∧
      r.link = [] ∧ r.slave.input () = [] ∧
      (outs.map Prod.fst).reduceOption.map Prod.snd = [createOpenLine, pairBatch] ∧
      r.master.state = some s ∧ r.slave.state = some s' := by
  have hrun : (exec (replicaStep batchLibrary .idle .ahead
      (slavesInitSockets twoHosts [⟨none, ⟨htons 6381, 0x0100000a⟩, false⟩])
      ⟨htons 6381, 0x0100000a⟩) (.init (.small 4 (by decide)) (.small 2 (by decide)))
      createOpenReplica).map (fun q => (q.1.link, q.1.slave.input (),
        (q.2.map Prod.fst).reduceOption.map Prod.snd, q.1.master.state.isSome,
        q.1.slave.state.isSome)) = some ([], [], [createOpenLine, pairBatch], true, true) := by
    decide +kernel
  obtain ⟨⟨r, outs⟩, hexec, heq⟩ := Option.map_eq_some_iff.mp hrun
  simp only [Prod.mk.injEq] at heq
  obtain ⟨hlink, hempty, hlog, hmaster, hslave⟩ := heq
  obtain ⟨s, hs⟩ := Option.isSome_iff_exists.mp hmaster
  obtain ⟨s', hs'⟩ := Option.isSome_iff_exists.mp hslave
  exact ⟨_, r, outs, s, s', rfl, hexec, hlink, hempty, hlog, hs, hs'⟩

theorem replica_log_createOpen :
    ∃ (r : Replicated Unit) (outs : List (Option (Unit × List UInt8) × Option (List UInt8))),
      r.link = [] ∧ r.slave.input () = [] ∧
      (outs.map Prod.snd).reduceOption = (outs.map Prod.fst).reduceOption.map Prod.snd := by
  obtain ⟨table, r, outs, s, s', htable, hrun, hlink, hempty, -⟩ := exec_createOpenReplica
  exact ⟨r, outs, hlink, hempty, (replica_log rfl rfl rfl htable genuine_createOpenReplica
    hrun).2 hlink hempty⟩

theorem replica_sameContents_createOpen :
    ∃ (r : Replicated Unit) (s s' : Store) (es es' : List MemtableEntry),
      r.master.state = some s ∧ r.slave.state = some s' ∧ SameContents s s' es es' := by
  obtain ⟨table, r, outs, s, s', htable, hrun, hlink, hempty, hlog, hs, hs'⟩ :=
    exec_createOpenReplica
  have hfree : ∀ m ∈ (outs.map Prod.fst).reduceOption, ClockFree batchLibrary m.2 := by
    intro m hm
    have hmem : m.2 ∈ [createOpenLine, pairBatch] := hlog ▸ List.mem_map_of_mem hm
    rcases List.mem_cons.mp hmem with heq | hmem
    · rw [heq]
      exact clockFree_createOpenLine
    · rw [List.mem_singleton.mp hmem]
      exact .inl (by decide)
  obtain ⟨evs, os, evs', os', -, -, hsame⟩ := replica_sameContents rfl rfl rfl htable
    genuine_createOpenReplica hrun hlink hempty hfree hs hs'
  exact ⟨r, s, s', _, _, hs, hs', hsame⟩

end Racs
