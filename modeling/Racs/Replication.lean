import Racs.Server

/-!
# Replication

A master forwards every message to its slaves before it executes it (`server.c`). At startup
`racs_slaves_init_addrs` fills a table with the addresses of the slaves and
`racs_slaves_init_sockets` opens a connection to every address of the table. The first loop takes
host and port of `config->slaves`, the first slave, in every round: all connections lead to the
first slave, which receives every message as often as there are slaves, and the others receive
nothing.

`Network` holds what the code takes from the socket library.

## Main definitions

* `Racs.slavesInitAddrs`, `Racs.slavesInitSockets`, `Racs.broadcastToSlaves`.
* `Racs.DeliversOnce` — every slave receives every message once, in the order of execution.

## Main results

* `Racs.deliversOnce_iff` — this is so exactly with one slave, or without messages.
-/

namespace Racs

open PartialRun

/-! ### The slaves -/

/-- An element of `slaves` in the configuration. -/
structure SlaveConfig where
  host : List UInt8
  port : Int32
  deriving DecidableEq

/-- `sockaddr_in`. -/
structure SockAddr where
  sinPort : UInt16
  sinAddr : UInt32
  deriving DecidableEq

/-- `racs_slave_connection`, with the peer of its `bufferevent`. -/
structure SlaveConnection where
  bev : Option SockAddr
  addr : SockAddr
  connected : Bool
  deriving DecidableEq

/-- The socket library: the address that `inet_pton` stores for a host, none when the text is no
address; whether the socket for the slave with an index is created; and whether the connection to an
address is initiated. -/
structure Network where
  inetPton : List UInt8 → Option UInt32
  socket : ℕ → Bool
  connect : SockAddr → Bool

/-- `htons`. -/
def htons (port : UInt16) : UInt16 := port <<< 8 ||| port >>> 8

variable (net : Network)

/-- The address of a slave; undefined when its host is no address, which leaves `sin_addr` as it
is. -/
def sockAddr (slave : SlaveConfig) : Option SockAddr :=
  (net.inetPton slave.host).map (⟨htons slave.port.toUInt32.toUInt16, ·⟩)

/-- `racs_slaves_init_addrs`. Every round of the loop reads the first slave of the configuration.
With more than `RACS_MAX_SLAVES` slaves the table and its size are left as they are. -/
def slavesInitAddrs (slaves : List SlaveConfig) : Option (List SlaveConnection) :=
  if 5 < slaves.length then none
  else slaves.mapM fun _ => slaves.head?.bind fun slave =>
    (sockAddr net slave).map fun addr => ⟨none, addr, false⟩

/-- `racs_slaves_init_sockets`. -/
def slavesInitSockets (slaves : List SlaveConnection) : List SlaveConnection :=
  slaves.mapIdx fun i slave =>
    if net.socket i ∧ net.connect slave.addr then
      { slave with bev := some slave.addr, connected := true }
    else { slave with connected := false }

/-- `racs_broadcast_to_slaves`: what is written to which address. -/
def broadcastToSlaves (slaves : List SlaveConnection) (buf : List UInt8) :
    List (SockAddr × List UInt8) :=
  slaves.filterMap fun slave => if slave.connected then slave.bev.map (·, buf) else none

/-! ### The master -/

variable {σ : Type}

/-- The connections to the slaves, the state of the server, and all that was written to slaves. -/
structure Master (σ : Type) where
  slaves : List SlaveConnection
  state : σ
  written : List (SockAddr × List UInt8)

/-- `racs_read_callback` for a client whose input buffer holds the given bytes, with the message
that it executes. -/
def Master.read (h : Handlers σ) (m : Master σ) (input : List UInt8) :
    Option (Master σ × Option (List UInt8)) :=
  let (c, executed) := readCallback h ⟨input, [], [], m.state⟩
  some ({ m with
    state := c.state
    written := m.written ++ c.broadcast.flatMap (broadcastToSlaves m.slaves) }, executed)

/-- What is written to an address. -/
def Master.delivered (m : Master σ) (addr : SockAddr) : List (List UInt8) :=
  (m.written.filter (·.1 = addr)).map Prod.snd

/-- A complete message of a client at the start of its input buffer, and what has arrived behind
it. -/
abbrev Request := Message × List UInt8

/-- The input buffer with a request. -/
def Request.input (r : Request) : List UInt8 := r.1.bytes ++ r.2

/-- When a server with the slaves of the configuration has read the requests, of any clients, one
after the other, it has executed their messages in this order, and the bytes of these messages were
written to the address of every slave once each and in the same order. -/
def DeliversOnce (h : Handlers σ) (state : σ) (slaves : List SlaveConfig)
    (requests : List Request) : Prop :=
  ∃ table m, slavesInitAddrs net slaves = some table ∧
    exec (Master.read h) ⟨slavesInitSockets net table, state, []⟩ (requests.map Request.input) =
      some (m, requests.map fun r => some r.1.data) ∧
    ∀ slave ∈ slaves, ∀ addr, sockAddr net slave = some addr →
      m.delivered addr = requests.map fun r => r.1.bytes

/-- All hosts are addresses, different slaves have different ones, and all connections succeed. -/
structure Network.Reaches (net : Network) (slaves : List SlaveConfig) : Prop where
  addrs : ∃ addrs, slaves.mapM (sockAddr net) = some addrs ∧ addrs.Nodup
  socket : ∀ i, net.socket i = true
  connect : ∀ slave ∈ slaves, ∀ addr, sockAddr net slave = some addr → net.connect addr = true

/-! ### Startup -/

variable {net} {slave : SlaveConfig} {slaves : List SlaveConfig} {addr : SockAddr}

theorem slavesInitAddrs_cons (hlen : (slave :: slaves).length ≤ 5)
    (haddr : sockAddr net slave = some addr) :
    slavesInitAddrs net (slave :: slaves) =
      some (List.replicate (slaves.length + 1) ⟨none, addr, false⟩) := by
  have hmapM (l : List SlaveConfig) :
      (l.mapM fun _ => some (⟨none, addr, false⟩ : SlaveConnection)) =
        some (List.replicate l.length ⟨none, addr, false⟩) := by
    induction l with
    | nil => rfl
    | cons a l ih =>
      rw [List.mapM_cons, ih]
      rfl
  rw [slavesInitAddrs, if_neg (by omega), List.head?_cons, Option.bind_some, haddr,
    Option.map_some, hmapM, List.length_cons]

theorem slavesInitSockets_replicate (hsocket : ∀ i, net.socket i = true)
    (hconnect : net.connect addr = true) (n : ℕ) :
    slavesInitSockets net (List.replicate n ⟨none, addr, false⟩) =
      List.replicate n ⟨some addr, addr, true⟩ := by
  refine List.ext_getElem (by simp [slavesInitSockets]) fun i hi hi' => ?_
  simp [slavesInitSockets, hsocket, hconnect]

theorem broadcastToSlaves_replicate (n : ℕ) (buf : List UInt8) :
    broadcastToSlaves (List.replicate n ⟨some addr, addr, true⟩) buf =
      List.replicate n (addr, buf) :=
  List.filterMap_replicate_of_some rfl

/-! ### Reading requests -/

/-- One request is forwarded on every connection. -/
theorem read_request (h : Handlers σ) (state : σ) (written : List (SockAddr × List UInt8)) (n : ℕ)
    {r : Request} (hne : r.1.data ≠ []) :
    Master.read h ⟨List.replicate n ⟨some addr, addr, true⟩, state, written⟩ r.input =
      some (⟨List.replicate n ⟨some addr, addr, true⟩, (h.answer state r.1.data).1,
        written ++ List.replicate n (addr, r.1.bytes)⟩, some r.1.data) := by
  rw [Master.read, readCallback_message h hne rfl]
  simp only [List.nil_append, List.flatMap_singleton, broadcastToSlaves_replicate]

/-- A run over requests executes them in order and forwards each on every connection. -/
theorem exec_requests (h : Handlers σ) (n : ℕ) {requests : List Request}
    (hne : ∀ r ∈ requests, r.1.data ≠ []) (state : σ)
    (written : List (SockAddr × List UInt8)) :
    ∃ m, exec (Master.read h) ⟨List.replicate n ⟨some addr, addr, true⟩, state, written⟩
        (requests.map Request.input) = some (m, requests.map fun r => some r.1.data) ∧
      m.written = written ++ requests.flatMap fun r => List.replicate n (addr, r.1.bytes) := by
  induction requests generalizing state written with
  | nil => exact ⟨_, rfl, (List.append_nil _).symm⟩
  | cons r requests ih =>
    obtain ⟨hr, hrest⟩ := List.forall_mem_cons.mp hne
    obtain ⟨m, hrun, hwritten⟩ := ih hrest (h.answer state r.1.data).1
      (written ++ List.replicate n (addr, r.1.bytes))
    refine ⟨m, ?_, ?_⟩
    · exact exec_cons_eq_some.mpr ⟨_, _, _, read_request h state written n hr, hrun, rfl⟩
    · rw [hwritten, List.flatMap_cons, List.append_assoc]

/-- What the requests bring to the address of the connections, and to another address. -/
theorem delivered_eq {m : Master σ} {n : ℕ} {requests : List Request}
    (hwritten : m.written = requests.flatMap fun r => List.replicate n (addr, r.1.bytes))
    (addr' : SockAddr) :
    m.delivered addr' =
      if addr' = addr then requests.flatMap fun r => List.replicate n r.1.bytes else [] := by
  rw [Master.delivered, hwritten, List.filter_flatMap, List.map_flatMap]
  by_cases heq : addr' = addr
  · subst heq
    simp
  · simp [heq, Ne.symm heq]

/-- The run of a server whose connections all lead to the first slave. -/
theorem deliversOnce_cons_iff (h : Handlers σ) (state : σ)
    (hlen : (slave :: slaves).length ≤ 5) (hreaches : net.Reaches (slave :: slaves))
    (haddr : sockAddr net slave = some addr) {requests : List Request}
    (hne : ∀ r ∈ requests, r.1.data ≠ []) :
    DeliversOnce net h state (slave :: slaves) requests ↔
      ∀ slave' ∈ slave :: slaves, ∀ addr', sockAddr net slave' = some addr' →
        (if addr' = addr then requests.flatMap fun r =>
          List.replicate (slaves.length + 1) r.1.bytes else []) =
          requests.map fun r => r.1.bytes := by
  have htable := slavesInitAddrs_cons hlen haddr
  have hsockets := slavesInitSockets_replicate hreaches.socket
    (hreaches.connect slave List.mem_cons_self addr haddr) (slaves.length + 1)
  obtain ⟨m, hrun, hwritten⟩ := @exec_requests _ addr h (slaves.length + 1) _ hne state []
  rw [List.nil_append] at hwritten
  constructor
  · rintro ⟨table, m', htable', hrun', hdelivered⟩ slave' hslave' addr' haddr'
    obtain rfl := Option.some.inj (htable.symm.trans htable')
    rw [hsockets, hrun] at hrun'
    obtain ⟨rfl, -⟩ := Prod.mk.inj (Option.some.inj hrun')
    rw [← delivered_eq hwritten]
    exact hdelivered slave' hslave' addr' haddr'
  · intro hdelivered
    refine ⟨_, m, htable, by rw [hsockets, hrun], fun slave' hslave' addr' haddr' => ?_⟩
    rw [delivered_eq hwritten]
    exact hdelivered slave' hslave' addr' haddr'

/-- **When replication delivers exactly once.** For one to five slaves with different addresses that
can be reached, every slave receives every message once and in the order of execution exactly when
there is one slave, or no message at all. -/
theorem deliversOnce_iff (h : Handlers σ) (state : σ) (hcount : 1 ≤ slaves.length ∧
    slaves.length ≤ 5) (hreaches : net.Reaches slaves) {requests : List Request}
    (hne : ∀ r ∈ requests, r.1.data ≠ []) :
    DeliversOnce net h state slaves requests ↔ slaves.length = 1 ∨ requests = [] := by
  obtain ⟨addrs, haddrs, hnodup⟩ := hreaches.addrs
  rcases mapM_eq_some_iff.mp haddrs with - | @⟨slave, addr, slaves, addrs, haddr, hrest⟩
  · exact absurd hcount.1 (Nat.not_succ_le_zero 0)
  rw [deliversOnce_cons_iff h state hcount.2 hreaches haddr hne]
  constructor
  · intro hdelivered
    rcases hrest with - | @⟨second, addr₂, slaves, addrs, haddr₂, -⟩
    · exact .inl rfl
    · -- Nothing is written to the second slave.
      have hother : addr₂ ≠ addr := by
        rintro rfl
        exact (List.nodup_cons.mp hnodup).1 List.mem_cons_self
      have hnil := hdelivered second (List.mem_cons_of_mem _ List.mem_cons_self) addr₂ haddr₂
      rw [if_neg hother] at hnil
      exact .inr (List.map_eq_nil_iff.mp hnil.symm)
  · rintro (hone | rfl) slave' hslave' addr' haddr'
    · obtain rfl : slaves = [] := List.length_eq_zero_iff.mp (Nat.succ_injective hone)
      obtain rfl := List.mem_singleton.mp hslave'
      obtain rfl := Option.some.inj (haddr.symm.trans haddr')
      rw [if_pos rfl]
      exact List.map_eq_flatMap.symm
    · simp

/-! ### Two slaves -/

/-- The host `10.0.0.1`. -/
def slaveOne : SlaveConfig := ⟨[0x31, 0x30, 0x2e, 0x30, 0x2e, 0x30, 0x2e, 0x31], 6381⟩

/-- The host `10.0.0.2`. -/
def slaveTwo : SlaveConfig := ⟨[0x31, 0x30, 0x2e, 0x30, 0x2e, 0x30, 0x2e, 0x32], 6381⟩

/-- A network in which these two hosts answer. -/
def twoHosts : Network where
  inetPton host :=
    if host = slaveOne.host then some 0x0100000a
    else if host = slaveTwo.host then some 0x0200000a
    else none
  socket _ := true
  connect _ := true

/-- The request `[1]`. -/
def oneRequest : Request := (⟨[1], by simp⟩, [])

theorem twoHosts_reaches : twoHosts.Reaches [slaveOne, slaveTwo] :=
  ⟨⟨_, rfl, by simp⟩, fun _ => rfl, fun _ _ _ _ => rfl⟩

/-- **Two slaves**: nothing is written to the second one. -/
theorem not_deliversOnce_twoSlaves :
    twoHosts.Reaches [slaveOne, slaveTwo] ∧ oneRequest.1.data ≠ [] ∧
      ¬ DeliversOnce twoHosts echo () [slaveOne, slaveTwo] [oneRequest] := by
  have hne : ∀ r ∈ [oneRequest], r.1.data ≠ [] := by simp [oneRequest]
  refine ⟨twoHosts_reaches, hne _ List.mem_cons_self, fun h => ?_⟩
  have hsecond := (deliversOnce_cons_iff echo () (by simp) twoHosts_reaches rfl hne).mp h
    slaveTwo (by simp) _ rfl
  simp at hsecond

/-- One slave receives the message once. -/
theorem deliversOnce_oneSlave : DeliversOnce twoHosts echo () [slaveOne] [oneRequest] :=
  (deliversOnce_iff echo () ⟨le_refl 1, by simp⟩
    ⟨⟨_, rfl, by simp⟩, fun _ => rfl, fun _ _ _ _ => rfl⟩ (by simp [oneRequest])).mpr (.inl rfl)

end Racs
