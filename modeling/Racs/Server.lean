import Racs.Bytes
import Racs.Foundation.PartialRun
import Racs.Foundation.TickQueue
import Mathlib.Data.List.Flatten
import Mathlib.Data.List.ReduceOption

/-!
# Requests of a connection

`racs_read_callback` (`server.c`) runs when bytes have arrived in the input buffer of a connection.
It takes at most one message out of the buffer, a length of eight bytes and as many bytes, and
writes one reply. Messages that arrive together wait for later callbacks, and `racs_length_prefix`
returns zero both for a message that has not arrived and for an empty one.

How a message is answered is given by `Handlers`; nothing here depends on it.

## Main definitions

* `Racs.Connection`, `Racs.lengthPrefix`, `Racs.readCallback`.
* `Racs.Message`, `Racs.ExecutesAll` — every message is executed once, in order.
* `Racs.DispatchesArrived` — a message is dispatched only when it has arrived.

## Main results

* `Racs.executesAll_iff` — for which messages and chunks this is so.
* `Racs.dispatchesArrived_iff` — for which lengths a message is dispatched only then.
-/

namespace Racs

open ByteBuffer PartialRun

/-! ### The callback -/

/-- What `racs_db_stream_batch` and `racs_db_exec` do with a message: the state of the server after
it and the data of the result. -/
structure Handlers (σ : Type) where
  streamBatch : σ → List UInt8 → σ × List UInt8
  exec : σ → List UInt8 → σ × List UInt8

/-- The buffers of a connection, the messages handed to `racs_broadcast_to_slaves`, and the state
of the server. -/
structure Connection (σ : Type) where
  input : List UInt8
  output : List UInt8
  broadcast : List (List UInt8)
  state : σ

variable {σ : Type}

/-- `racs_length_prefix`: zero when there is no complete message. -/
def lengthPrefix (input : List UInt8) : UInt64 :=
  match readUint64 input 0 with
  | none => 0
  | some (len, _) => if input.length < (8 + len).toNat then 0 else len

/-- `racs_is_frame`; a message of fewer than three bytes is none. -/
def isFrame (buf : List UInt8) : Bool := buf.take 3 = [0x72, 0x73, 0x70]

/-- The answer to a message. -/
def Handlers.answer (h : Handlers σ) (state : σ) (buf : List UInt8) : σ × List UInt8 :=
  if isFrame buf then h.streamBatch state buf else h.exec state buf

/-- The bytes written for a result. -/
def replyBytes (data : List UInt8) : List UInt8 := writeUint64 (UInt64.ofNat data.length) ++ data

/-- `racs_read_callback`, with the message that it executes. -/
def readCallback (h : Handlers σ) (c : Connection σ) : Connection σ × Option (List UInt8) :=
  let length := lengthPrefix c.input
  if length = 0 then (c, none)
  else
    let raw := c.input.take (8 + length).toNat
    let rest := c.input.drop 8
    let buf := rest.take length.toNat
    let (state, data) := h.answer c.state buf
    ({ input := rest.drop length.toNat
       output := c.output ++ replyBytes data
       broadcast := c.broadcast ++ [raw]
       state := state }, some buf)

/-- A chunk arrives in the input buffer, and the callback runs. -/
def receive (h : Handlers σ) (c : Connection σ) (chunk : List UInt8) :
    Option (Connection σ × Option (List UInt8)) :=
  some (readCallback h { c with input := c.input ++ chunk })

/-- A new connection. -/
def Connection.init (state : σ) : Connection σ := ⟨[], [], [], state⟩

/-! ### Messages -/

/-- A message that a buffer can hold with its length in front (at most `PTRDIFF_MAX` bytes). -/
structure Message where
  data : List UInt8
  length_lt : 8 + data.length < 2 ^ 63

/-- The bytes that a client sends for a message. -/
def Message.bytes (m : Message) : List UInt8 := writeUint64 (UInt64.ofNat m.data.length) ++ m.data

/-- The messages answered one after the other: the state of the server, and the replies. -/
def Handlers.answerAll (h : Handlers σ) (state : σ) (ms : List Message) : σ × List UInt8 :=
  ms.foldl (fun r m =>
    let (state, data) := h.answer r.1 m.data
    (state, r.2 ++ replyBytes data)) (state, [])

/-- When the chunks have arrived one after the other, every message was executed once, in order, the
replies were written, and the input buffer is empty. -/
def ExecutesAll (h : Handlers σ) (state : σ) (ms : List Message) (chunks : List (List UInt8)) :
    Prop :=
  ∃ c os, exec (receive h) (Connection.init state) chunks = some (c, os) ∧
    os.reduceOption = ms.map Message.data ∧ (c.state, c.output) = h.answerAll state ms ∧
    c.input = []

/-- The number of messages that are complete in the first `n` bytes. -/
def received : List Message → ℕ → ℕ
  | [], _ => 0
  | m :: ms, n => if m.bytes.length ≤ n then received ms (n - m.bytes.length) + 1 else 0

/-! ### One callback -/

theorem Message.length_bytes (m : Message) : m.bytes.length = 8 + m.data.length := by
  rw [bytes, List.length_append, length_writeUint64]

theorem Message.toNat_length (m : Message) :
    (UInt64.ofNat m.data.length).toNat = m.data.length := by
  have hlt := m.length_lt
  exact UInt64.toNat_ofNat_of_lt' (by rw [UInt64.size]; omega)

/-- The sum in `racs_length_prefix` does not overflow for a message. -/
theorem Message.toNat_size (m : Message) :
    (8 + UInt64.ofNat m.data.length).toNat = m.bytes.length := by
  have hlt := m.length_lt
  have height : (8 : UInt64).toNat = 8 := rfl
  rw [UInt64.toNat_add, m.toNat_length, m.length_bytes, height]
  exact Nat.mod_eq_of_lt (by omega)

/-- The length prefix of a buffer that holds the beginning of a message, or all of it. -/
theorem lengthPrefix_eq {input rest tail : List UInt8} {m : Message}
    (h : input ++ rest = m.bytes ++ tail) :
    lengthPrefix input =
      if m.bytes.length ≤ input.length then UInt64.ofNat m.data.length else 0 := by
  have hlen := m.length_bytes
  by_cases hheader : 8 ≤ input.length
  · have hread : readUint64 input 0 = some (UInt64.ofNat m.data.length, 8) := by
      have happend : readUint64 (input ++ rest) 0 = readUint64 input 0 := by
        rw [readUint64, slice_append_of_le _ _ (by omega), readUint64]
      rw [← happend, h, Message.bytes, List.append_assoc]
      exact (readUint64_write (holds_zero _)).1
    rw [lengthPrefix, hread]
    dsimp only
    rw [m.toNat_size]
    split_ifs with hshort hcomplete hcomplete
    · omega
    · rfl
    · rfl
    · omega
  · have hread : readUint64 input 0 = none := by
      rw [readUint64, slice, if_neg (by omega), Option.map_none]
    rw [lengthPrefix, hread, if_neg (by omega)]

/-- A callback on a buffer that starts with a complete message executes it. -/
theorem readCallback_message (h : Handlers σ) {c : Connection σ} {m : Message}
    {tail : List UInt8} (hne : m.data ≠ []) (hinput : c.input = m.bytes ++ tail) :
    readCallback h c =
      ({ input := tail
         output := c.output ++ replyBytes (h.answer c.state m.data).2
         broadcast := c.broadcast ++ [m.bytes]
         state := (h.answer c.state m.data).1 }, some m.data) := by
  have hstart : lengthPrefix c.input = UInt64.ofNat m.data.length := by
    have heq : c.input ++ [] = m.bytes ++ tail := by rw [List.append_nil, hinput]
    rw [lengthPrefix_eq heq, if_pos (by rw [hinput, List.length_append]; omega)]
  have hnonzero : UInt64.ofNat m.data.length ≠ 0 := by
    intro hzero
    have hlen := m.toNat_length
    rw [hzero] at hlen
    exact (List.length_pos_iff.mpr hne).ne hlen
  have hrest : c.input.drop 8 = m.data ++ tail := by
    rw [hinput, Message.bytes, List.append_assoc, List.drop_left' (length_writeUint64 _)]
  simp only [readCallback, hstart, if_neg hnonzero, m.toNat_size, hrest, m.toNat_length]
  rw [hinput, List.take_left, List.take_left, List.drop_left]

/-- A callback on a buffer without a complete message does nothing. -/
theorem readCallback_none (h : Handlers σ) {c : Connection σ} (hzero : lengthPrefix c.input = 0) :
    readCallback h c = (c, none) := by
  rw [readCallback, hzero]
  rfl

/-! ### Counting complete messages -/

/-- The message behind the first `k` is complete in `n` bytes. -/
theorem lt_received_iff {ms : List Message} {k n : ℕ} (hk : k < ms.length) :
    k < received ms n ↔ ((ms.take (k + 1)).flatMap Message.bytes).length ≤ n := by
  induction ms generalizing k n with
  | nil => cases hk
  | cons m ms ih =>
    rw [List.take_succ_cons, List.flatMap_cons, List.length_append, received]
    rcases k with - | k
    · rw [List.take_zero, List.flatMap_nil, List.length_nil, Nat.add_zero]
      split_ifs with hm
      · exact iff_of_true (Nat.succ_pos _) hm
      · exact iff_of_false (Nat.lt_irrefl 0) hm
    · have hk' : k < ms.length := Nat.lt_of_succ_lt_succ hk
      split_ifs with hm
      · rw [Nat.succ_lt_succ_iff, ih hk']
        omega
      · exact iff_of_false (Nat.not_lt_zero _) (by omega)

theorem received_le_length (ms : List Message) (n : ℕ) : received ms n ≤ ms.length := by
  induction ms generalizing n with
  | nil => exact le_refl 0
  | cons m ms ih =>
    rw [received]
    split_ifs
    · exact Nat.succ_le_succ (ih _)
    · exact Nat.zero_le _

theorem received_zero (ms : List Message) : received ms 0 = 0 := by
  rcases ms with - | ⟨m, ms⟩
  · rfl
  · have hlen := m.length_bytes
    rw [received, if_neg (by omega)]

theorem received_mono (ms : List Message) : Monotone (received ms) := by
  intro n n' hle
  induction ms generalizing n n' with
  | nil => exact le_refl 0
  | cons m ms ih =>
    rw [received, received]
    split_ifs with hn hn'
    · exact Nat.succ_le_succ (ih (Nat.sub_le_sub_right hle _))
    · omega
    · exact Nat.zero_le _
    · exact le_refl 0

/-- The number of messages that are complete in the first `j` chunks. -/
def arrived (ms : List Message) (chunks : List (List UInt8)) (j : ℕ) : ℕ :=
  received ms (chunks.take j).flatten.length

theorem arrived_mono (ms : List Message) (chunks : List (List UInt8)) :
    Monotone (arrived ms chunks) := by
  intro j j' hle
  exact received_mono ms ((List.take_sublist_take_left hle).flatten.length_le)

/-! ### The state of a connection after some chunks -/

/-- After some chunks, when the bytes `rest` are still to come, the first `k` messages were
executed, none of which is empty. -/
structure Framed (h : Handlers σ) (state : σ) (ms : List Message) (rest : List UInt8) (k : ℕ)
    (c : Connection σ) (os : List (Option (List UInt8))) : Prop where
  le_length : k ≤ ms.length
  input_eq : c.input ++ rest = (ms.drop k).flatMap Message.bytes
  executed : os.reduceOption = (ms.take k).map Message.data
  nonempty : ∀ m ∈ ms.take k, m.data ≠ []
  answered : (c.state, c.output) = h.answerAll state (ms.take k)

theorem answerAll_concat (h : Handlers σ) (state : σ) (ms : List Message) (m : Message) :
    h.answerAll state (ms ++ [m]) =
      ((h.answer (h.answerAll state ms).1 m.data).1,
        (h.answerAll state ms).2 ++ replyBytes (h.answer (h.answerAll state ms).1 m.data).2) := by
  rw [Handlers.answerAll, List.foldl_append]
  rfl

variable {h : Handlers σ} {state : σ} {ms : List Message} {rest chunk : List UInt8} {k : ℕ}
  {c : Connection σ} {os : List (Option (List UInt8))}

theorem framed_init (h : Handlers σ) (state : σ) {ms : List Message} {rest : List UInt8}
    (hrest : rest = ms.flatMap Message.bytes) : Framed h state ms rest 0 (.init state) [] where
  le_length := Nat.zero_le _
  input_eq := hrest
  executed := rfl
  nonempty := fun _ h => absurd h List.not_mem_nil
  answered := rfl

/-- Taking one element more of a list whose rest starts with `a`. -/
theorem take_succ_of_drop {α : Type} {l tail : List α} {a : α} {k : ℕ} (h : l.drop k = a :: tail) :
    k < l.length ∧ l.take (k + 1) = l.take k ++ [a] ∧ l.drop (k + 1) = tail := by
  have hk : k < l.length := by
    by_contra hge
    rw [List.drop_eq_nil_of_le (not_lt.mp hge)] at h
    cases h
  rw [List.drop_eq_getElem_cons hk] at h
  obtain ⟨rfl, rfl⟩ := List.cons.inj h
  exact ⟨hk, List.take_succ_eq_append_getElem hk, rfl⟩

/-- The callback finds no message: only the input grows. -/
theorem Framed.idle (hc : Framed h state ms (chunk ++ rest) k c os)
    (hzero : lengthPrefix (c.input ++ chunk) = 0) :
    Framed h state ms rest k (readCallback h { c with input := c.input ++ chunk }).1
      (os ++ [(readCallback h { c with input := c.input ++ chunk }).2]) := by
  have hcallback := @readCallback_none σ h { c with input := c.input ++ chunk } hzero
  rw [hcallback]
  refine ⟨hc.le_length, ?_, ?_, hc.nonempty, hc.answered⟩
  · rw [List.append_assoc]
    exact hc.input_eq
  · rw [List.reduceOption_append, hc.executed]
    exact List.append_nil _

/-- The callback finds a message that is not empty, and executes it. -/
theorem Framed.message {m : Message} {tail : List Message}
    (hc : Framed h state ms (chunk ++ rest) k c os) (hdrop : ms.drop k = m :: tail)
    (hne : m.data ≠ []) (hlen : m.bytes.length ≤ (c.input ++ chunk).length) :
    Framed h state ms rest (k + 1) (readCallback h { c with input := c.input ++ chunk }).1
      (os ++ [(readCallback h { c with input := c.input ++ chunk }).2]) := by
  obtain ⟨hk, htake, htail⟩ := take_succ_of_drop hdrop
  have hinput := hc.input_eq
  rw [← List.append_assoc, hdrop, List.flatMap_cons] at hinput
  -- the bytes behind the message, as far as they have arrived
  have hstart : m.bytes <+: c.input ++ chunk :=
    List.prefix_of_prefix_length_le ⟨_, hinput.symm⟩ ⟨rest, rfl⟩ hlen
  obtain ⟨after, hafter⟩ := hstart
  have hrest : after ++ rest = tail.flatMap Message.bytes := by
    rw [← hafter, List.append_assoc] at hinput
    exact List.append_cancel_left hinput
  have hcallback := @readCallback_message σ h { c with input := c.input ++ chunk } m after hne
    hafter.symm
  rw [hcallback]
  refine ⟨hk, ?_, ?_, ?_, ?_⟩
  · rw [htail]
    exact hrest
  · rw [List.reduceOption_append, hc.executed, htake, List.map_append]
    rfl
  · rw [htake]
    intro m' hm'
    rcases List.mem_append.mp hm' with hm' | hm'
    · exact hc.nonempty m' hm'
    · rwa [List.mem_singleton.mp hm']
  · obtain ⟨hstate, houtput⟩ := Prod.ext_iff.mp hc.answered
    dsimp only at hstate houtput
    rw [htake, answerAll_concat, ← hstate, ← houtput]

/-- **The step lemma**: when a chunk arrives, the callback executes the next message if it is
complete and not empty. -/
theorem Framed.receive (hc : Framed h state ms (chunk ++ rest) k c os) :
    let r := readCallback h { c with input := c.input ++ chunk }
    let arrived := received ms ((ms.flatMap Message.bytes).length - rest.length)
    Framed h state ms rest (k + 1) r.1 (os ++ [r.2]) ∧ k < arrived ∨
      Framed h state ms rest k r.1 (os ++ [r.2]) ∧
        ((∀ m ∈ ms, m.data ≠ []) → ¬ k < arrived) := by
  intro r arrived
  have hinput := hc.input_eq
  rw [← List.append_assoc] at hinput
  rcases hdrop : ms.drop k with - | ⟨m, tail⟩
  · have hnil : c.input ++ chunk = [] := by
      rw [hdrop, List.flatMap_nil, List.append_eq_nil_iff] at hinput
      exact hinput.1
    refine .inr ⟨hc.idle (by rw [hnil]; rfl), fun _ => not_lt.mpr ?_⟩
    exact (received_le_length ms _).trans (List.drop_eq_nil_iff.mp hdrop)
  · obtain ⟨hk, htake, -⟩ := take_succ_of_drop hdrop
    have hstart := lengthPrefix_eq (hinput.trans (by rw [hdrop, List.flatMap_cons]))
    have harrived : k < arrived ↔ m.bytes.length ≤ (c.input ++ chunk).length := by
      have htotal : (ms.flatMap Message.bytes).length =
          ((ms.take k).flatMap Message.bytes).length + (c.input ++ chunk).length + rest.length := by
        rw [Nat.add_assoc, ← List.length_append, hinput, ← List.length_append,
          ← List.flatMap_append, List.take_append_drop]
      rw [lt_received_iff hk, htake, List.flatMap_append, List.length_append,
        List.flatMap_singleton, htotal]
      omega
    by_cases hne : m.data = []
    · refine .inr ⟨hc.idle ?_, fun hall => absurd hne (hall m ?_)⟩
      · rw [hstart, hne]
        split_ifs <;> rfl
      · exact List.mem_of_mem_drop (hdrop ▸ List.mem_cons_self)
    · by_cases hlen : m.bytes.length ≤ (c.input ++ chunk).length
      · exact .inl ⟨hc.message hdrop hne hlen, harrived.mpr hlen⟩
      · exact .inr ⟨hc.idle (by rw [hstart, if_neg hlen]), fun _ => harrived.not.mpr hlen⟩

/-- **The state of a connection after some of the chunks.** If no message is empty, the messages
executed so far are those that a queue serves which is served once per chunk. -/
theorem framed_exec (h : Handlers σ) (state : σ) {ms : List Message} {chunks : List (List UInt8)}
    (hcut : chunks.flatten = ms.flatMap Message.bytes) {before after : List (List UInt8)}
    (hchunks : chunks = before ++ after) :
    ∃ c os k, exec (receive h) (.init state) before = some (c, os) ∧
      Framed h state ms after.flatten k c os ∧
      ((∀ m ∈ ms, m.data ≠ []) →
        k = TickQueue.served (arrived ms chunks) before.length) := by
  induction before using List.reverseRecOn generalizing after with
  | nil =>
    rw [List.nil_append] at hchunks
    exact ⟨_, _, 0, rfl, framed_init h state (hchunks ▸ hcut), fun _ => rfl⟩
  | append_singleton before chunk ih =>
    rw [List.append_assoc, List.singleton_append] at hchunks
    obtain ⟨c, os, k, hrun, hc, hk⟩ := ih hchunks
    have hrun' : exec (receive h) (.init state) (before ++ [chunk]) =
        some ((readCallback h { c with input := c.input ++ chunk }).1,
          os ++ [(readCallback h { c with input := c.input ++ chunk }).2]) :=
      exec_concat_eq_some.mpr ⟨c, os, _, hrun, rfl, rfl⟩
    have harrived : received ms ((ms.flatMap Message.bytes).length - after.flatten.length) =
        arrived ms chunks (before.length + 1) := by
      have htake : chunks.take (before.length + 1) = before ++ [chunk] := by
        rw [hchunks, ← List.singleton_append, ← List.append_assoc]
        exact List.take_left' (by simp)
      have hsplit : chunks.flatten = (before ++ [chunk]).flatten ++ after.flatten := by
        rw [hchunks, ← List.flatten_append, List.append_assoc, List.singleton_append]
      rw [arrived, htake, ← hcut, hsplit, List.length_append, Nat.add_sub_cancel]
    rw [List.length_append, List.length_singleton]
    have hstep := hc.receive
    rw [harrived] at hstep
    rcases hstep with ⟨hc', hlt⟩ | ⟨hc', hge⟩
    · refine ⟨_, _, k + 1, hrun', hc', fun hne => ?_⟩
      rw [TickQueue.served, ← hk hne, if_pos hlt]
    · refine ⟨_, _, k, hrun', hc', fun hne => ?_⟩
      rw [TickQueue.served, ← hk hne, if_neg (hge hne)]

/-- **When every message is executed once and in order.** This is so exactly if no message is empty
and, after any number of the chunks, at least as many chunks are left as messages that have not
completely arrived. -/
theorem executesAll_iff (h : Handlers σ) (state : σ) (ms : List Message)
    (chunks : List (List UInt8)) (hcut : chunks.flatten = ms.flatMap Message.bytes) :
    ExecutesAll h state ms chunks ↔ (∀ m ∈ ms, m.data ≠ []) ∧
      ∀ j ≤ chunks.length, ms.length - arrived ms chunks j ≤ chunks.length - j := by
  obtain ⟨c, os, k, hrun, hc, hk⟩ := framed_exec h state hcut (List.append_nil chunks).symm
  have hmono := arrived_mono ms chunks
  have hzero : arrived ms chunks 0 = 0 := received_zero ms
  have hall : ExecutesAll h state ms chunks ↔ k = ms.length := by
    constructor
    · rintro ⟨c', os', hrun', hexecuted, -, -⟩
      obtain ⟨rfl, rfl⟩ : c = c' ∧ os = os' := by simpa using hrun.symm.trans hrun'
      have hlen := congrArg List.length (hc.executed.symm.trans hexecuted)
      rw [List.length_map, List.length_map, List.length_take] at hlen
      have hle := hc.le_length
      omega
    · rintro rfl
      have hinput := hc.input_eq
      rw [List.drop_length, List.flatMap_nil, List.flatten_nil, List.append_nil] at hinput
      refine ⟨c, os, hrun, ?_, ?_, hinput⟩
      · rw [hc.executed, List.take_length]
      · rw [hc.answered, List.take_length]
  have hserved : (∀ m ∈ ms, m.data ≠ []) → (k = ms.length ↔
      ∀ j ≤ chunks.length, ms.length - arrived ms chunks j ≤ chunks.length - j) := by
    intro hne
    have hk' : k = ms.length ↔ ms.length ≤ k := ⟨Eq.ge, le_antisymm hc.le_length⟩
    rw [hk', hk hne, TickQueue.le_served_iff hmono hzero]
    refine forall₂_congr fun j _ => ?_
    omega
  rw [hall]
  constructor
  · intro hk'
    have hne : ∀ m ∈ ms, m.data ≠ [] := by
      have hnonempty := hc.nonempty
      rwa [hk', List.take_length] at hnonempty
    exact ⟨hne, (hserved hne).mp hk'⟩
  · rintro ⟨hne, hchunks⟩
    exact (hserved hne).mpr hchunks

/-! ### Two messages -/

/-- A server that sends every message back. -/
def echo : Handlers Unit := ⟨fun _ buf => ((), buf), fun _ buf => ((), buf)⟩

/-- Two messages of one byte. -/
def twoMessages : List Message := [⟨[1], by decide⟩, ⟨[2], by decide⟩]

/-- Two messages that arrive one after the other. -/
theorem executesAll_twoMessages :
    ExecutesAll echo () twoMessages (twoMessages.map Message.bytes) :=
  (executesAll_iff echo () twoMessages _ (by decide)).mpr (by decide)

/-- Two messages that arrive together: the second one stays in the buffer. -/
theorem not_executesAll_twoMessages :
    ¬ ExecutesAll echo () twoMessages [twoMessages.flatMap Message.bytes] := by
  rintro ⟨c, os, hrun, -, -, hinput⟩
  have hleft : (exec (receive echo) (.init ()) [twoMessages.flatMap Message.bytes]).map
      (fun r => r.1.input) = some [1, 0, 0, 0, 0, 0, 0, 0, 2] := by
    decide
  rw [hrun, Option.map_some, hinput] at hleft
  cases hleft

/-! ### Prefixes that wrap around -/

/-- A message is dispatched only when it has arrived: a length that `racs_length_prefix` returns
stands in front of as many bytes, and these are the bytes that are broadcast, executed and taken out
of the buffer. -/
structure DispatchesArrived (h : Handlers σ) (c : Connection σ) : Prop where
  arrived : lengthPrefix c.input ≠ 0 → 8 + (lengthPrefix c.input).toNat ≤ c.input.length
  acts : ∀ c' buf, readCallback h c = (c', some buf) → ∃ raw,
    c.input = raw ++ c'.input ∧ raw.length = 8 + (lengthPrefix c.input).toNat ∧
      buf = raw.drop 8 ∧ c'.broadcast = c.broadcast ++ [raw]

/-- When all of a message has arrived, its bytes are taken from the front of the buffer. -/
theorem readCallback_arrived {h : Handlers σ} {c c' : Connection σ} {buf : List UInt8}
    (harrived : 8 + (lengthPrefix c.input).toNat ≤ c.input.length)
    (hsize : c.input.length < 2 ^ 64) (hrun : readCallback h c = (c', some buf)) :
    ∃ raw, c.input = raw ++ c'.input ∧ raw.length = 8 + (lengthPrefix c.input).toNat ∧
      buf = raw.drop 8 ∧ c'.broadcast = c.broadcast ++ [raw] := by
  have height : (8 : UInt64).toNat = 8 := rfl
  have hsum : (8 + lengthPrefix c.input).toNat = 8 + (lengthPrefix c.input).toNat := by
    rw [UInt64.toNat_add, height, Nat.mod_eq_of_lt (by omega)]
  unfold readCallback at hrun
  dsimp only at hrun
  split_ifs at hrun with hzero
  · cases hrun
  · obtain ⟨rfl, hbuf⟩ := Prod.mk.inj hrun
    refine ⟨c.input.take (8 + lengthPrefix c.input).toNat, ?_, ?_, ?_, rfl⟩
    · rw [hsum, List.drop_drop, List.take_append_drop]
    · rw [hsum, List.length_take, min_eq_left harrived]
    · rw [hsum, ← Option.some.inj hbuf, List.drop_take, Nat.add_sub_cancel_left]

/-- What `racs_length_prefix` returns has arrived, unless its sum with the eight bytes of the length
wraps around. The sum is then at most seven, and the buffer with the length is longer. -/
theorem lengthPrefix_arrived_iff {input : List UInt8} (hsize : input.length < 2 ^ 64) :
    (lengthPrefix input ≠ 0 → 8 + (lengthPrefix input).toNat ≤ input.length) ↔
      ∀ len next, readUint64 input 0 = some (len, next) → len.toNat < 2 ^ 64 - 8 := by
  rcases hread : readUint64 input 0 with - | ⟨len, next⟩
  · have hzero : lengthPrefix input = 0 := by rw [lengthPrefix, hread]
    refine iff_of_true (fun hne => absurd hzero hne) fun len next hsome => ?_
    cases hsome
  · have hheader : 8 ≤ input.length := by
      by_contra hshort
      rw [readUint64, slice, if_neg (by omega), Option.map_none] at hread
      cases hread
    have height : (8 : UInt64).toNat = 8 := rfl
    have hsum : (8 + len).toNat = (8 + len.toNat) % 2 ^ 64 := by
      rw [UInt64.toNat_add, height]
    have hlt := len.toNat_lt
    have hlength : lengthPrefix input = if input.length < (8 + len).toNat then 0 else len := by
      rw [lengthPrefix, hread]
    rw [hlength]
    constructor
    · rintro harrived len' next' hsome
      obtain ⟨rfl, -⟩ := Prod.mk.inj (Option.some.inj hsome)
      by_contra hwrap
      have hne : len ≠ 0 := by
        rintro rfl
        exact hwrap (by decide)
      rw [if_neg (by omega)] at harrived
      have hle := harrived hne
      omega
    · intro hall
      have hlen := hall len next rfl
      split_ifs with hshort
      · exact fun hne => absurd rfl hne
      · intro _
        omega

/-- **When a message is dispatched only after it has arrived**: the length in front of the buffer,
if there is one, is less than 2^64 - 8. -/
theorem dispatchesArrived_iff (h : Handlers σ) (c : Connection σ)
    (hsize : c.input.length < 2 ^ 64) :
    DispatchesArrived h c ↔
      ∀ len next, readUint64 c.input 0 = some (len, next) → len.toNat < 2 ^ 64 - 8 := by
  constructor
  · exact fun hdispatch => (lengthPrefix_arrived_iff hsize).mp hdispatch.arrived
  · intro hcond
    have harrived := (lengthPrefix_arrived_iff hsize).mpr hcond
    refine ⟨harrived, fun c' buf hrun => readCallback_arrived (harrived ?_) hsize hrun⟩
    intro hzero
    rw [readCallback_none h hzero] at hrun
    cases hrun

/-- The greatest length, of which nothing has arrived. -/
theorem not_dispatchesArrived_echo :
    lengthPrefix (List.replicate 8 255) = 18446744073709551615 ∧
      ¬ DispatchesArrived echo ⟨List.replicate 8 255, [], [], ()⟩ := by
  refine ⟨by decide, fun h => ?_⟩
  have hle := h.arrived (by decide)
  revert hle
  decide

/-- A message of one byte, with the beginning of another length behind it. -/
theorem dispatchesArrived_echo :
    DispatchesArrived echo ⟨[1, 0, 0, 0, 0, 0, 0, 0, 7, 255, 255], [], [], ()⟩ := by
  refine (dispatchesArrived_iff echo _ (by decide)).mpr ?_
  rintro len next hread
  obtain ⟨rfl, -⟩ := Prod.mk.inj (Option.some.inj hread)
  decide

end Racs
