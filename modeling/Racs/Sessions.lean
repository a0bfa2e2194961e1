import Racs.Run
import Mathlib.Data.List.Induction

/-!
# Sessions of open streams

A stream is opened with a session id of zeros. The first frame that is accepted replaces it by the
id that the frame carries, and from then on `racs_session_cmp` accepts that id only, until the
stream is closed. `sessionAfter` says this of the requests on one stream and their replies, without
the hash table; the table holds it after every run.

## Main definitions

* `Racs.RequestReply`, `Racs.requestStep` — the steps of the server with the replies to the
requests.
* `Racs.sessionAfter` — the session of a stream after requests.
* `Racs.OneWriter`, `Racs.OpensOnce`, `Racs.RejectsClosed`.

## Main results

* `Racs.requestStep_spec` — what one request does to the session of a stream.
* `Racs.sessionsHeld_exec` — the table holds the sessions.
* `Racs.oneWriter_exec` — one writer per open stream.
-/

namespace Racs

open PartialRun

/-! ### Requests and replies -/

/-- What a client learns of a request: the results of `racs_stream_create`, `racs_stream_open`,
`racs_stream_close` and `racs_stream_append`. A flush replies to nobody. -/
inductive RequestReply
  | created (rc : Bool)
  | opened (rc : Bool)
  | closed (rc : Bool)
  | appended (status : StreamStatus)
  | silent
  deriving DecidableEq

/-- One step of the server, with the reply. -/
def requestStep (P : Platform) (s : Store) : Event → Option (Store × RequestReply)
  | .create streamId sampleRate channels bitDepth now =>
    let (md, rc) := streamCreate s.disk.metadata streamId sampleRate channels bitDepth now
    some ({ s with disk := { s.disk with metadata := md } }, .created rc)
  | .openStream streamId =>
    let (kv, rc) := streamOpen s.kv streamId
    some ({ s with kv := kv }, .opened rc)
  | .closeStream streamId =>
    let (kv, rc) := streamClose s.kv streamId
    some ({ s with kv := kv }, .closed rc)
  | .append data => (streamAppend P s data).map fun (s', status) => (s', .appended status)
  | .flush i => (step P s (.flush i)).map fun (s', _) => (s', .silent)

/-- The steps are those of the server. -/
theorem requestStep_eq_step (P : Platform) (s : Store) (ev : Event) :
    (requestStep P s ev).map Prod.fst = (step P s ev).map Prod.fst := by
  cases ev with
  | append data =>
    rw [requestStep, step, Option.map_map, Option.map_map]
    rfl
  | flush i =>
    rw [requestStep, Option.map_map]
    rfl
  | _ => rfl

/-- A step, recorded with its reply. -/
def recordStep (P : Platform) (s : Store) (ev : Event) : Option (Store × (Event × RequestReply)) :=
  (requestStep P s ev).map fun (s', reply) => (s', ev, reply)

theorem recordStep_eq_some {P : Platform} {s s' : Store} {ev : Event} {r : Event × RequestReply} :
    recordStep P s ev = some (s', r) ↔ r.1 = ev ∧ requestStep P s ev = some (s', r.2) := by
  obtain ⟨ev', reply⟩ := r
  simp only [recordStep, Option.map_eq_some_iff, Prod.exists, Prod.mk.injEq]
  constructor
  · rintro ⟨_, _, h, rfl, rfl, rfl⟩
    exact ⟨rfl, h⟩
  · rintro ⟨rfl, h⟩
    exact ⟨s', reply, h, rfl, rfl, rfl⟩

/-! ### The session of a stream -/

/-- The session id of a stream that was opened and has no writer yet. -/
def noSession : List UInt8 := List.replicate 16 0

/-- The request opened the stream. -/
def opensStream (streamId : UInt64) : Event × RequestReply → Bool
  | (.openStream id, .opened true) => id = streamId
  | _ => false

/-- The request closed the stream. -/
def closesStream (streamId : UInt64) : Event × RequestReply → Bool
  | (.closeStream id, .closed true) => id = streamId
  | _ => false

/-- The session id of the frame, if the request appended a frame to the stream and the frame was
accepted. -/
def acceptsOn (streamId : UInt64) : Event × RequestReply → Option (List UInt8)
  | (.append data, .appended .ok) =>
    (frameParse data).bind fun (frame, _) =>
      if frame.header.streamId = streamId then some frame.header.sessionId else none
  | _ => none

/-- What a request and its reply make of the session of a stream. -/
def nextSession (streamId : UInt64) (session : Option (List UInt8)) (r : Event × RequestReply) :
    Option (List UInt8) :=
  if opensStream streamId r then some noSession
  else if closesStream streamId r then none
  else (acceptsOn streamId r).orElse fun _ => session

/-- The session of a stream after requests: none if it is not open. -/
def sessionAfter (streamId : UInt64) (rs : List (Event × RequestReply)) : Option (List UInt8) :=
  rs.foldl (nextSession streamId) none

/-- The last request that opened or closed the stream opened it. -/
def isOpenAfter (streamId : UInt64) (rs : List (Event × RequestReply)) : Bool :=
  rs.foldl (fun b r =>
    if opensStream streamId r then true else if closesStream streamId r then false else b) false

theorem sessionAfter_concat (streamId : UInt64) (rs : List (Event × RequestReply))
    (r : Event × RequestReply) :
    sessionAfter streamId (rs ++ [r]) = nextSession streamId (sessionAfter streamId rs) r := by
  rw [sessionAfter, List.foldl_append]
  rfl

theorem isOpenAfter_concat (streamId : UInt64) (rs : List (Event × RequestReply))
    (r : Event × RequestReply) :
    isOpenAfter streamId (rs ++ [r]) =
      if opensStream streamId r then true
      else if closesStream streamId r then false else isOpenAfter streamId rs := by
  rw [isOpenAfter, List.foldl_append]
  rfl

/-- Only a frame for the stream is accepted on it. -/
theorem acceptsOn_eq_some {streamId : UInt64} {r : Event × RequestReply} {session : List UInt8}
    (h : acceptsOn streamId r = some session) :
    ∃ data frame valid, r = (.append data, .appended .ok) ∧ frameParse data = some (frame, valid) ∧
      frame.header.streamId = streamId ∧ frame.header.sessionId = session := by
  unfold acceptsOn at h
  split at h
  · rename_i data
    obtain ⟨⟨frame, valid⟩, hparse, hsession⟩ := Option.bind_eq_some_iff.mp h
    dsimp only at hsession
    split_ifs at hsession with heq
    exact ⟨data, frame, valid, rfl, hparse, heq, Option.some.inj hsession⟩
  · cases h

theorem nextSession_of_acceptsOn {streamId : UInt64} {r : Event × RequestReply}
    {session : List UInt8} (h : acceptsOn streamId r = some session) (old : Option (List UInt8)) :
    nextSession streamId old r = some session := by
  obtain ⟨data, frame, valid, rfl, -⟩ := acceptsOn_eq_some h
  have hopens : opensStream streamId (.append data, .appended .ok) = false := rfl
  have hcloses : closesStream streamId (.append data, .appended .ok) = false := rfl
  simp only [nextSession, hopens, hcloses, h, Bool.false_eq_true, if_false, Option.orElse_some]

/-- A request that does not concern the stream. -/
theorem nextSession_of_other {streamId : UInt64} {r : Event × RequestReply}
    (hopens : opensStream streamId r = false) (hcloses : closesStream streamId r = false)
    (haccepts : acceptsOn streamId r = none) (old : Option (List UInt8)) :
    nextSession streamId old r = old := by
  simp only [nextSession, hopens, hcloses, haccepts, Bool.false_eq_true, if_false,
    Option.orElse_none]

/-! ### One request -/

variable {P : Platform} {cfg : Config} {s s' : Store}

/-- An accepted frame fits the session of its open stream and binds it. -/
theorem streamAppend_session {data : List UInt8} (h : streamAppend P s data = some (s', .ok)) :
    ∃ frame session, frameParse data = some (frame, true) ∧
      kvstoreGet s.kv frame.header.streamId = some session ∧
      sessionCmp frame.header.sessionId session = true ∧
      s'.kv = kvstorePut s.kv frame.header.streamId frame.header.sessionId := by
  obtain ⟨hne, -⟩ | ⟨-, frame, session, md, hparse, hsession, hcmp, -, hstore⟩ :=
    streamAppend_cases h
  · exact absurd rfl hne
  · simp only [streamStore, Option.bind_eq_some_iff, Option.map_eq_some_iff, Prod.exists] at hstore
    obtain ⟨timestamp, -, mmt, full, -, rfl⟩ := hstore
    exact ⟨frame, session, hparse, hsession, hcmp, rfl⟩

/-- A well-formed frame for a stream that is not open is rejected. -/
theorem streamAppend_of_closed {data : List UInt8} {frame : Frame}
    (hparse : frameParse data = some (frame, true))
    (hclosed : kvstoreGet s.kv frame.header.streamId = none) :
    streamAppend P s data = some (s, .conflict) := by
  rw [streamAppend, hparse, Option.bind_some]
  simp only [Bool.true_eq_false, if_false, hclosed]

/-- The table of the sessions works as a map. -/
structure Store.SessionsExact (s : Store) : Prop where
  exact_ops : s.kv.ops.Exact
  distinct : s.kv.KeysDistinct

theorem Store.init_sessionsExact (cfg : Config) : (Store.init cfg).SessionsExact :=
  ⟨streamIdOps_exact, keysDistinct_create _ _ _⟩

/-- What a request does to the sessions, with the conditions that it checks first. -/
structure RequestSpec (s s' : Store) (r : Event × RequestReply) : Prop where
  sessionsExact : s'.SessionsExact
  session : ∀ streamId,
    kvstoreGet s'.kv streamId = nextSession streamId (kvstoreGet s.kv streamId) r
  opens : ∀ streamId, opensStream streamId r → kvstoreGet s.kv streamId = none
  closes : ∀ streamId, closesStream streamId r → (kvstoreGet s.kv streamId).isSome
  accepts : ∀ streamId session, acceptsOn streamId r = some session →
    ∃ old, kvstoreGet s.kv streamId = some old ∧ sessionCmp session old = true

/-- A request that leaves the sessions alone. -/
theorem requestSpec_of_kv_eq (hs : s.SessionsExact) (hkv : s'.kv = s.kv) {r : Event × RequestReply}
    (hopens : ∀ streamId, opensStream streamId r = false)
    (hcloses : ∀ streamId, closesStream streamId r = false)
    (haccepts : ∀ streamId, acceptsOn streamId r = none) : RequestSpec s s' r where
  sessionsExact := ⟨hkv ▸ hs.exact_ops, hkv ▸ hs.distinct⟩
  session streamId := by
    rw [nextSession_of_other (hopens streamId) (hcloses streamId) (haccepts streamId), hkv]
  opens streamId h := by
    rw [hopens] at h
    cases h
  closes streamId h := by
    rw [hcloses] at h
    cases h
  accepts streamId session h := by
    rw [haccepts] at h
    cases h

theorem requestSpec_open (hs : s.SessionsExact) (id : UInt64) :
    RequestSpec s { s with kv := (streamOpen s.kv id).1 }
      (.openStream id, .opened (streamOpen s.kv id).2) := by
  unfold streamOpen
  split
  · exact requestSpec_of_kv_eq hs rfl (fun _ => rfl) (fun _ => rfl) (fun _ => rfl)
  · rename_i hnone
    refine ⟨⟨hs.exact_ops, keysDistinct_put hs.exact_ops hs.distinct _ _⟩, fun streamId => ?_,
      fun streamId h => ?_, fun _ h => absurd h Bool.false_ne_true,
      fun _ _ h => absurd h.symm (Option.some_ne_none _)⟩
    · show _ = if decide (id = streamId) = true then some noSession else kvstoreGet s.kv streamId
      rw [kvstoreGet_put hs.exact_ops]
      exact if_congr (eq_comm.trans decide_eq_true_iff.symm) rfl rfl
    · obtain rfl : id = streamId := of_decide_eq_true h
      exact hnone

theorem requestSpec_close (hs : s.SessionsExact) (id : UInt64) :
    RequestSpec s { s with kv := (streamClose s.kv id).1 }
      (.closeStream id, .closed (streamClose s.kv id).2) := by
  unfold streamClose
  split
  · exact requestSpec_of_kv_eq hs rfl (fun _ => rfl) (fun _ => rfl) (fun _ => rfl)
  · rename_i session hsome
    refine ⟨⟨hs.exact_ops, keysDistinct_delete hs.distinct _⟩, fun streamId => ?_,
      fun _ h => absurd h Bool.false_ne_true, fun streamId h => ?_,
      fun _ _ h => absurd h.symm (Option.some_ne_none _)⟩
    · show _ = if decide (id = streamId) = true then none else kvstoreGet s.kv streamId
      rw [kvstoreGet_delete hs.exact_ops hs.distinct]
      exact if_congr (eq_comm.trans decide_eq_true_iff.symm) rfl rfl
    · obtain rfl : id = streamId := of_decide_eq_true h
      rw [hsome]
      rfl

theorem requestSpec_append (hs : s.SessionsExact) {data : List UInt8} {status : StreamStatus}
    (h : streamAppend P s data = some (s', status)) :
    RequestSpec s s' (.append data, .appended status) := by
  by_cases hstatus : status = .ok
  · subst hstatus
    obtain ⟨frame, old, hparse, hold, hcmp, hkv⟩ := streamAppend_session h
    have haccepts : ∀ streamId, acceptsOn streamId (.append data, .appended .ok) =
        if frame.header.streamId = streamId then some frame.header.sessionId else none := by
      intro streamId
      rw [acceptsOn, hparse, Option.bind_some]
    refine ⟨⟨hkv ▸ hs.exact_ops, hkv ▸ keysDistinct_put hs.exact_ops hs.distinct _ _⟩,
      fun streamId => ?_, fun _ h => absurd h Bool.false_ne_true,
      fun _ h => absurd h Bool.false_ne_true,
      fun streamId session h => ?_⟩
    · rw [hkv, kvstoreGet_put hs.exact_ops]
      split_ifs with heq
      · exact (nextSession_of_acceptsOn ((haccepts _).trans (if_pos heq.symm)) _).symm
      · exact (nextSession_of_other rfl rfl ((haccepts _).trans (if_neg (Ne.symm heq))) _).symm
    · rw [haccepts] at h
      split_ifs at h with heq
      obtain rfl := Option.some.inj h
      exact ⟨old, heq ▸ hold, hcmp⟩
  · obtain rfl := streamAppend_rejected hstatus h
    refine requestSpec_of_kv_eq hs rfl (fun _ => rfl) (fun _ => rfl) fun streamId => ?_
    unfold acceptsOn
    split
    · rename_i heq
      exact absurd (RequestReply.appended.inj (Prod.mk.inj heq).2) hstatus
    · rfl

/-- **What one request does to the session of a stream.** A stream is only opened when it was
closed, and closed when it was open; a frame is only accepted if it fits the session. -/
theorem requestStep_spec {ev : Event} {reply : RequestReply} (hs : s.SessionsExact)
    (h : requestStep P s ev = some (s', reply)) : RequestSpec s s' (ev, reply) := by
  cases ev with
  | create streamId sampleRate channels bitDepth now =>
    obtain ⟨hs', rfl⟩ : _ = s' ∧ RequestReply.created _ = reply := Prod.mk.inj (Option.some.inj h)
    have hkv : s'.kv = s.kv := by rw [← hs']
    exact requestSpec_of_kv_eq hs hkv (fun _ => rfl) (fun _ => rfl) (fun _ => rfl)
  | openStream id =>
    obtain ⟨rfl, rfl⟩ := Prod.mk.inj (Option.some.inj h)
    exact requestSpec_open hs id
  | closeStream id =>
    obtain ⟨rfl, rfl⟩ := Prod.mk.inj (Option.some.inj h)
    exact requestSpec_close hs id
  | append data =>
    obtain ⟨⟨t, status⟩, happend, heq⟩ := Option.map_eq_some_iff.mp h
    obtain ⟨rfl, rfl⟩ := Prod.mk.inj heq
    exact requestSpec_append hs happend
  | flush i =>
    obtain ⟨⟨t, o⟩, hstep, heq⟩ := Option.map_eq_some_iff.mp h
    obtain ⟨rfl, rfl⟩ := Prod.mk.inj heq
    have hkv : t.kv = s.kv := by
      rw [step] at hstep
      split at hstep
      · obtain ⟨rfl, -⟩ := Prod.mk.inj (Option.some.inj hstep)
        rfl
      · obtain ⟨disk, -, heq⟩ := Option.map_eq_some_iff.mp hstep
        obtain ⟨rfl, -⟩ := Prod.mk.inj heq
        rfl
    exact requestSpec_of_kv_eq hs hkv (fun _ => rfl) (fun _ => rfl) (fun _ => rfl)

/-! ### Runs -/

/-- The table holds the session of every stream, which is open exactly if the last request that
opened or closed it opened it. -/
structure SessionsHeld (rs : List (Event × RequestReply)) (s : Store) : Prop where
  sessionsExact : s.SessionsExact
  session : ∀ streamId, kvstoreGet s.kv streamId = sessionAfter streamId rs
  isOpen : ∀ streamId, (sessionAfter streamId rs).isSome = isOpenAfter streamId rs

theorem sessionsHeld_init (cfg : Config) : SessionsHeld [] (Store.init cfg) where
  sessionsExact := Store.init_sessionsExact cfg
  session _ := rfl
  isOpen _ := rfl

theorem SessionsHeld.step {rs : List (Event × RequestReply)} {ev : Event} {r : Event × RequestReply}
    (h : SessionsHeld rs s) (hstep : recordStep P s ev = some (s', r)) :
    SessionsHeld (rs ++ [r]) s' := by
  obtain ⟨rfl, hrequest⟩ := recordStep_eq_some.mp hstep
  have hspec := requestStep_spec h.sessionsExact hrequest
  refine ⟨hspec.sessionsExact, fun streamId => ?_, fun streamId => ?_⟩
  · rw [sessionAfter_concat, ← h.session]
    exact hspec.session streamId
  · rw [sessionAfter_concat, isOpenAfter_concat, nextSession]
    by_cases hopens : opensStream streamId r = true
    · rw [if_pos hopens, if_pos hopens]
      rfl
    · rw [if_neg hopens, if_neg hopens]
      by_cases hcloses : closesStream streamId r = true
      · rw [if_pos hcloses, if_pos hcloses]
        rfl
      · rw [if_neg hcloses, if_neg hcloses, ← h.isOpen]
        cases haccepts : acceptsOn streamId r with
        | none => rfl
        | some session =>
          obtain ⟨old, hold, -⟩ := hspec.accepts streamId session haccepts
          rw [← h.session, hold]
          rfl

/-- **The table holds the sessions** after every run. -/
theorem sessionsHeld_exec {evs : List Event} {rs : List (Event × RequestReply)}
    (hrun : exec (recordStep P) (Store.init cfg) evs = some (s, rs)) : SessionsHeld rs s :=
  exec_induction (fun _ _ _ _ _ h hstep => h.step hstep) (sessionsHeld_init cfg) hrun

/-- A bound session stays as long as the stream is not closed. -/
theorem kvstoreGet_exec_of_bound {streamId : UInt64} {session : List UInt8}
    (hne : session ≠ noSession) (hs : s.SessionsExact)
    (hbound : kvstoreGet s.kv streamId = some session) {evs : List Event}
    {rs : List (Event × RequestReply)} (hrun : exec (recordStep P) s evs = some (s', rs))
    (hcloses : ∀ r ∈ rs, closesStream streamId r = false) :
    s'.SessionsExact ∧ kvstoreGet s'.kv streamId = some session := by
  have hinv : (∀ r ∈ rs, closesStream streamId r = false) →
      s'.SessionsExact ∧ kvstoreGet s'.kv streamId = some session := by
    refine exec_induction (P := fun rs m => (∀ r ∈ rs, closesStream streamId r = false) →
      m.SessionsExact ∧ kvstoreGet m.kv streamId = some session) ?_ (fun _ => ⟨hs, hbound⟩) hrun
    intro rs m ev m' r ih hstep hcloses
    obtain ⟨hm, hget⟩ := ih fun r hr => hcloses r (List.mem_append_left _ hr)
    have hclose := hcloses r (by simp)
    obtain ⟨rfl, hrequest⟩ := recordStep_eq_some.mp hstep
    have hspec := requestStep_spec hm hrequest
    refine ⟨hspec.sessionsExact, ?_⟩
    have hopens : opensStream streamId r = false := by
      by_contra h
      rw [hspec.opens streamId (Bool.not_eq_false _ ▸ h)] at hget
      cases hget
    cases haccepts : acceptsOn streamId r with
    | none => rw [hspec.session, nextSession_of_other hopens hclose haccepts, hget]
    | some session' =>
      obtain ⟨old, hold, hcmp⟩ := hspec.accepts streamId session' haccepts
      obtain rfl := Option.some.inj (hget.symm.trans hold)
      obtain hzero | rfl : session = noSession ∨ session' = session := by
        simpa [sessionCmp, noSession] using hcmp
      · exact absurd hzero hne
      · rw [hspec.session, nextSession_of_acceptsOn haccepts]
  exact hinv hcloses

/-- From a frame with a session id other than zeros that was accepted on the stream, up to the next
request that closes the stream, every accepted frame on it has the same session id. -/
def OneWriter (streamId : UInt64) (rs : List (Event × RequestReply)) : Prop :=
  ∀ before r middle r' after session session', rs = before ++ r :: (middle ++ r' :: after) →
    acceptsOn streamId r = some session → session ≠ noSession →
    (∀ q ∈ middle, closesStream streamId q = false) →
    acceptsOn streamId r' = some session' → session' = session

/-- A request to open the stream while it is open fails and leaves its session as it is. -/
def OpensOnce (streamId : UInt64) (rs : List (Event × RequestReply)) : Prop :=
  ∀ before reply after, rs = before ++ (.openStream streamId, reply) :: after →
    isOpenAfter streamId before = true → reply = .opened false ∧
      sessionAfter streamId (before ++ [(.openStream streamId, reply)]) =
        sessionAfter streamId before

/-- A well-formed frame for the stream while it is not open is rejected with a conflict. -/
def RejectsClosed (streamId : UInt64) (rs : List (Event × RequestReply)) : Prop :=
  ∀ before data reply after frame, rs = before ++ (.append data, reply) :: after →
    frameParse data = some (frame, true) → frame.header.streamId = streamId →
    isOpenAfter streamId before = false → reply = .appended .conflict

/-- What the requests of a run reply, and the state that they reply from. -/
theorem exists_recordStep {evs : List Event} {before after : List (Event × RequestReply)}
    {r : Event × RequestReply}
    (hrun : exec (recordStep P) s evs = some (s', before ++ r :: after)) :
    ∃ evs₁ evs₂ m m', exec (recordStep P) s evs₁ = some (m, before) ∧
      requestStep P m r.1 = some (m', r.2) ∧ exec (recordStep P) m' evs₂ = some (s', after) := by
  obtain ⟨evs₁, evs₂, m, rfl, hbefore, hrest⟩ := exec_of_outputs_append hrun
  cases evs₂ with
  | nil => simp at hrest
  | cons ev evs₂ =>
    obtain ⟨m', r', after', hstep, hafter, heq⟩ := exec_cons_eq_some.mp hrest
    obtain ⟨rfl, rfl⟩ := List.cons.inj heq
    obtain ⟨rfl, hrequest⟩ := recordStep_eq_some.mp hstep
    exact ⟨evs₁, evs₂, m, m', hbefore, hrequest, hafter⟩

/-- **One writer per open stream.** In every run of requests from any number of clients on any
streams, an accepted session id is the only one on its stream until the stream is closed, a second
opening does not reset it, and a stream that is not open takes no frame. -/
theorem oneWriter_exec {evs : List Event} {rs : List (Event × RequestReply)}
    (hrun : exec (recordStep P) (Store.init cfg) evs = some (s, rs)) (streamId : UInt64) :
    OneWriter streamId rs ∧ OpensOnce streamId rs ∧ RejectsClosed streamId rs := by
  refine ⟨?_, ?_, ?_⟩
  · rintro before r middle r' after session session' rfl haccepts hne hcloses haccepts'
    obtain ⟨evs₁, evs₂, m, m', hbefore, hstep, hrest⟩ := exists_recordStep hrun
    have hspec := requestStep_spec (sessionsHeld_exec hbefore).sessionsExact hstep
    have hbound : kvstoreGet m'.kv streamId = some session := by
      rw [hspec.session]
      exact nextSession_of_acceptsOn haccepts _
    obtain ⟨evs₃, evs₄, n, n', hmiddle, hstep', -⟩ := exists_recordStep hrest
    obtain ⟨hn, hbound'⟩ :=
      kvstoreGet_exec_of_bound hne hspec.sessionsExact hbound hmiddle hcloses
    obtain ⟨old, hold, hcmp⟩ :=
      (requestStep_spec hn hstep').accepts streamId session' haccepts'
    obtain rfl := Option.some.inj (hbound'.symm.trans hold)
    obtain hzero | rfl : session = noSession ∨ session' = session := by
      simpa [sessionCmp, noSession] using hcmp
    · exact absurd hzero hne
    · rfl
  · rintro before reply after rfl hopen
    obtain ⟨evs₁, evs₂, m, m', hbefore, hstep, -⟩ := exists_recordStep hrun
    have hheld := sessionsHeld_exec hbefore
    rw [← hheld.isOpen, ← hheld.session] at hopen
    obtain ⟨old, hold⟩ := Option.isSome_iff_exists.mp hopen
    have hreply : reply = .opened false := by
      have heq : RequestReply.opened (streamOpen m.kv streamId).2 = reply :=
        (Prod.mk.inj (Option.some.inj hstep)).2
      rw [← heq]
      simp only [streamOpen, hold]
    subst hreply
    exact ⟨rfl, by rw [sessionAfter_concat, nextSession_of_other rfl rfl rfl]⟩
  · rintro before data reply after frame rfl hparse rfl hclosed
    obtain ⟨evs₁, evs₂, m, m', hbefore, hstep, -⟩ := exists_recordStep hrun
    have hheld := sessionsHeld_exec hbefore
    rw [← hheld.isOpen, ← hheld.session, Option.isSome_eq_false_iff, Option.isNone_iff_eq_none]
      at hclosed
    simp only [requestStep, streamAppend_of_closed hparse hclosed, Option.map_some,
      Option.some.injEq, Prod.mk.injEq] at hstep
    exact hstep.2.symm

/-- A frame of another session, between two frames of the session that is bound, then a closing and
a frame for the closed stream. -/
def twoWriters : List Event :=
  let other : Frame := { Frame.constant (racsHash streamA) 1 4 with
    header := { (Frame.constant (racsHash streamA) 1 4).header with
      sessionId := List.replicate 16 2 } }
  opened streamA ++ [sent streamA 1 4, .openStream (racsHash streamA), .append other.bytes,
    sent streamA 2 4, .closeStream (racsHash streamA), sent streamA 3 4]

theorem oneWriter_twoWriters : ∃ s rs,
    exec (recordStep .rational) (Store.init (.small 8 (by decide))) twoWriters = some (s, rs) ∧
      rs.map Prod.snd = [.created true, .opened true, .appended .ok, .opened false,
        .appended .conflict, .appended .ok, .closed true, .appended .conflict] ∧
      OneWriter (racsHash streamA) rs ∧ OpensOnce (racsHash streamA) rs ∧
      RejectsClosed (racsHash streamA) rs := by
  have hrun : ((exec (recordStep .rational) (Store.init (.small 8 (by decide))) twoWriters).map
      fun r : Store × List (Event × RequestReply) => r.2.map Prod.snd) =
        some [.created true, .opened true, .appended .ok, .opened false, .appended .conflict,
          .appended .ok, .closed true, .appended .conflict] := by
    decide +kernel
  obtain ⟨⟨s, rs⟩, hrun, hreplies⟩ := Option.map_eq_some_iff.mp hrun
  exact ⟨s, rs, hrun, hreplies, oneWriter_exec hrun (racsHash streamA)⟩

end Racs
