import Racs.OffsetsInit

/-!
# The numbers of memtable entries

A memtable entry is stamped with `racs_wal_lsn`, which is read when the entry is stored. The live
append has written the record by then, which moved the counter forward; the replay does not move
the counter at all. Here the server runs through any number of lives: starts, the replay record by
record, requests, and flushes at any time. With each entry the state carries the number of the
record that logged it, which the server does not keep.

## Main definitions

* `Racs.Process`, `Racs.ProcessEvent`, `Racs.processStep` — the server over several lives.
* `Racs.Process.CarriesLsns` — the entries in the memtables have the numbers of their records.
* `Racs.KeepsNumbers` — the steps that give an entry the number of its record.

## Main results

* `Racs.Process.CarriesLsns.checkpoint` — what a flush writes to the manifest then.
* `Racs.processRun_replay` — the steps of the replay are those of `racs_wal_replay`.
* `Racs.carriesThroughout_iff` — the runs in which the entries have the numbers of their records.
-/

namespace Racs

open PartialRun

/-- What is left of a replay: the checkpoint that it read at its start, the segments that it will
read, and the records of its segment. -/
structure ReplayState where
  checkpointLsn : UInt64
  segnos : List ℕ
  reads : List WalRead

/-- The server, with its replay while that lasts, and with the number of the record of each entry in
the memtables. -/
structure Process where
  store : Store
  replay : Option ReplayState
  lsns : List UInt64

/-- The server after the start, with the whole log to replay. -/
def Process.start (s : Store) : Process where
  store := s
  replay := some ⟨walCheckpointLsn s.disk.wal, s.disk.wal.segments.map Segment.segno, []⟩
  lsns := []

/-- What happens to the server over several lives. -/
inductive ProcessEvent
  /-- A request or a flush. -/
  | serve (ev : Event)
  /-- The next record or segment of the replay. -/
  | replayNext
  /-- A crash and a start, at which `malloc` does or does not return the memory of
  `racs_offsets_init` again. -/
  | restart (reused : Bool)

/-- The number of the record, if the step from one store to the other put an entry into a
memtable. -/
def newLsns (s s' : Store) (lsn : UInt64) : List UInt64 :=
  if s.pending.length < s'.pending.length then [lsn] else []

/-- The numbers without those of a memtable that was flushed. -/
def flushedLsns (jobs : List Memtable) (i : ℕ) (lsns : List UInt64) : List UInt64 :=
  let position := ((jobs.take i).flatMap Memtable.entries).length
  let size := (jobs[i]?.map fun mt => mt.entries.length).getD 0
  lsns.take position ++ lsns.drop (position + size)

/-- The numbers after a request or a flush. -/
def servedLsns (s s' : Store) (lsns : List UInt64) : Event → List UInt64
  | .flush i => flushedLsns s.jobs i lsns
  | _ => lsns ++ newLsns s s' s.wal.lsn

/-- The event is a flush, which may run at any time. -/
def Event.isFlush : Event → Bool
  | .flush _ => true
  | _ => false

/-- One step of the replay. -/
def replayStep (P : Platform) (p : Process) (r : ReplayState) : Option Process :=
  match r.reads with
  | read :: reads => (walReplayEntry P r.checkpointLsn p.store read).map fun s =>
      { store := s
        replay := some { r with reads := reads }
        lsns := p.lsns ++ newLsns p.store s ((read.1.map WalEntry.lsn).getD 0) }
  | [] =>
    match r.segnos with
    | [] => some { p with replay := none }
    | segno :: segnos =>
      match p.store.disk.wal.segments.find? (·.segno = segno) with
      | none => some { p with replay := some { r with segnos := segnos } }
      | some segment => (walScan (fun _ => true) segment.data 0).map fun reads =>
          { p with replay := some { r with segnos := segnos, reads := reads } }

/-- One step of the server. Requests are served when the replay is over. -/
def processStep (P : Platform) (cfg : Config) (p : Process) : ProcessEvent → Option Process
  | .serve ev =>
    if p.replay.isSome ∧ ev.isFlush = false then some p
    else (step P p.store ev).map fun (s, _) =>
      { p with store := s, lsns := servedLsns p.store s p.lsns ev }
  | .replayNext =>
    match p.replay with
    | none => some p
    | some r => replayStep P p r
  | .restart reused => (offsetsInit P reused p.store.disk offsetsCreate).map fun offsets =>
      .start (Store.start cfg p.store.disk offsets)

/-- The server after the events, from a start on any data directory. -/
def processRun (P : Platform) (cfg : Config) (disk : Disk) (offsets : Offsets)
    (evs : List ProcessEvent) : Option Process :=
  evs.foldlM (processStep P cfg) (.start (Store.start cfg disk offsets))

/-- Each entry in the memtables is stamped with the number of its record. -/
def Process.CarriesLsns (p : Process) : Prop :=
  p.store.pending.map MemtableEntry.lsn = p.lsns

/-- The entries have the numbers of their records in every state of the run. -/
def CarriesThroughout (P : Platform) (cfg : Config) (disk : Disk) (offsets : Offsets)
    (evs : List ProcessEvent) : Prop :=
  ∀ before after p, evs = before ++ after → processRun P cfg disk offsets before = some p →
    p.CarriesLsns

/-- The replay puts an entry for the record into the memtable. -/
def reinserts (md : MetadataDir) (checkpointLsn : UInt64) (entry : WalEntry) : Bool :=
  crc32c 0 entry.op = entry.checksum ∧ checkpointLsn < entry.lsn ∧
    (frameParse entry.op).any fun r => (metadataGet md r.1.header.streamId).isSome

/-- The step accepts no append, and replays a record only if the counter stands at its number. -/
def KeepsNumbers (P : Platform) (p : Process) : ProcessEvent → Prop
  | .serve (.append data) => p.replay = none → ∀ s, streamAppend P p.store data ≠ some (s, .ok)
  | .replayNext => ∀ r read reads entry, p.replay = some r → r.reads = read :: reads →
      read.1 = some entry → reinserts p.store.disk.metadata r.checkpointLsn entry = true →
      entry.lsn = p.store.wal.lsn
  | _ => True

variable {P : Platform} {cfg : Config}

/-! ### What a step does to the memtables -/

/-- **All that the replay does with a record**: nothing, or put its entry behind all others. -/
theorem walReplayEntry_cases {s s' : Store} {mt : Memtable} {checkpointLsn : UInt64}
    {read : WalRead} (hmt : s.HasMemtable cfg mt)
    (h : walReplayEntry P checkpointLsn s read = some s') :
    (s' = s ∧ ∀ entry, read.1 = some entry →
      reinserts s.disk.metadata checkpointLsn entry = false) ∨
    ∃ entry e mt', read.1 = some entry ∧ reinserts s.disk.metadata checkpointLsn entry = true ∧
      e.lsn = s.wal.lsn ∧ s'.pending = s.pending ++ [e] ∧ s'.HasMemtable cfg mt' ∧
      s'.disk = s.disk ∧ s'.wal = s.wal ∧ mt'.entries ≠ [] ∧
      ∀ job ∈ s'.jobs, job ∈ s.jobs ∨ job = mt ∧ mt.entries ≠ [] := by
  unfold walReplayEntry at h
  rcases hread : read.1 with - | entry
  · rw [hread] at h
    exact .inl ⟨(Option.some.inj h).symm, fun entry hentry => by cases hentry⟩
  · rw [hread] at h
    dsimp only at h
    split_ifs at h with hskip
    · refine .inl ⟨(Option.some.inj h).symm, ?_⟩
      rintro _ ⟨⟩
      refine decide_eq_false fun ⟨hsum, hlsn, _⟩ => ?_
      rcases hskip with hskip | hskip
      · exact hskip hsum
      · exact absurd hskip (UInt64.not_le.mpr hlsn)
    · rw [not_or, not_not, UInt64.not_le] at hskip
      obtain ⟨⟨frame, valid⟩, hparse, h⟩ := Option.bind_eq_some_iff.mp h
      dsimp only at h
      rcases hmd : metadataGet s.disk.metadata frame.header.streamId with - | md
      · rw [hmd] at h
        refine .inl ⟨(Option.some.inj h).symm, ?_⟩
        rintro _ ⟨⟩
        refine decide_eq_false fun ⟨_, _, hsome⟩ => ?_
        rw [hparse, Option.any_some, hmd] at hsome
        cases hsome
      · rw [hmd] at h
        dsimp only at h
        obtain ⟨timestamp, -, h⟩ := Option.bind_eq_some_iff.mp h
        obtain ⟨⟨mmt, full⟩, happend, rfl⟩ := Option.map_eq_some_iff.mp h
        obtain ⟨mt', full', happend', hcap, hentries⟩ :=
          multiMemtableAppend_cases (frame.entry timestamp s.wal.lsn) (hmt.2 ▸ cfg.entries_pos)
        rw [hmt.1, happend'] at happend
        obtain ⟨rfl, rfl⟩ := Prod.mk.inj (Option.some.inj happend)
        refine .inr ⟨entry, frame.entry timestamp s.wal.lsn, mt', rfl,
          decide_eq_true ⟨hskip.1, hskip.2, by rw [hparse, Option.any_some, hmd]; rfl⟩, rfl, ?_,
          ⟨rfl, hcap.trans hmt.2⟩, rfl, rfl, ?_, ?_⟩
        · rw [Store.pending, Store.pending, hmt.1]
          rcases hentries with ⟨-, hentries, rfl⟩ | ⟨-, hentries, rfl⟩
          · simp [hentries]
          · simp [hentries]
        · rcases hentries with ⟨-, hentries, -⟩ | ⟨-, hentries, -⟩
          · simp [hentries]
          · simp [hentries]
        · intro job hjob
          rcases List.mem_append.mp hjob with hjob | hjob
          · exact .inl hjob
          · rcases hentries with ⟨-, -, rfl⟩ | ⟨hfull, -, rfl⟩
            · cases hjob
            · refine .inr ⟨List.mem_singleton.mp hjob, List.ne_nil_of_length_pos ?_⟩
              rw [hfull, hmt.2]
              exact cfg.entries_pos

/-- An accepted append puts its entry behind all others. -/
theorem Stored.pending_eq {s s' : Store} {data : List UInt8} {frame : Frame} {md : Metadata}
    {timestamp : Int64} {mt mt' : Memtable} (h : Stored P s s' data frame md timestamp mt mt')
    (hmt : s.mmt = [mt]) :
    s'.pending = s.pending ++ [frame.entry timestamp (s.wal.lsn + 1)] := by
  rw [Store.pending, Store.pending, hmt, h.mmt]
  rcases h.entries with ⟨-, hentries, hjobs⟩ | ⟨-, hentries, hjobs⟩
  · simp [hentries, hjobs]
  · simp [hentries, hjobs]

theorem newLsns_of_concat {s s' : Store} {e : MemtableEntry} (h : s'.pending = s.pending ++ [e])
    (lsn : UInt64) : newLsns s s' lsn = [lsn] := by
  rw [newLsns, if_pos]
  rw [h, List.length_append]
  exact Nat.lt_succ_self _

theorem newLsns_of_eq {s s' : Store} (h : s'.pending = s.pending) (lsn : UInt64) :
    newLsns s s' lsn = [] := by
  rw [newLsns, h, if_neg (Nat.lt_irrefl _)]

namespace Process

variable {p p' : Process}

/-- A step that puts an entry behind all others keeps the numbers exactly if it gives the entry the
number of its record. -/
theorem carriesLsns_concat_iff (h : p.CarriesLsns) {s : Store} {e : MemtableEntry}
    (hpending : s.pending = p.store.pending ++ [e]) {replay : Option ReplayState} {lsn : UInt64} :
    CarriesLsns ⟨s, replay, p.lsns ++ newLsns p.store s lsn⟩ ↔ e.lsn = lsn := by
  rw [CarriesLsns, newLsns_of_concat hpending, hpending, List.map_append, h]
  simp

/-- A step that leaves the memtables as they are. -/
theorem carriesLsns_of_eq (h : p.CarriesLsns) {s : Store} (hpending : s.pending = p.store.pending)
    {replay : Option ReplayState} {lsn : UInt64} :
    CarriesLsns ⟨s, replay, p.lsns ++ newLsns p.store s lsn⟩ := by
  rw [CarriesLsns, newLsns_of_eq hpending, hpending, List.append_nil]
  exact h

/-- After a start there are no entries. -/
theorem start_carriesLsns (cfg : Config) (disk : Disk) (offsets : Offsets) :
    (Process.start (Store.start cfg disk offsets)).CarriesLsns := by
  rw [CarriesLsns, Process.start, Store.pending, Store.start_mmt]
  rfl

/-- A flush takes away the entries of its memtable, and their numbers. -/
theorem CarriesLsns.flush (h : p.CarriesLsns) {i : ℕ} {s : Store} {o : Output}
    (hstep : step P p.store (.flush i) = some (s, o)) {replay : Option ReplayState} :
    CarriesLsns ⟨s, replay, servedLsns p.store s p.lsns (.flush i)⟩ := by
  rw [step] at hstep
  rw [CarriesLsns, servedLsns, flushedLsns]
  split at hstep
  · rename_i hnone
    obtain ⟨rfl, -⟩ := Prod.mk.inj (Option.some.inj hstep)
    rw [hnone, Option.map_none, Option.getD_none, Nat.add_zero, List.take_append_drop]
    exact h
  · rename_i mt hmt
    obtain ⟨disk, -, heq⟩ := Option.map_eq_some_iff.mp hstep
    obtain ⟨rfl, -⟩ := Prod.mk.inj heq
    obtain ⟨hlt, hget⟩ := List.getElem?_eq_some_iff.mp hmt
    have hjobs : p.store.jobs =
        p.store.jobs.take i ++ mt :: p.store.jobs.drop (i + 1) := by
      rw [← hget, List.getElem_cons_drop, List.take_append_drop]
    have hpending : p.store.pending = (p.store.jobs.take i).flatMap Memtable.entries ++
        (mt.entries ++ (p.store.jobs.drop (i + 1) ++ p.store.mmt).flatMap Memtable.entries) := by
      conv_lhs => rw [Store.pending, hjobs]
      simp
    rw [hmt, Option.map_some, Option.getD_some, ← h, hpending, Store.pending,
      List.eraseIdx_eq_take_drop_succ]
    simp [List.drop_append]

/-- A request keeps the numbers exactly if it is not an append that is accepted. -/
theorem CarriesLsns.serve_iff (h : p.CarriesLsns) {mt : Memtable}
    (hmt : p.store.HasMemtable cfg mt) (hreplay : p.replay = none) {ev : Event}
    {s : Store} {o : Output} (hev : ev.isFlush = false) (hstep : step P p.store ev = some (s, o)) :
    CarriesLsns ⟨s, p.replay, servedLsns p.store s p.lsns ev⟩ ↔ KeepsNumbers P p (.serve ev) := by
  have hother : (∀ data, ev ≠ .append data) → s.pending = p.store.pending := by
    intro hne
    rcases step_cases hmt hstep with ⟨-, md, kv, -, rfl⟩ | ⟨data, -, -, -, -, rfl, -⟩ |
      ⟨i, -, -, rfl, -⟩
    · rfl
    · exact absurd rfl (hne data)
    · cases hev
  cases ev with
  | append data =>
    obtain ⟨⟨t, status⟩, happend, heq⟩ := Option.map_eq_some_iff.mp hstep
    obtain ⟨rfl, -⟩ := Prod.mk.inj heq
    by_cases hstatus : status = .ok
    · subst hstatus
      obtain ⟨frame, md, timestamp, mt', hstored⟩ :=
        stored_of_streamAppend hmt.1 (hmt.2 ▸ cfg.entries_pos) happend
      refine (carriesLsns_concat_iff h (hstored.pending_eq hmt.1)).trans (iff_of_false ?_ ?_)
      · intro hlsn
        have hsucc : p.store.wal.lsn + 1 = p.store.wal.lsn := hlsn
        exact absurd (UInt64.add_eq_left.mp hsucc) (by decide)
      · exact fun hkeeps => hkeeps hreplay t happend
    · have hsame := streamAppend_rejected hstatus happend
      refine iff_of_true (carriesLsns_of_eq h (by rw [hsame])) fun _ t' hok => ?_
      exact hstatus (Prod.mk.inj (Option.some.inj (happend.symm.trans hok))).2
  | flush i => cases hev
  | create => exact iff_of_true (carriesLsns_of_eq h (hother nofun)) trivial
  | openStream => exact iff_of_true (carriesLsns_of_eq h (hother nofun)) trivial
  | closeStream => exact iff_of_true (carriesLsns_of_eq h (hother nofun)) trivial

/-- A step of the replay keeps the numbers exactly if a record for which it makes an entry has the
number at which the counter stands. -/
theorem CarriesLsns.replay_iff (h : p.CarriesLsns) {mt : Memtable}
    (hmt : p.store.HasMemtable cfg mt) {r : ReplayState} (hreplay : p.replay = some r)
    (hstep : replayStep P p r = some p') :
    (∃ mt', p'.store.HasMemtable cfg mt') ∧
      (p'.CarriesLsns ↔ KeepsNumbers P p .replayNext) := by
  obtain ⟨checkpointLsn, segnos, reads⟩ := r
  cases reads with
  | cons read reads =>
    obtain ⟨s, hentry, rfl⟩ := Option.map_eq_some_iff.mp hstep
    rcases walReplayEntry_cases hmt hentry with ⟨rfl, hskip⟩ |
      ⟨entry, e, mt', hread, hreinserts, hlsn, hpending, hmt', -, -⟩
    · refine ⟨⟨mt, hmt⟩, iff_of_true (carriesLsns_of_eq h rfl) ?_⟩
      rintro r read' reads' entry hr hreads hread hreinserts
      obtain rfl := Option.some.inj (hreplay.symm.trans hr)
      obtain ⟨rfl, -⟩ := List.cons.inj hreads
      rw [hskip entry hread] at hreinserts
      cases hreinserts
    · refine ⟨⟨mt', hmt'⟩, (carriesLsns_concat_iff h hpending).trans ?_⟩
      rw [hlsn, hread, Option.map_some, Option.getD_some]
      constructor
      · rintro hcounter r read' reads' entry' hr hreads hread' -
        obtain rfl := Option.some.inj (hreplay.symm.trans hr)
        obtain ⟨rfl, -⟩ := List.cons.inj hreads
        obtain rfl := Option.some.inj (hread.symm.trans hread')
        exact hcounter.symm
      · intro hkeeps
        exact (hkeeps _ read reads entry hreplay rfl hread hreinserts).symm
  | nil =>
    have hkeeps : KeepsNumbers P p .replayNext := by
      rintro r read reads entry hr hreads - -
      obtain rfl := Option.some.inj (hreplay.symm.trans hr)
      cases hreads
    cases segnos with
    | nil =>
      obtain rfl := Option.some.inj hstep
      exact ⟨⟨mt, hmt⟩, iff_of_true h hkeeps⟩
    | cons segno segnos =>
      simp only [replayStep] at hstep
      split at hstep
      · obtain rfl := Option.some.inj hstep
        exact ⟨⟨mt, hmt⟩, iff_of_true h hkeeps⟩
      · obtain ⟨reads, -, rfl⟩ := Option.map_eq_some_iff.mp hstep
        exact ⟨⟨mt, hmt⟩, iff_of_true h hkeeps⟩

/-- **Each step** keeps the numbers of the entries exactly if it gives new entries the numbers of
their records. -/
theorem CarriesLsns.step_iff (h : p.CarriesLsns) {mt : Memtable}
    (hmt : p.store.HasMemtable cfg mt) {ev : ProcessEvent}
    (hstep : processStep P cfg p ev = some p') :
    (∃ mt', p'.store.HasMemtable cfg mt') ∧ (p'.CarriesLsns ↔ KeepsNumbers P p ev) := by
  cases ev with
  | serve ev =>
    rw [processStep] at hstep
    split_ifs at hstep with hwait
    · obtain rfl := Option.some.inj hstep
      refine ⟨⟨mt, hmt⟩, iff_of_true h ?_⟩
      cases ev with
      | append data =>
        intro hreplay
        rw [hreplay] at hwait
        exact absurd hwait.1 Bool.false_ne_true
      | _ => trivial
    · obtain ⟨⟨s, o⟩, hserved, rfl⟩ := Option.map_eq_some_iff.mp hstep
      refine ⟨step_hasMemtable hmt hserved, ?_⟩
      by_cases hflush : ev.isFlush = true
      · obtain ⟨i, rfl⟩ : ∃ i, ev = .flush i := by
          cases ev with
          | flush i => exact ⟨i, rfl⟩
          | _ => cases hflush
        exact iff_of_true (h.flush hserved) trivial
      · rw [Bool.not_eq_true] at hflush
        have hreplay : p.replay = none := by
          by_contra hne
          exact hwait ⟨Option.isSome_iff_ne_none.mpr hne, hflush⟩
        exact h.serve_iff hmt hreplay hflush hserved
  | replayNext =>
    rw [processStep] at hstep
    cases hreplay : p.replay with
    | none =>
      rw [hreplay] at hstep
      obtain rfl := Option.some.inj hstep
      refine ⟨⟨mt, hmt⟩, iff_of_true h fun r _ _ _ hr => ?_⟩
      rw [hreplay] at hr
      cases hr
    | some r =>
      rw [hreplay] at hstep
      exact h.replay_iff hmt hreplay hstep
  | restart reused =>
    obtain ⟨offsets, -, rfl⟩ := Option.map_eq_some_iff.mp hstep
    exact ⟨⟨_, Store.start_mmt .., rfl⟩, iff_of_true (start_carriesLsns ..) trivial⟩

/-- **What a flush writes to the manifest**, if the entries have the numbers of their records: the
number of the record of the last entry that it makes durable. -/
theorem CarriesLsns.checkpoint (h : p.CarriesLsns) {jobs jobs' : List Memtable} {mt : Memtable}
    (hjobs : p.store.jobs = jobs ++ mt :: jobs') (hne : mt.entries ≠ []) {disk : Disk}
    (hflush : memtableFlush P p.store.disk mt = some disk) :
    ((p.lsns.drop (jobs.flatMap Memtable.entries).length).take mt.entries.length).getLast? =
      some (walCheckpointLsn disk.wal) := by
  have hpending : p.store.pending = jobs.flatMap Memtable.entries ++
      (mt.entries ++ (jobs' ++ p.store.mmt).flatMap Memtable.entries) := by
    rw [Store.pending, hjobs]
    simp
  have hlsns : (p.lsns.drop (jobs.flatMap Memtable.entries).length).take mt.entries.length =
      mt.entries.map MemtableEntry.lsn := by
    rw [← h, hpending, ← List.map_drop, List.drop_left, ← List.map_take, List.take_left]
  obtain rfl := eq_of_memtableFlush hne hflush
  have hcheckpoint : walCheckpointLsn (walTruncate
      { p.store.disk.wal with manifest := some (writeUint64 mt.maxLsn) }) = mt.maxLsn :=
    walCheckpointLsn_of_manifest rfl
  rw [hlsns, hcheckpoint, Memtable.maxLsn, List.getLast?_map, List.getLast?_eq_some_getLast hne,
    Option.map_some, Option.getD_some]

end Process

/-! ### The steps of the replay -/

/-- The steps for the records of a segment. -/
theorem exec_replayReads {checkpointLsn : UInt64} {segnos : List ℕ} {reads : List WalRead}
    {s t : Store} (lsns : List UInt64)
    (h : reads.foldlM (fun s read => (walReplayEntry P checkpointLsn s read).bind some) s =
      some t) :
    ∃ lsns', (List.replicate reads.length .replayNext).foldlM (processStep P cfg)
        ⟨s, some ⟨checkpointLsn, segnos, reads⟩, lsns⟩ =
      some ⟨t, some ⟨checkpointLsn, segnos, []⟩, lsns'⟩ := by
  induction reads generalizing s lsns with
  | nil =>
    obtain rfl := Option.some.inj h
    exact ⟨lsns, rfl⟩
  | cons read reads ih =>
    rw [List.foldlM_cons] at h
    obtain ⟨m, hm, hrest⟩ := Option.bind_eq_some_iff.mp h
    rw [Option.bind_fun_some] at hm
    obtain ⟨lsns', hlsns'⟩ := ih (lsns ++ newLsns s m ((read.1.map WalEntry.lsn).getD 0)) hrest
    refine ⟨lsns', ?_⟩
    rw [List.length_cons, List.replicate_succ, List.foldlM_cons]
    simp only [processStep, replayStep, hm]
    exact hlsns'

/-- The steps for the segments. -/
theorem exec_replaySegments {checkpointLsn : UInt64} {segnos : List ℕ} {s t : Store}
    (lsns : List UInt64)
    (h : segnos.foldlM (walReplaySegment P some checkpointLsn) s = some t) :
    ∃ n lsns', (List.replicate n .replayNext).foldlM (processStep P cfg)
        ⟨s, some ⟨checkpointLsn, segnos, []⟩, lsns⟩ =
      some ⟨t, some ⟨checkpointLsn, [], []⟩, lsns'⟩ := by
  induction segnos generalizing s lsns with
  | nil =>
    obtain rfl := Option.some.inj h
    exact ⟨0, lsns, rfl⟩
  | cons segno segnos ih =>
    rw [List.foldlM_cons] at h
    obtain ⟨m, hm, hrest⟩ := Option.bind_eq_some_iff.mp h
    rw [walReplaySegment] at hm
    cases hfind : s.disk.wal.segments.find? (·.segno = segno) with
    | none =>
      rw [hfind] at hm
      obtain rfl := Option.some.inj hm
      obtain ⟨n, lsns', hn⟩ := ih lsns hrest
      refine ⟨n + 1, lsns', ?_⟩
      rw [List.replicate_succ, List.foldlM_cons]
      simp only [processStep, replayStep, hfind]
      exact hn
    | some segment =>
      rw [hfind] at hm
      obtain ⟨reads, hscan, hreads⟩ := Option.bind_eq_some_iff.mp hm
      obtain ⟨lsns₁, hsegment⟩ :=
        @exec_replayReads P cfg checkpointLsn segnos reads s m lsns hreads
      obtain ⟨n, lsns', hn⟩ := ih lsns₁ hrest
      refine ⟨reads.length + n + 1, lsns', ?_⟩
      rw [List.replicate_succ, List.foldlM_cons, List.replicate_add]
      simp only [processStep, replayStep, hfind, hscan, Option.map_some, List.foldlM_append,
        Option.bind_eq_bind, Option.bind_some, hsegment]
      exact hn

/-- **The steps of the replay are those of `racs_wal_replay`**, as long as no flush runs between
them. -/
theorem processRun_replay {disk : Disk} {offsets : Offsets} {t : Store}
    (h : walReplay P some (Store.start cfg disk offsets) = some t) :
    ∃ n lsns, processRun P cfg disk offsets (List.replicate n .replayNext) =
      some ⟨t, none, lsns⟩ := by
  obtain ⟨n, lsns, hn⟩ := @exec_replaySegments P cfg _ _ _ _ [] h
  refine ⟨n + 1, lsns, ?_⟩
  rw [List.replicate_succ', processRun, List.foldlM_append]
  exact congrArg (Option.bind · _) hn

/-! ### Runs -/

variable {disk : Disk} {offsets : Offsets}

theorem processRun_concat (evs : List ProcessEvent) (ev : ProcessEvent) :
    processRun P cfg disk offsets (evs ++ [ev]) =
      (processRun P cfg disk offsets evs).bind (processStep P cfg · ev) := by
  rw [processRun, List.foldlM_append, processRun]
  simp

/-- A run whose states carry the numbers keeps one memtable. -/
theorem CarriesThroughout.hasMemtable {evs : List ProcessEvent}
    (h : CarriesThroughout P cfg disk offsets evs) {before after : List ProcessEvent}
    (hevs : evs = before ++ after) {p : Process}
    (hrun : processRun P cfg disk offsets before = some p) : ∃ mt, p.store.HasMemtable cfg mt := by
  induction before using List.reverseRecOn generalizing after p with
  | nil =>
    obtain rfl := Option.some.inj hrun
    exact ⟨_, Store.start_mmt .., rfl⟩
  | append_singleton before ev ih =>
    rw [processRun_concat] at hrun
    obtain ⟨m, hm, hstep⟩ := Option.bind_eq_some_iff.mp hrun
    have hsplit : evs = before ++ ev :: after := by simp [hevs]
    obtain ⟨mt, hmt⟩ := ih hsplit hm
    exact ((h before _ m hsplit hm).step_iff hmt hstep).1

/-- **The runs in which the entries have the numbers of their records**: those that accept no
append, and whose replays make entries only for records at whose number the counter stands. -/
theorem carriesThroughout_iff (evs : List ProcessEvent) :
    CarriesThroughout P cfg disk offsets evs ↔ ∀ before ev after p, evs = before ++ ev :: after →
      processRun P cfg disk offsets before = some p → (processStep P cfg p ev).isSome →
      KeepsNumbers P p ev := by
  constructor
  · intro h before ev after p hevs hrun hsome
    obtain ⟨p', hstep⟩ := Option.isSome_iff_exists.mp hsome
    obtain ⟨mt, hmt⟩ := h.hasMemtable hevs hrun
    have hcarries := h before _ p hevs hrun
    refine (hcarries.step_iff hmt hstep).2.mp (h (before ++ [ev]) after p' (by simp [hevs]) ?_)
    rw [processRun_concat, hrun, Option.bind_some, hstep]
  · intro h
    have hreached : ∀ before after p, evs = before ++ after →
        processRun P cfg disk offsets before = some p →
        (∃ mt, p.store.HasMemtable cfg mt) ∧ p.CarriesLsns := by
      intro before
      induction before using List.reverseRecOn with
      | nil =>
        intro after p _ hrun
        obtain rfl := Option.some.inj hrun
        exact ⟨⟨_, Store.start_mmt .., rfl⟩, Process.start_carriesLsns cfg disk offsets⟩
      | append_singleton before ev ih =>
        intro after p hevs hrun
        rw [processRun_concat] at hrun
        obtain ⟨m, hm, hstep⟩ := Option.bind_eq_some_iff.mp hrun
        have hsplit : evs = before ++ ev :: after := by simp [hevs]
        obtain ⟨⟨mt, hmt⟩, hcarries⟩ := ih _ m hsplit hm
        obtain ⟨hmt', hiff⟩ := hcarries.step_iff hmt hstep
        exact ⟨hmt', hiff.mpr (h before ev after m hsplit hm (by rw [hstep]; rfl))⟩
    exact fun before after p hevs hrun => (hreached before after p hevs hrun).2

/-- The first start of a server, whose replay finds nothing, and one block. -/
def oneBlockEvents : List ProcessEvent :=
  [.replayNext, .replayNext] ++ (opened streamA ++ [sent streamA 1 4]).map .serve

/-- The record of the first block has the number 0, and its entry the number 1. -/
theorem not_carriesThroughout_sent :
    ¬CarriesThroughout .rational (.small 4 (by decide)) ⟨WalDir.empty, ∅, ∅⟩ offsetsCreate
      oneBlockEvents := by
  intro h
  have hrun : ((processRun .rational (.small 4 (by decide)) ⟨WalDir.empty, ∅, ∅⟩ offsetsCreate
      oneBlockEvents).map fun p => (p.store.pending.map MemtableEntry.lsn, p.lsns)) =
      some ([1], [0]) := by
    decide +kernel
  obtain ⟨p, hp, hlsns⟩ := Option.map_eq_some_iff.mp hrun
  obtain ⟨hstamps, hnumbers⟩ := Prod.mk.inj hlsns
  have hcarries := h oneBlockEvents [] p (List.append_nil _).symm hp
  rw [Process.CarriesLsns, hstamps, hnumbers] at hcarries
  exact absurd hcarries (by decide)

end Racs
