import Racs.Run
import Mathlib.Data.List.Induction

/-!
# Flushes in the background

The flush of a full memtable runs in a thread of its own, at any time after the append that caused
it and in any order with other flushes. Two properties of the data directory over such runs.

The checkpoint in the manifest says which records a replay skips. A replay without a manifest
already skips the record with the number zero, which is that of the first append; so the first
append of a run is not covered from the moment it is accepted.

An SSTable is stored under the time of its first entry, and renaming replaces a file of the same
name. The SSTables of a run keep their data exactly as long as no two flushed memtables start in
the same millisecond.

## Main definitions

* `Racs.CheckpointsSafe` — the checkpoint never decreases and covers only what is in an SSTable.
* `Racs.FlushesKeepData` — every flush writes to a new path, and what was flushed is readable.

## Main results

* `Racs.checkpointsSafe_iff`, `Racs.flushesKeepData_iff`.
-/

namespace Racs

open PartialRun

variable {P : Platform} {cfg : Config}

/-! ### The checkpoint -/

/-- An entry is in the SSTable of its memtable, at the final path. -/
def Disk.HasEntry (P : Platform) (d : Disk) (e : MemtableEntry) : Prop :=
  ∃ mt : Memtable, e ∈ mt.entries ∧
    d.sstables.lookup (mt.path P false) = some (sstableImage mt.entries)

/-- A replay does not see the record with this number: it skips the record, or no segment has
it. -/
def Disk.Drops (d : Disk) (lsn : UInt64) : Prop :=
  lsn ≤ walCheckpointLsn d.wal ∨
    ∀ rs, walRecords d.wal.segments = some rs → lsn ∉ rs.map WalEntry.lsn

/-- Every record that a replay would not see belongs to a memtable whose SSTable is on disk. -/
def Disk.Covers (P : Platform) (d : Disk) (os : List Output) : Prop :=
  ∀ lsn e, .accepted lsn e ∈ os → d.Drops lsn → d.HasEntry P e

/-- In every state of the run, records that a replay would not see are in SSTables, and no step
decreases the checkpoint. -/
def CheckpointsSafe (P : Platform) (s : Store) (evs : List Event) : Prop :=
  ∀ before after m os, evs = before ++ after → exec (step P) s before = some (m, os) →
    m.disk.Covers P os ∧
      ∀ ev rest m' o, after = ev :: rest → step P m ev = some (m', o) →
        walCheckpointLsn m.disk.wal ≤ walCheckpointLsn m'.disk.wal

/-- The store before the first append: nothing is logged, flushed or waiting. -/
structure Store.Fresh (cfg : Config) (s : Store) : Prop where
  hasMemtable : s.HasMemtable cfg (memtableCreate cfg.entries)
  jobs : s.jobs = []
  sstables : s.disk.sstables = ∅
  manifest : s.disk.wal.manifest = none
  lsn : s.wal.lsn = 0

theorem Store.init_fresh (cfg : Config) : (Store.init cfg).Fresh cfg :=
  ⟨Store.init_hasMemtable cfg, rfl, rfl, rfl, (walLayout_create_empty none).2⟩

theorem Store.Fresh.checkpoint {s : Store} (h : s.Fresh cfg) : walCheckpointLsn s.disk.wal = 0 := by
  rw [walCheckpointLsn, h.manifest]

/-- A step that accepts nothing leaves the store as before the first append. -/
theorem Store.Fresh.step {s s' : Store} {ev : Event} {o : Output} (h : s.Fresh cfg)
    (ho : o.entry? = none) (hstep : step P s ev = some (s', o)) : s'.Fresh cfg := by
  rcases step_cases h.hasMemtable hstep with ⟨-, md, kv, -, rfl⟩ |
    ⟨data, frame, md, timestamp, mt', -, rfl, -⟩ | ⟨i, full, disk, -, -, hfull, -, -⟩
  · exact ⟨h.hasMemtable, h.jobs, h.sstables, h.manifest, h.lsn⟩
  · cases ho
  · rw [h.jobs, List.getElem?_nil] at hfull
    cases hfull

/-- A run that accepts nothing leaves the store as before the first append. -/
theorem Store.Fresh.exec {s t : Store} {evs : List Event} {os : List Output} (h : s.Fresh cfg)
    (hrun : exec (Racs.step P) s evs = some (t, os)) (hos : ∀ o ∈ os, o.entry? = none) :
    t.Fresh cfg := by
  refine exec_induction (P := fun os s => (∀ o ∈ os, o.entry? = none) → s.Fresh cfg) ?_
    (fun _ => h) hrun hos
  intro os s ev s' o ih hstep hos
  exact (ih fun o' ho' => hos o' (List.mem_append_left _ ho')).step
    (hos o (List.mem_append_right _ List.mem_cons_self)) hstep

theorem acceptedEntries_eq_nil {os : List Output} :
    acceptedEntries os = [] ↔ ∀ o ∈ os, o.entry? = none :=
  List.filterMap_eq_nil_iff

/-- **A run that accepts an append is not safe**: right after the first one, a replay would skip its
record, which no SSTable holds. -/
theorem not_checkpointsSafe {evs : List Event} {t : Store} {os : List Output}
    (hrun : exec (step P) (Store.init cfg) evs = some (t, os)) (hos : acceptedEntries os ≠ []) :
    ¬ CheckpointsSafe P (Store.init cfg) evs := by
  have hsome : ∃ o ∈ os, o.entry? ≠ none := by
    simpa [acceptedEntries_eq_nil] using hos
  obtain ⟨before, ev, after, m, os₁, m', o, rfl, hbefore, hnone, hstep, ho⟩ :=
    exec_exists_first hrun hsome
  have hfresh : m.Fresh cfg :=
    (Store.init_fresh cfg).exec hbefore fun o' ho' => not_not.mp (hnone o' ho')
  rcases step_cases hfresh.hasMemtable hstep with ⟨rfl, -⟩ |
    ⟨data, frame, md, timestamp, mt', rfl, rfl, hstored⟩ | ⟨i, full, disk, -, rfl, -, -, -⟩
  · exact absurd rfl ho
  · intro hsafe
    have hprefix : exec (step P) (Store.init cfg) (before ++ [.append data]) =
        some (m', os₁ ++ [.accepted m.wal.lsn (frame.entry timestamp (m.wal.lsn + 1))]) :=
      exec_concat_eq_some.mpr ⟨m, os₁, _, hbefore, hstep, rfl⟩
    obtain ⟨hcovers, -⟩ := hsafe (before ++ [.append data]) after _ _ (by simp) hprefix
    -- the record of the first append has the number zero
    have hdrops : m'.disk.Drops m.wal.lsn := .inl (hfresh.lsn ▸ UInt64.zero_le)
    obtain ⟨mt, -, hlookup⟩ := hcovers _ _ (List.mem_append_right _ List.mem_cons_self) hdrops
    rw [hstored.disk, hfresh.sstables, AList.lookup_empty] at hlookup
    cases hlookup
  · exact absurd rfl ho

/-- **When the checkpoint is safe.** In every state of a run the manifest covers only what is in an
SSTable, and never decreases, exactly if the run accepts no append. -/
theorem checkpointsSafe_iff {evs : List Event} {t : Store} {os : List Output}
    (hrun : exec (step P) (Store.init cfg) evs = some (t, os)) :
    CheckpointsSafe P (Store.init cfg) evs ↔ acceptedEntries os = [] := by
  constructor
  · intro hsafe
    by_contra hos
    exact not_checkpointsSafe hrun hos hsafe
  · rw [acceptedEntries_eq_nil]
    rintro hos before after m os₁ rfl hbefore
    obtain ⟨m₁, os₁', os₂, hbefore', hafter, rfl⟩ := exec_append_eq_some.mp hrun
    obtain ⟨rfl, rfl⟩ : m₁ = m ∧ os₁' = os₁ := by simpa using hbefore'.symm.trans hbefore
    have hnone : ∀ o ∈ os₁', o.entry? = none := fun o ho => hos o (List.mem_append_left _ ho)
    have hfresh : m₁.Fresh cfg := (Store.init_fresh cfg).exec hbefore hnone
    constructor
    · intro lsn e hmem
      cases hnone _ hmem
    · rintro ev rest m' o rfl hstep
      obtain ⟨m₂, o', os₂', hstep', -, rfl⟩ := exec_cons_eq_some.mp hafter
      obtain ⟨rfl, rfl⟩ : m₂ = m' ∧ o' = o := by simpa using hstep'.symm.trans hstep
      have hfresh' := hfresh.step (hos o' (by simp)) hstep
      rw [hfresh.checkpoint, hfresh'.checkpoint]
      exact UInt64.le_refl 0

/-- Opening a stream is safe. -/
theorem checkpointsSafe_opened :
    CheckpointsSafe .rational (Store.init (.small 2 (by decide))) (opened streamA) :=
  (checkpointsSafe_iff rfl).mpr rfl

/-- After one frame the record of the frame would be skipped. -/
theorem not_checkpointsSafe_sent : ¬ CheckpointsSafe .rational
    (Store.init (.small 2 (by decide))) (opened streamA ++ [sent streamA 7 4]) := by
  have haccepted : ((exec (step .rational) (Store.init (.small 2 (by decide)))
      (opened streamA ++ [sent streamA 7 4])).map fun r => (acceptedEntries r.2).length) =
        some 1 := by
    decide +kernel
  obtain ⟨⟨t, os⟩, hrun, hlen⟩ := Option.map_eq_some_iff.mp haccepted
  refine not_checkpointsSafe hrun fun hnil => ?_
  dsimp only at hlen
  rw [hnil] at hlen
  cases hlen

/-! ### The paths of SSTables -/

/-- No flush of the run writes to a path that an SSTable occupies. -/
def FlushesToFreshPaths (P : Platform) (s : Store) (evs : List Event) : Prop :=
  ∀ before i after m os mt, evs = before ++ .flush i :: after →
    exec (step P) s before = some (m, os) → m.jobs[i]? = some mt →
    m.disk.sstables.lookup (mt.path P false) = none

/-- The entries of every flushed memtable are read from its file. -/
def FlushedReadable (P : Platform) (d : Disk) (os : List Output) : Prop :=
  ∀ mt ∈ flushedMemtables os, ∃ data, d.sstables.lookup (mt.path P false) = some data ∧
    sstableEntries data = some (mt.entries.map some)

/-- **A flush keeps earlier data**: every flush of the run writes to a path that no SSTable
occupies, and in every state of the run all entries that were flushed before are readable. -/
def FlushesKeepData (P : Platform) (s : Store) (evs : List Event) : Prop :=
  FlushesToFreshPaths P s evs ∧
    ∀ before after m os, evs = before ++ after → exec (step P) s before = some (m, os) →
      FlushedReadable P m.disk os

/-- Every entry carries the checksum of its block. -/
def Memtable.Checked (mt : Memtable) : Prop := ∀ e ∈ mt.entries, crc32c 0 e.block = e.checksum

/-- The directory holds the SSTables of the flushed memtables and no other finished files. -/
structure Store.Flushed (P : Platform) (cfg : Config) (s : Store) (os : List Output) : Prop where
  hasMemtable : ∃ mt, s.HasMemtable cfg mt ∧ mt.Checked
  jobs : ∀ mt ∈ s.jobs, mt.entries ≠ [] ∧ mt.Checked
  flushed : ∀ mt ∈ flushedMemtables os, (s.disk.sstables.lookup (mt.path P false)).isSome
  paths : ∀ time, (s.disk.sstables.lookup (timeToPath P.dataDir time false)).isSome →
    time ∈ (flushedMemtables os).map Memtable.timestamp

/-- The image of a memtable with valid checksums is read back. -/
theorem Memtable.Checked.sstableEntries {mt : Memtable} (h : mt.Checked) :
    Racs.sstableEntries (sstableImage mt.entries) = some (mt.entries.map some) := by
  have hlt : mt.entries.length < 2 ^ 16 := lt_of_le_of_lt mt.length_le mt.capacity.toNat_lt
  rw [sstableEntries_image mt.entries hlt, map_checked h]

/-- After a flush the file of the memtable holds its image, and other finished files are as they
were. -/
theorem lookup_memtableFlush {d d' : Disk} {mt : Memtable} (hne : mt.entries ≠ [])
    (h : memtableFlush P d mt = some d') (time : Int64) :
    d'.sstables.lookup (timeToPath P.dataDir time false) =
      if time = mt.timestamp then some (sstableImage mt.entries)
      else d.sstables.lookup (timeToPath P.dataDir time false) := by
  obtain rfl := eq_of_memtableFlush hne h
  split_ifs with htime
  · subst htime
    exact AList.lookup_insert _
  · have hpath : timeToPath P.dataDir time false ≠ mt.path P false := fun heq =>
      htime (timeToPath_injective P.dataDir heq)
    have htmp : timeToPath P.dataDir time false ≠ mt.path P true := fun heq =>
      timeToPath_tmp_ne P.dataDir mt.timestamp time heq.symm
    exact (AList.lookup_insert_ne hpath).trans (AList.lookup_erase_ne htmp)

theorem Store.init_flushed (cfg : Config) : (Store.init cfg).Flushed P cfg [] where
  hasMemtable := ⟨_, Store.init_hasMemtable cfg, fun _ h => absurd h List.not_mem_nil⟩
  jobs := fun _ h => absurd h List.not_mem_nil
  flushed := fun _ h => absurd h List.not_mem_nil
  paths := fun time h => by
    rw [Store.init, Store.start, AList.lookup_empty] at h
    cases h

/-- The entry of an accepted frame carries the checksum of its block. -/
theorem Stored.checked {s s' : Store} {data : List UInt8} {frame : Frame} {md : Metadata}
    {timestamp : Int64} {mt mt' : Memtable} (h : Stored P s s' data frame md timestamp mt mt')
    (hmt : mt.Checked) : mt'.Checked := by
  have hentry : crc32c 0 frame.pcmBlock = frame.header.checksum := checksum_of_frameParse h.parse
  intro e he
  rcases h.entries with ⟨-, hentries, -⟩ | ⟨-, hentries, -⟩
  · rw [hentries] at he
    rcases List.mem_append.mp he with he | he
    · exact hmt e he
    · rw [List.mem_singleton.mp he]
      exact hentry
  · rw [hentries] at he
    rw [List.mem_singleton.mp he]
    exact hentry

/-- Every step keeps the directory in this form. -/
theorem Store.Flushed.step {s s' : Store} {os : List Output} {ev : Event} {o : Output}
    (h : s.Flushed P cfg os) (hstep : Racs.step P s ev = some (s', o)) :
    s'.Flushed P cfg (os ++ [o]) := by
  obtain ⟨mt, hmt, hchecked⟩ := h.hasMemtable
  rcases step_cases hmt hstep with ⟨rfl, md, kv, -, rfl⟩ |
    ⟨data, frame, md, timestamp, mt', -, rfl, hstored⟩ | ⟨i, full, disk, -, rfl, hfull, hflush, rfl⟩
  · have hos : flushedMemtables (os ++ [.other]) = flushedMemtables os := by
      rw [flushedMemtables_append]
      exact List.append_nil _
    exact ⟨⟨mt, hmt, hchecked⟩, h.jobs, hos ▸ h.flushed, hos ▸ h.paths⟩
  · have hos : ∀ lsn e, flushedMemtables (os ++ [.accepted lsn e]) = flushedMemtables os := by
      intro lsn e
      rw [flushedMemtables_append]
      exact List.append_nil _
    refine ⟨⟨mt', ⟨hstored.mmt, hstored.capacity.trans hmt.2⟩, hstored.checked hchecked⟩,
      ?_, ?_, ?_⟩
    · rcases hstored.entries with ⟨-, -, hjobs⟩ | ⟨hlen, -, hjobs⟩
      · exact hjobs ▸ h.jobs
      · intro mt'' hmem
        rw [hjobs] at hmem
        rcases List.mem_append.mp hmem with hmem | hmem
        · exact h.jobs mt'' hmem
        · rw [List.mem_singleton.mp hmem]
          refine ⟨fun hnil => ?_, hchecked⟩
          have hpos := cfg.entries_pos
          rw [hnil, hmt.2, List.length_nil] at hlen
          omega
    · rw [hos, hstored.disk]
      exact h.flushed
    · rw [hos, hstored.disk]
      exact h.paths
  · obtain ⟨hne, -⟩ := h.jobs full (List.mem_of_getElem? hfull)
    have hos : flushedMemtables (os ++ [.flushed full]) = flushedMemtables os ++ [full] := by
      rw [flushedMemtables_append]
      rfl
    refine ⟨⟨mt, hmt, hchecked⟩, fun mt' hmem => h.jobs mt' (List.mem_of_mem_eraseIdx hmem), ?_, ?_⟩
    · intro mt' hmem
      rw [hos] at hmem
      dsimp only
      rw [Memtable.path, lookup_memtableFlush hne hflush]
      split_ifs with htime
      · rfl
      · rcases List.mem_append.mp hmem with hmem | hmem
        · exact h.flushed mt' hmem
        · exact absurd (congrArg Memtable.timestamp (List.mem_singleton.mp hmem)) htime
    · intro time hsome
      rw [hos, List.map_append, List.mem_append, List.map_singleton, List.mem_singleton]
      dsimp only at hsome
      rw [lookup_memtableFlush hne hflush] at hsome
      split_ifs at hsome with htime
      · exact .inr htime
      · exact .inl (h.paths time hsome)

theorem Store.Flushed.exec {t : Store} {evs : List Event} {os : List Output}
    (hrun : exec (Racs.step P) (Store.init cfg) evs = some (t, os)) : t.Flushed P cfg os :=
  exec_induction (P := fun os s => s.Flushed P cfg os) (fun _ _ _ _ _ => Store.Flushed.step)
    (Store.init_flushed cfg) hrun

/-- The path of a memtable is free exactly if no flushed memtable has its timestamp. -/
theorem Store.Flushed.lookup_eq_none_iff {s : Store} {os : List Output} (h : s.Flushed P cfg os)
    (mt : Memtable) : s.disk.sstables.lookup (mt.path P false) = none ↔
      mt.timestamp ∉ (flushedMemtables os).map Memtable.timestamp := by
  rw [← Option.not_isSome_iff_eq_none, not_iff_not]
  refine ⟨h.paths mt.timestamp, fun hmem => ?_⟩
  obtain ⟨mt', hmt', htime⟩ := List.mem_map.mp hmem
  rw [Memtable.path, ← htime]
  exact h.flushed mt' hmt'

theorem flushesToFreshPaths_concat {s m : Store} {evs : List Event} {ev : Event}
    {os : List Output} (hrun : exec (step P) s evs = some (m, os)) :
    FlushesToFreshPaths P s (evs ++ [ev]) ↔ FlushesToFreshPaths P s evs ∧
      ∀ i mt, ev = .flush i → m.jobs[i]? = some mt →
        m.disk.sstables.lookup (mt.path P false) = none := by
  constructor
  · intro h
    refine ⟨fun before i after m' os' mt hevs => h before i (after ++ [ev]) m' os' mt ?_, ?_⟩
    · rw [hevs, List.append_assoc, List.cons_append]
    · rintro i mt rfl hjob
      exact h evs i [] m os mt rfl hrun hjob
  · rintro ⟨hevs, hev⟩ before i after m' os' mt heq hbefore hjob
    rcases List.eq_nil_or_concat' after with rfl | ⟨after, ev', rfl⟩
    · obtain ⟨rfl, hlast⟩ := List.append_inj' heq rfl
      obtain rfl := List.singleton_inj.mp hlast
      obtain ⟨rfl, rfl⟩ : m = m' ∧ os = os' := by simpa using hrun.symm.trans hbefore
      exact hev i mt rfl hjob
    · rw [← List.cons_append, ← List.append_assoc] at heq
      obtain ⟨rfl, -⟩ := List.append_inj' heq rfl
      exact hevs before i after m' os' mt rfl hbefore hjob

/-- Flushes go to free paths exactly if the flushed memtables have different timestamps. -/
theorem flushesToFreshPaths_iff {evs : List Event} {t : Store} {os : List Output}
    (hrun : exec (step P) (Store.init cfg) evs = some (t, os)) :
    FlushesToFreshPaths P (Store.init cfg) evs ↔
      ((flushedMemtables os).map Memtable.timestamp).Nodup := by
  induction evs using List.reverseRecOn generalizing t os with
  | nil =>
    obtain ⟨-, rfl⟩ : Store.init cfg = t ∧ [] = os := by simpa using hrun
    refine ⟨fun _ => List.nodup_nil, fun _ before i after m os mt h => ?_⟩
    simp at h
  | append_singleton evs ev ih =>
    obtain ⟨m, os₁, o, hevs, hstep, rfl⟩ := exec_concat_eq_some.mp hrun
    have hflushed := Store.Flushed.exec hevs
    obtain ⟨mt, hmt, -⟩ := hflushed.hasMemtable
    rw [flushesToFreshPaths_concat hevs, ih hevs, flushedMemtables_append, List.map_append]
    cases ev with
    | flush i =>
      rcases hjob : m.jobs[i]? with - | full
      · obtain ⟨-, rfl⟩ : m = t ∧ Output.other = o := by simpa [step, hjob] using hstep
        have hnone : ∀ k mt', Event.flush i = .flush k → m.jobs[k]? = some mt' →
            m.disk.sstables.lookup (mt'.path P false) = none := by
          rintro k mt' hk hjob'
          obtain rfl : i = k := by injection hk
          cases hjob.symm.trans hjob'
        rw [and_iff_left hnone, show flushedMemtables [.other] = [] from rfl, List.map_nil,
          List.append_nil]
      · obtain ⟨disk, -, hstep⟩ : ∃ disk, memtableFlush P m.disk full = some disk ∧
            ({ m with disk := disk, jobs := m.jobs.eraseIdx i }, Output.flushed full) =
              (t, o) := by
          simpa [step, hjob] using hstep
        obtain rfl : Output.flushed full = o := congrArg Prod.snd hstep
        rw [show flushedMemtables [.flushed full] = [full] from rfl, List.map_singleton,
          List.nodup_append_comm, List.singleton_append, List.nodup_cons,
          ← hflushed.lookup_eq_none_iff, and_comm]
        refine and_congr_left fun _ => ⟨fun h => h i full rfl hjob, ?_⟩
        rintro hnone k mt' hk hjob'
        obtain rfl : i = k := by injection hk
        obtain rfl : full = mt' := by simpa using hjob.symm.trans hjob'
        exact hnone
    | create | openStream | closeStream | append =>
      have ho : o.flushed? = none := by
        rcases step_cases hmt hstep with ⟨rfl, -⟩ | ⟨_, _, _, _, _, -, rfl, -⟩ |
          ⟨_, _, _, hev, -⟩
        · rfl
        · rfl
        · cases hev
      simp [flushedMemtables, ho]

/-- What was flushed to different paths is readable. -/
theorem flushedReadable_of_nodup {evs : List Event} {t : Store} {os : List Output}
    (hrun : exec (step P) (Store.init cfg) evs = some (t, os))
    (hnodup : ((flushedMemtables os).map Memtable.timestamp).Nodup) :
    FlushedReadable P t.disk os := by
  induction evs using List.reverseRecOn generalizing t os with
  | nil =>
    obtain ⟨-, rfl⟩ : Store.init cfg = t ∧ [] = os := by simpa using hrun
    exact fun mt hmt => absurd hmt List.not_mem_nil
  | append_singleton evs ev ih =>
    obtain ⟨m, os₁, o, hevs, hstep, rfl⟩ := exec_concat_eq_some.mp hrun
    have hflushed := Store.Flushed.exec hevs
    obtain ⟨mt, hmt, -⟩ := hflushed.hasMemtable
    rw [flushedMemtables_append, List.map_append] at hnodup
    have hread := ih hevs hnodup.of_append_left
    intro mt' hmt'
    rw [flushedMemtables_append] at hmt'
    rcases step_cases hmt hstep with ⟨rfl, md, kv, -, rfl⟩ |
      ⟨data, frame, md, timestamp, mt'', -, rfl, hstored⟩ |
      ⟨i, full, disk, -, rfl, hfull, hflush, rfl⟩
    · exact hread mt' (by simpa [flushedMemtables, Output.flushed?] using hmt')
    · rw [hstored.disk]
      exact hread mt' (by simpa [flushedMemtables, Output.flushed?] using hmt')
    · obtain ⟨hne, hchecked⟩ := hflushed.jobs full (List.mem_of_getElem? hfull)
      dsimp only
      rw [Memtable.path, lookup_memtableFlush hne hflush]
      rcases List.mem_append.mp hmt' with hmem | hmem
      · have htime : mt'.timestamp ≠ full.timestamp :=
          (List.nodup_append.mp hnodup).2.2 _ (List.mem_map_of_mem hmem) _
            (List.mem_singleton_self _)
        rw [if_neg htime]
        exact hread mt' hmem
      · obtain rfl : mt' = full := List.mem_singleton.mp hmem
        exact ⟨_, if_pos rfl, hchecked.sstableEntries⟩

/-- **When flushes keep earlier data.** Every flush of a run goes to a path that no SSTable
occupies, and everything flushed stays readable, exactly if no two flushed memtables start in the
same millisecond. -/
theorem flushesKeepData_iff {evs : List Event} {t : Store} {os : List Output}
    (hrun : exec (step P) (Store.init cfg) evs = some (t, os)) :
    FlushesKeepData P (Store.init cfg) evs ↔
      ((flushedMemtables os).map Memtable.timestamp).Nodup := by
  rw [FlushesKeepData, flushesToFreshPaths_iff hrun]
  refine and_iff_left_of_imp fun hnodup before after m os₁ hevs hbefore => ?_
  subst hevs
  obtain ⟨m', os₁', os₂, hbefore', -, rfl⟩ := exec_append_eq_some.mp hrun
  obtain ⟨rfl, rfl⟩ : m' = m ∧ os₁' = os₁ := by simpa using hbefore'.symm.trans hbefore
  rw [flushedMemtables_append, List.map_append] at hnodup
  exact flushedReadable_of_nodup hbefore hnodup.of_append_left

/-- Two streams that were created at the same time, with memtables of one entry: the blocks of the
first memtables of both have the same timestamp. -/
def twoStreams : List Event :=
  opened streamA ++ opened streamB ++
    [sent streamA 1 4, sent streamB 2 4, .flush 0, sent streamA 3 4, .flush 0]

/-- With one memtable flushed the data are kept. -/
theorem flushesKeepData_twoStreams : FlushesKeepData .rational
    (Store.init (.small 1 (by decide))) (twoStreams.take 7) := by
  have htimes : ((exec (step .rational) (Store.init (.small 1 (by decide)))
      (twoStreams.take 7)).map fun r => (flushedMemtables r.2).map Memtable.timestamp) =
        some [1000] := by
    decide +kernel
  obtain ⟨⟨t, os⟩, hrun, hos⟩ := Option.map_eq_some_iff.mp htimes
  exact (flushesKeepData_iff hrun).mpr (hos ▸ by decide)

/-- The flush of the memtable of the second stream replaces the SSTable of the first. -/
theorem not_flushesKeepData_twoStreams : ¬ FlushesKeepData .rational
    (Store.init (.small 1 (by decide))) twoStreams := by
  have htimes : ((exec (step .rational) (Store.init (.small 1 (by decide)))
      twoStreams).map fun r => (flushedMemtables r.2).map Memtable.timestamp) =
        some [1000, 1000] := by
    decide +kernel
  obtain ⟨⟨t, os⟩, hrun, hos⟩ := Option.map_eq_some_iff.mp htimes
  intro hkeep
  have hnodup := (flushesToFreshPaths_iff hrun).mp hkeep.1
  dsimp only at hos
  rw [hos] at hnodup
  exact absurd hnodup (by decide)

end Racs
