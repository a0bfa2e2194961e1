import Racs.BackgroundFlush
import Racs.Range

/-!
# Where an accepted block can be read

The flush of a full memtable is a thread of its own, which makes its system calls between the
requests that the server answers and between the calls of other flushes. Here every call is a step.

A memtable leaves the list when the next append finds it full, and its SSTable is in place after the
renaming. In between, no range finds its blocks. This happens in every run that accepts more blocks
than a memtable has room for, whenever the calls of the flush are made.

## Main definitions

* `Racs.FlushJob`, `Racs.FlushingStore`, `Racs.flushingStep` — the server with flushes in progress.
* `Racs.Readable` — an entry is found by a range, in a memtable or in an SSTable but not in both.
* `Racs.StaysReadable` — so are all accepted entries in every state of a run.

## Main results

* `Racs.exec_advance` — a flush without anything in between is `memtableFlush`.
* `Racs.staysReadable_iff` — when accepted blocks stay readable.
-/

namespace Racs

open PartialRun

/-! ### Flushes in progress -/

/-- A detached `racs_memtable_flush`: its memtable, and the system calls that it has still to
make. -/
structure FlushJob where
  memtable : Memtable
  steps : List DiskStep

/-- The server with the flushes that have begun. -/
structure FlushingStore where
  store : Store
  flushes : List FlushJob

/-- A request, or the next system call of a flush. -/
inductive FlushingEvent
  | request (ev : Event)
  | advance (i : ℕ)

/-- The memtables that were handed to `racs_memtable_flush_async` begin to be flushed. -/
def beginFlushes (P : Platform) (store : Store) (flushes : List FlushJob) : FlushingStore where
  store := { store with jobs := [] }
  flushes := flushes ++ store.jobs.map fun mt => ⟨mt, memtableFlushSteps P .ok mt⟩

/-- One step. A flush without further calls ends, or is undefined if the size of its SSTable
overflows. -/
def flushingStep (P : Platform) (s : FlushingStore) :
    FlushingEvent → Option (FlushingStore × Output)
  | .request ev => (step P s.store ev).map fun (store, o) => (beginFlushes P store s.flushes, o)
  | .advance i =>
    match s.flushes[i]? with
    | none => some (s, .other)
    | some ⟨mt, st :: steps⟩ =>
      some (⟨{ s.store with disk := st.apply s.store.disk }, s.flushes.set i ⟨mt, steps⟩⟩, .other)
    | some ⟨mt, []⟩ =>
      if mt.entries = [] ∨ mt.Fits then
        some ({ s with flushes := s.flushes.eraseIdx i }, .flushed mt)
      else none

/-- The first start. -/
def FlushingStore.init (cfg : Config) : FlushingStore := ⟨Store.init cfg, []⟩

/-- The calls of a flush that nothing interrupts. -/
theorem exec_advance_steps {P : Platform} {s : FlushingStore} {i : ℕ} {mt : Memtable}
    {steps : List DiskStep} (h : s.flushes[i]? = some ⟨mt, steps⟩) :
    (exec (flushingStep P) s (List.replicate (steps.length + 1) (.advance i))).map Prod.fst =
      if mt.entries = [] ∨ mt.Fits then
        some ⟨{ s.store with disk := steps.foldl DiskStep.apply s.store.disk },
          s.flushes.eraseIdx i⟩
      else none := by
  induction steps generalizing s with
  | nil =>
    rw [List.length_nil, List.replicate_one, exec_cons, flushingStep, h]
    dsimp only
    split_ifs <;> rfl
  | cons st steps ih =>
    have hnext : (s.flushes.set i ⟨mt, steps⟩)[i]? = some ⟨mt, steps⟩ := by
      rw [List.getElem?_set_self', h]
      rfl
    have hrest := ih (s := ⟨{ s.store with disk := st.apply s.store.disk },
      s.flushes.set i ⟨mt, steps⟩⟩) hnext
    rw [List.eraseIdx_set_eq] at hrest
    rw [List.length_cons, List.replicate_succ, exec_cons, flushingStep, h]
    rw [List.foldl_cons, ← hrest, Option.bind_some, Option.map_map]
    rfl

/-- **A flush without anything in between** is `memtableFlush`. -/
theorem exec_advance {P : Platform} {s : FlushingStore} {i : ℕ} {mt : Memtable}
    (h : s.flushes[i]? = some ⟨mt, memtableFlushSteps P .ok mt⟩) :
    (exec (flushingStep P) s
        (List.replicate ((memtableFlushSteps P .ok mt).length + 1) (.advance i))).map Prod.fst =
      (memtableFlush P s.store.disk mt).map fun disk =>
        ⟨{ s.store with disk := disk }, s.flushes.eraseIdx i⟩ := by
  rw [exec_advance_steps h, memtableFlush]
  split_ifs <;> rfl

/-! ### What a range can find -/

/-- The entry is selected from the list of memtables by the range over its own time. -/
def InMemtable (s : Store) (e : MemtableEntry) : Prop :=
  e ∈ rangeMemtables s.mmt e.key.1 ⟨e.key.2.toInt64, e.key.2.toInt64⟩

/-- The entry is selected from an SSTable at its final path by the range over its own time. -/
def InSstable (P : Platform) (d : Disk) (e : MemtableEntry) : Prop :=
  ∃ time data es, d.sstables.lookup (timeToPath P.dataDir time false) = some data ∧
    rangeProcessSstable data e.key.1 ⟨e.key.2.toInt64, e.key.2.toInt64⟩ = some es ∧ e ∈ es

/-- The entry is found in a memtable or in an SSTable, and not in both. -/
def Readable (P : Platform) (s : Store) (e : MemtableEntry) : Prop :=
  Xor (InMemtable s e) (InSstable P s.disk e)

/-- In every state of the run, every entry that was accepted is readable. -/
def StaysReadable (P : Platform) (s : FlushingStore) (evs : List FlushingEvent) : Prop :=
  ∀ before after m os, evs = before ++ after → exec (flushingStep P) s before = some (m, os) →
    ∀ e ∈ acceptedEntries os, Readable P m.store e

variable {P : Platform} {cfg : Config}

theorem inRange_self (e : MemtableEntry) :
    inRange e.key.1 ⟨e.key.2.toInt64, e.key.2.toInt64⟩ e = true := by
  rw [inRange, decide_eq_true_eq]
  exact ⟨rfl, Int64.le_refl _, Int64.le_refl _⟩

theorem inMemtable_iff {s : Store} {e : MemtableEntry} :
    InMemtable s e ↔ ∃ mt ∈ s.mmt, e ∈ mt.entries := by
  rw [InMemtable, rangeMemtables, List.mem_flatMap]
  refine exists_congr fun mt => and_congr_right fun _ => ?_
  rw [List.mem_filter, and_iff_left (inRange_self e)]

theorem not_inSstable_of_empty {d : Disk} (h : d.sstables = ∅) (e : MemtableEntry) :
    ¬ InSstable P d e := by
  rintro ⟨time, data, es, hlookup, -, -⟩
  rw [h, AList.lookup_empty] at hlookup
  cases hlookup

/-! ### Until the first memtable is full -/

/-- The accepted entries are those of the memtable, the first of them with the number 1, and no
memtable was handed to a flush. -/
structure FlushingStore.Unflushed (cfg : Config) (s : FlushingStore)
    (es : List MemtableEntry) : Prop where
  hasMemtable : ∃ mt, s.store.HasMemtable cfg mt ∧ mt.entries = es
  jobs : s.store.jobs = []
  flushes : s.flushes = []
  sstables : s.store.disk.sstables = ∅
  lsn : s.store.wal.lsn = UInt64.ofNat es.length
  first : ∀ e ∈ es.head?, e.lsn = 1

theorem FlushingStore.init_unflushed (cfg : Config) :
    (FlushingStore.init cfg).Unflushed cfg [] where
  hasMemtable := ⟨_, Store.init_hasMemtable cfg, rfl⟩
  jobs := rfl
  flushes := rfl
  sstables := rfl
  lsn := (Store.init_fresh cfg).lsn
  first := fun _ he => nomatch he

variable {s s' : FlushingStore} {es : List MemtableEntry} {ev : FlushingEvent} {o : Output}

/-- What was accepted is in the memtable, and in no SSTable. -/
theorem FlushingStore.Unflushed.readable (h : s.Unflushed cfg es) {e : MemtableEntry}
    (he : e ∈ es) : Readable P s.store e := by
  obtain ⟨mt, hmt, rfl⟩ := h.hasMemtable
  refine .inl ⟨?_, not_inSstable_of_empty h.sstables e⟩
  rw [inMemtable_iff, hmt.1]
  exact ⟨mt, List.mem_singleton_self mt, he⟩

/-- Without SSTables, an entry that is not the only one of the memtable can not be read. -/
theorem not_readable_of_mmt {t : Store} {mt : Memtable} {e₀ e : MemtableEntry}
    (hmmt : t.mmt = [mt]) (hentries : mt.entries = [e]) (hne : e₀ ≠ e)
    (hsstables : t.disk.sstables = ∅) : ¬ Readable P t e₀ := by
  rintro (⟨hmem, -⟩ | ⟨hmem, -⟩)
  · rw [inMemtable_iff, hmmt] at hmem
    obtain ⟨mt', hmt', he₀⟩ := hmem
    rw [List.mem_singleton.mp hmt', hentries] at he₀
    exact hne (List.mem_singleton.mp he₀)
  · exact not_inSstable_of_empty hsstables e₀ hmem

/-- There are not more than fit into one memtable. -/
theorem FlushingStore.Unflushed.length_le (h : s.Unflushed cfg es) :
    es.length ≤ cfg.entries.toNat := by
  obtain ⟨mt, hmt, rfl⟩ := h.hasMemtable
  exact hmt.2 ▸ mt.length_le

/-- **A step** accepts nothing; or it accepts an entry for which there is room; or it accepts one
that is then alone in the memtable, and the entries before it can not be read. -/
theorem FlushingStore.Unflushed.step (h : s.Unflushed cfg es)
    (hstep : flushingStep P s ev = some (s', o)) :
    s'.Unflushed cfg (es ++ o.entry?.toList) ∨
      es.length = cfg.entries.toNat ∧ o.entry?.isSome ∧ ∃ e ∈ es, ¬ Readable P s'.store e := by
  obtain ⟨mt, hmt, rfl⟩ := h.hasMemtable
  cases ev with
  | advance i =>
    rw [flushingStep, h.flushes, List.getElem?_nil] at hstep
    obtain ⟨rfl, rfl⟩ := Prod.mk.inj (Option.some.inj hstep)
    exact .inl ((List.append_nil mt.entries).symm ▸ h)
  | request ev =>
    obtain ⟨⟨t, o'⟩, hrequest, heq⟩ := Option.map_eq_some_iff.mp hstep
    obtain ⟨rfl, rfl⟩ := Prod.mk.inj heq
    have hbegin : t.jobs = [] → (beginFlushes P t s.flushes).flushes = [] := by
      intro hjobs
      rw [beginFlushes, hjobs, h.flushes]
      rfl
    rcases step_cases hmt hrequest with ⟨rfl, md, kv, -, rfl⟩ |
      ⟨data, frame, md, timestamp, mt', rfl, rfl, hstored⟩ | ⟨i, full, disk, -, -, hfull, -, -⟩
    · refine .inl ((List.append_nil mt.entries).symm ▸ ?_)
      exact ⟨⟨mt, hmt, rfl⟩, rfl, hbegin h.jobs, h.sstables, h.lsn, h.first⟩
    · have hsstables : t.disk.sstables = ∅ := by rw [hstored.disk, h.sstables]
      have hlsn : s.store.wal.lsn + 1 = UInt64.ofNat (mt.entries.length + 1) := by
        rw [h.lsn, UInt64.ofNat_add]
        rfl
      have hmt' : t.HasMemtable cfg mt' := ⟨hstored.mmt, hstored.capacity.trans hmt.2⟩
      rcases hstored.entries with ⟨-, hentries, hjobs⟩ | ⟨hlen, hentries, -⟩
      · refine .inl ⟨⟨mt', hmt', hentries⟩, rfl, hbegin (hjobs.trans h.jobs), hsstables, ?_, ?_⟩
        · rw [List.length_append]
          exact (hstored.wal ▸ walAppend_lsn ..).trans hlsn
        · intro e he
          rcases hold : mt.entries with - | ⟨e₀, rest⟩
          · rw [hold] at he hlsn
            obtain rfl := Option.some.inj he
            exact hlsn
          · rw [hold] at he
            obtain rfl := Option.some.inj he
            exact h.first e₀ (by rw [hold]; rfl)
      · -- the first entry has the number 1, and the new one follows those of a full memtable
        have hpos := cfg.entries_pos
        have hlt := cfg.entries.toNat_lt
        rw [hmt.2] at hlen
        obtain ⟨e₀, rest, hold⟩ := List.exists_cons_of_length_pos (hlen ▸ hpos)
        refine .inr ⟨hlen, rfl, e₀, hold ▸ List.mem_cons_self, ?_⟩
        refine not_readable_of_mmt hstored.mmt hentries ?_ hsstables
        have hsize : mt.entries.length + 1 < UInt64.size := by
          rw [hlen]
          exact lt_of_le_of_lt (Nat.succ_le_of_lt hlt) (by decide)
        rintro rfl
        have hone := congrArg UInt64.toNat (h.first _ (by rw [hold]; rfl))
        rw [Frame.entry, hlsn, UInt64.toNat_ofNat_of_lt' hsize, UInt64.toNat_one] at hone
        omega
    · rw [h.jobs, List.getElem?_nil] at hfull
      cases hfull

/-- **A run** leaves all accepted entries in the first memtable, or it accepts more than that has
room for and some entry was not readable in between. -/
theorem unflushed_or_not_staysReadable {evs : List FlushingEvent} {t : FlushingStore}
    {os : List Output} (hrun : exec (flushingStep P) (.init cfg) evs = some (t, os)) :
    t.Unflushed cfg (acceptedEntries os) ∨
      cfg.entries.toNat < (acceptedEntries os).length ∧
        ¬ StaysReadable P (.init cfg) evs := by
  induction evs using List.reverseRecOn generalizing t os with
  | nil =>
    obtain ⟨rfl, rfl⟩ : FlushingStore.init cfg = t ∧ [] = os := by simpa using hrun
    exact .inl (FlushingStore.init_unflushed cfg)
  | append_singleton evs ev ih =>
    obtain ⟨m, os, o, hbefore, hstep, rfl⟩ := exec_concat_eq_some.mp hrun
    rw [acceptedEntries_concat]
    rcases ih hbefore with hunflushed | ⟨hlen, hnot⟩
    · rcases hunflushed.step hstep with hunflushed | ⟨hlen, hsome, e, he, hnot⟩
      · exact .inl hunflushed
      · obtain ⟨e', he'⟩ := Option.isSome_iff_exists.mp hsome
        refine .inr ⟨by simp [he', hlen], fun hstays => hnot ?_⟩
        refine hstays (evs ++ [ev]) [] t (os ++ [o]) (List.append_nil _).symm hrun e ?_
        exact acceptedEntries_concat os o ▸ List.mem_append_left _ he
    · refine .inr ⟨lt_of_lt_of_le hlen (by simp), fun hstays => hnot ?_⟩
      intro before after m' os' hevs
      exact hstays before (after ++ [ev]) m' os' (by rw [hevs, List.append_assoc])

/-- **When accepted blocks stay readable.** In every state of a run, with any interleaving of
requests and of the system calls of flushes, each accepted block is in a memtable or in an SSTable
and not in both, exactly if the run accepts no more blocks than one memtable has room for. -/
theorem staysReadable_iff {evs : List FlushingEvent} {t : FlushingStore} {os : List Output}
    (hrun : exec (flushingStep P) (.init cfg) evs = some (t, os)) :
    StaysReadable P (.init cfg) evs ↔ (acceptedEntries os).length ≤ cfg.entries.toNat := by
  constructor
  · intro hstays
    rcases unflushed_or_not_staysReadable hrun with hunflushed | ⟨-, hnot⟩
    · exact hunflushed.length_le
    · exact absurd hstays hnot
  · rintro hlen before after m os₁ rfl hbefore e he
    obtain ⟨m', os₁', os₂, hbefore', -, rfl⟩ := exec_append_eq_some.mp hrun
    obtain ⟨rfl, rfl⟩ : m' = m ∧ os₁' = os₁ := by simpa using hbefore'.symm.trans hbefore
    rw [acceptedEntries_append, List.length_append] at hlen
    rcases unflushed_or_not_staysReadable hbefore with hunflushed | ⟨hmore, -⟩
    · exact hunflushed.readable he
    · omega

/-! ### Two blocks -/

/-- A stream is created and opened, and two blocks are sent. -/
def twoBlocks : List FlushingEvent :=
  (opened streamA ++ [sent streamA 1 4, sent streamA 2 4]).map .request

/-- With memtables for two blocks, both stay in the first one. -/
theorem staysReadable_twoBlocks :
    StaysReadable .rational (.init (.small 2 (by decide))) twoBlocks := by
  have hlen : ((exec (flushingStep .rational) (.init (.small 2 (by decide))) twoBlocks).map
      fun r => (acceptedEntries r.2).length) = some 2 := by
    decide +kernel
  obtain ⟨⟨t, os⟩, hrun, hos⟩ := Option.map_eq_some_iff.mp hlen
  exact (staysReadable_iff hrun).mpr (hos ▸ by decide)

/-- With memtables for one block, the first is in none when the second was accepted. -/
theorem not_staysReadable_twoBlocks :
    ¬ StaysReadable .rational (.init (.small 1 (by decide))) twoBlocks := by
  have hlen : ((exec (flushingStep .rational) (.init (.small 1 (by decide))) twoBlocks).map
      fun r => (acceptedEntries r.2).length) = some 2 := by
    decide +kernel
  obtain ⟨⟨t, os⟩, hrun, hos⟩ := Option.map_eq_some_iff.mp hlen
  rcases unflushed_or_not_staysReadable hrun with hunflushed | ⟨-, hnot⟩
  · have hone := hunflushed.length_le
    dsimp only at hos
    rw [hos] at hone
    exact absurd hone (by decide)
  · exact hnot

end Racs
