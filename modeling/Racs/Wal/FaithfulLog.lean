import Racs.Wal.Files

/-!
# The log of one process

A process that starts on an empty directory and appends records shorter than 64 MB, at most `2 ^ 64`
of them, leaves a log from which exactly these records are read back, in order and with the sequence
numbers 0, 1, 2, …, however often it rotates.

## Main definitions

* `Racs.appendedRecords` — the records of a run, with consecutive sequence numbers.
* `Racs.WalFiles.run` — the directory after a first start and appends.

## Main results

* `Racs.LogOf.append` — one append keeps the records, the numbering and the sizes.
* `Racs.reads_run` — the records are read back from the files.
-/

namespace Racs

/-- The records of the operations, with the sequence numbers from zero on. -/
def appendedRecords (os : List WalOp) : List WalEntry :=
  os.mapIdx fun i o => o.entry (UInt64.ofNat i)

theorem appendedRecords_concat (os : List WalOp) (o : WalOp) :
    appendedRecords (os ++ [o]) = appendedRecords os ++ [o.entry (UInt64.ofNat os.length)] := by
  rw [appendedRecords, List.mapIdx_concat]
  rfl

/-- The log of a process that has appended the operations since its start on an empty directory.
A segment is only left when the next record makes it full, so there are at most as many segments
as records. -/
structure LogOf (os : List WalOp) (d : WalDir) (w : Wal) (init : List RecordGroup)
    (last : RecordGroup) : Prop where
  layout : WalLayout d w init last
  manifest : d.manifest = none
  records : (init ++ [last]).flatMap RecordGroup.records = appendedRecords os
  lsn : w.lsn = UInt64.ofNat os.length
  size : w.size = last.segment.data.length
  size_nil : os = [] → w.size = 0
  short : ∀ g ∈ init ++ [last], g.segment.data.length < walSize64MB
  segno_le : last.segno ≤ os.length - 1

theorem logOf_nil :
    LogOf [] (walCreate WalDir.empty).1 (walCreate WalDir.empty).2 [] ⟨0, []⟩ where
  layout := (walLayout_create_empty none).1
  manifest := rfl
  records := rfl
  lsn := rfl
  size := rfl
  size_nil _ := rfl
  short g hg := by
    rw [List.mem_singleton.mp hg]
    decide
  segno_le := le_rfl

/-- **One append** of a record shorter than a segment. -/
theorem LogOf.append {os : List WalOp} {d : WalDir} {w : Wal} {init : List RecordGroup}
    {last : RecordGroup} (h : LogOf os d w init last) {o : WalOp}
    (ho : 24 + o.op.length < walSize64MB) :
    ∃ init' last', LogOf (os ++ [o]) (walAppend d w o).1 (walAppend d w o).2 init' last' := by
  have hlen : (o.entry w.lsn).bytes.length = 24 + o.op.length := (o.entry w.lsn).length_bytes
  have hlsn : w.lsn + 1 = UInt64.ofNat (os ++ [o]).length := by
    rw [h.lsn, List.length_append, UInt64.ofNat_add]
    rfl
  have hrecords := h.records
  have hmanifest : (walAppend d w o).1.manifest = none := by rw [walAppend_manifest, h.manifest]
  rcases h.layout.append_cases o with ⟨hshort, hw, hlayout⟩ | ⟨hfull, hw, hlayout⟩
  · have hdata : (last.push (o.entry w.lsn)).segment.data.length =
        last.segment.data.length + (24 + o.op.length) := by
      rw [RecordGroup.segment_push, List.length_append, hlen]
    refine ⟨init, last.push (o.entry w.lsn), hlayout, hmanifest, ?_, ?_, ?_, ?_, ?_, ?_⟩
    · rw [appendedRecords_concat, ← hrecords, h.lsn]
      simp [RecordGroup.push]
    · rw [hw, hlsn]
    · rw [hw, hdata, h.size]
    · simp
    · intro g hg
      rcases List.mem_append.mp hg with hg | hg
      · exact h.short g (List.mem_append_left _ hg)
      · rw [List.mem_singleton.mp hg, hdata, ← h.size]
        exact hshort
    · have := h.segno_le
      rw [RecordGroup.push_segno, List.length_append]
      omega
  · have hdata : (RecordGroup.mk (last.segno + 1) [o.entry w.lsn]).segment.data.length =
        24 + o.op.length := by
      simp [RecordGroup.segment, hlen]
    -- the first record of all fits, so a rotation has a record in front of it
    have hpos : os ≠ [] := by
      intro hnil
      have := h.size_nil hnil
      omega
    have hlength := List.length_pos_iff.mpr hpos
    refine ⟨init ++ [last], _, hlayout, hmanifest, ?_, ?_, ?_, ?_, ?_, ?_⟩
    · rw [appendedRecords_concat, ← hrecords, h.lsn]
      simp
    · rw [hw, hlsn]
    · rw [hw, hdata]
    · simp
    · intro g hg
      rcases List.mem_append.mp hg with hg | hg
      · exact h.short g hg
      · rw [List.mem_singleton.mp hg, hdata]
        exact ho
    · have := h.segno_le
      simp only [List.length_append, List.length_singleton]
      omega

namespace WalFiles

/-- The directory and the process after a first start and appends. -/
def run (os : List WalOp) : WalFiles × WalHandle :=
  os.foldl (fun s o => walAppend s.1 s.2 o) (walCreate ∅)

theorem run_concat (os : List WalOp) (o : WalOp) :
    run (os ++ [o]) = walAppend (run os).1 (run os).2 o := by
  rw [run, List.foldl_append]
  rfl

end WalFiles

/-- **Every run** of at most as many appends as there are sequence numbers. -/
theorem runs_logOf (os : List WalOp) (hsize : ∀ o ∈ os, 24 + o.op.length < walSize64MB)
    (hlen : os.length ≤ 2 ^ 64) :
    ∃ d w init last, WalFiles.Runs (WalFiles.run os) (d, w) ∧ LogOf os d w init last := by
  induction os using List.reverseRecOn with
  | nil =>
    exact ⟨_, _, _, _, WalFiles.shows_empty.walCreate (by decide), logOf_nil⟩
  | append_singleton os o ih =>
    rw [List.length_append, List.length_singleton] at hlen
    obtain ⟨d, w, init, last, hruns, hlog⟩ :=
      ih (fun o' ho' => hsize o' (List.mem_append_left _ ho')) (by omega)
    obtain ⟨init', last', hlog'⟩ := hlog.append (hsize o (by simp))
    have hsegno : walSegno d + 1 < 2 ^ 64 := by
      have := hlog.segno_le
      rw [hlog.layout.walSegno_eq]
      omega
    refine ⟨_, _, init', last', ?_, hlog'⟩
    rw [WalFiles.run_concat]
    exact hruns.walAppend hsegno o

/-- **The log of one process is faithful across rotations.** From the files that a process leaves
which starts on an empty directory and appends records shorter than 64 MB, the scan of the segments
in the order of `get_sorted_filelist` reads exactly the records of the appended operations, with
matching checksums and the sequence numbers 0, 1, 2, …, whatever the order of `readdir`; and no file
reaches 64 MB. There are at most `2 ^ 64` records (`os.length ≤ 2 ^ 64`), as many as the field of 64
bits has sequence numbers: the next record would have the number 0 again. -/
theorem reads_run (os : List WalOp) (hsize : ∀ o ∈ os, 24 + o.op.length < walSize64MB)
    (hlen : os.length ≤ 2 ^ 64) (dir : List Char) {names : List (List Char)}
    (hnames : names.Perm (WalFiles.run os).1.keys) :
    (∃ es : List WalEntry,
      ((WalFiles.run os).1.reads (getSortedFilelist (WalFiles.paths dir names))).map
        (List.map Prod.fst) = some (es.map some) ∧
      es.map (fun e => (e.opCode, e.op)) = os.map (fun o => (o.opCode, o.op)) ∧
      (∀ e ∈ es, e.checksum = crc32c 0 e.op) ∧
      es.map (fun e => e.lsn.toNat) = List.range os.length) ∧
    ∀ name data, (WalFiles.run os).1.lookup name = some data → data.length < walSize64MB := by
  obtain ⟨d, w, init, last, hruns, hlog⟩ := runs_logOf os hsize hlen
  refine ⟨⟨appendedRecords os, ?_, ?_, ?_, ?_⟩, ?_⟩
  · have hfst : ((init ++ [last]).flatMap fun g => readsOf 0 g.records).map Prod.fst =
        (appendedRecords os).map some := by
      rw [List.map_flatMap, ← hlog.records, List.map_flatMap]
      simp only [map_fst_readsOf]
    rw [hruns.shows.reads_eq dir hnames, hlog.layout.walReads_eq, Option.map_some, hfst]
  · refine List.ext_getElem (by simp [appendedRecords]) fun i _ _ => ?_
    simp only [appendedRecords, List.getElem_map, List.getElem_mapIdx]
    rfl
  · intro e he
    obtain ⟨i, hi, rfl⟩ := List.mem_mapIdx.mp he
    rfl
  · refine List.ext_getElem (by simp [appendedRecords]) fun i _ hi => ?_
    rw [List.length_range] at hi
    simp only [appendedRecords, List.getElem_map, List.getElem_mapIdx, List.getElem_range]
    exact UInt64.toNat_ofNat_of_lt' (hi.trans_le hlen)
  · intro name data hdata
    have hmem : name ∈ (WalFiles.run os).1 := AList.lookup_isSome.mp (by rw [hdata]; rfl)
    rcases hruns.shows.names name hmem with rfl | ⟨segno, rfl⟩
    · rw [hruns.shows.lookup_manifest, hlog.manifest] at hdata
      cases hdata
    · rw [hruns.shows.lookup_segment, WalDir.lookup] at hdata
      obtain ⟨s, hs, rfl⟩ := Option.map_eq_some_iff.mp hdata
      have hs' := List.mem_of_find?_eq_some hs
      rw [hlog.layout.segments_eq] at hs'
      obtain ⟨g, hg, rfl⟩ := List.mem_map.mp hs'
      exact hlog.short g hg

/-- Two records of a run, read back. -/
theorem reads_run_pair :
    (∃ es : List WalEntry,
      ((WalFiles.run [⟨0, [1, 2], by decide⟩, ⟨0, [], by decide⟩]).1.reads
        (getSortedFilelist (WalFiles.paths "w".toList
          (WalFiles.run [⟨0, [1, 2], by decide⟩, ⟨0, [], by decide⟩]).1.keys))).map
        (List.map Prod.fst) = some (es.map some) ∧
      es.map (fun e => (e.opCode, e.op)) = [(0, [1, 2]), (0, [])] ∧
      (∀ e ∈ es, e.checksum = crc32c 0 e.op) ∧ es.map (fun e => e.lsn.toNat) = [0, 1]) ∧
    ∀ name data, (WalFiles.run [⟨0, [1, 2], by decide⟩, ⟨0, [], by decide⟩]).1.lookup name =
      some data → data.length < walSize64MB :=
  reads_run [⟨0, [1, 2], by decide⟩, ⟨0, [], by decide⟩] (by decide) (by decide) "w".toList
    (List.Perm.refl _)

end Racs
