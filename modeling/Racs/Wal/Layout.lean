import Racs.Wal.Log
import Mathlib.Data.List.Nodup
import Mathlib.Data.List.Pairwise
import Mathlib.Data.List.Perm.Basic
import Mathlib.Data.List.TakeWhile

/-!
# Segments as lists of records

As long as every write is complete, a segment is the concatenation of the records written to it.
`RecordGroup` is a segment read that way and `WalLayout d w init last` says that the directory `d`
holds the groups `init` and, behind them, the group `last` that the process `w` appends to. The
operations of the log act on groups: an append adds a record to the last group, after a new group
was started if the segment is full; a restart keeps all records and reads its counter off the last
one.

## Main definitions

* `Racs.RecordGroup`, `Racs.WalLayout`.
* `Racs.walRecords` — the records of the segments, read one segment after the other.

## Main results

* `Racs.WalLayout.walReads_eq` — what is read is what the groups hold.
* `Racs.WalLayout.append`, `Racs.WalLayout.rotate`, `Racs.WalLayout.create`,
  `Racs.WalLayout.truncate` — the operations on groups.
-/

namespace Racs

open ByteBuffer

/-! ### Reading a directory back -/

/-- What the calls of `racs_wal_entry_read` return on the segments, each scanned from its
beginning. -/
def walReads : List Segment → Option (List WalRead)
  | [] => some []
  | s :: ss => (walScan (fun _ => true) s.data 0).bind fun reads => (walReads ss).map (reads ++ ·)

/-- The records of the segments. -/
def walRecords (ss : List Segment) : Option (List WalEntry) :=
  (walReads ss).map fun reads => reads.filterMap Prod.fst

/-! ### The content of a segment -/

namespace WalDir

/-- The content of a segment, if the directory holds it. -/
def lookup (d : WalDir) (segno : ℕ) : Option (List UInt8) :=
  (d.segments.find? (·.segno = segno)).map Segment.data

theorem lookup_eq_none_iff {d : WalDir} {segno : ℕ} :
    d.lookup segno = none ↔ ∀ s ∈ d.segments, s.segno ≠ segno := by
  simp [lookup, List.find?_eq_none]

/-- If the numbers are distinct, each segment is found. -/
theorem find?_segno {ss : List Segment} (h : (ss.map Segment.segno).Nodup) {s : Segment}
    (hs : s ∈ ss) : ss.find? (·.segno = s.segno) = some s := by
  have hsome : (ss.find? (·.segno = s.segno)).isSome :=
    List.find?_isSome.mpr ⟨s, hs, decide_eq_true rfl⟩
  obtain ⟨t, ht⟩ := Option.isSome_iff_exists.mp hsome
  have hsegno : t.segno = s.segno := by simpa using List.find?_some ht
  rw [ht, List.inj_on_of_nodup_map h (List.mem_of_find?_eq_some ht) hs hsegno]

theorem lookup_eq_some_iff {d : WalDir} (h : (d.segments.map Segment.segno).Nodup) {segno : ℕ}
    {data : List UInt8} : d.lookup segno = some data ↔ ⟨segno, data⟩ ∈ d.segments := by
  rw [lookup, Option.map_eq_some_iff]
  constructor
  · rintro ⟨s, hs, rfl⟩
    have hsegno := List.find?_some hs
    rw [decide_eq_true_eq] at hsegno
    rw [← hsegno]
    exact List.mem_of_find?_eq_some hs
  · intro hmem
    exact ⟨_, find?_segno h hmem, rfl⟩

theorem read_of_mem {d : WalDir} (h : (d.segments.map Segment.segno).Nodup) {s : Segment}
    (hs : s ∈ d.segments) : d.read s.segno = s.data := by
  rw [read, find?_segno h hs, Option.map_some, Option.getD_some]

/-- Opening a segment creates it, empty, if it is not there. -/
theorem lookup_openAppend (d : WalDir) (segno segno' : ℕ) :
    (d.openAppend segno).lookup segno' =
      if segno = segno' then some (d.read segno) else d.lookup segno' := by
  by_cases hany : d.segments.any (·.segno = segno) = true
  · have hsome : d.lookup segno = some (d.read segno) := by
      cases hlookup : d.lookup segno with
      | none =>
        obtain ⟨s, hs, hsegno⟩ := List.any_eq_true.mp hany
        exact absurd (of_decide_eq_true hsegno) (lookup_eq_none_iff.mp hlookup s hs)
      | some data => rw [read, ← lookup, hlookup, Option.getD_some]
    rw [openAppend, if_pos hany]
    split_ifs with hsegno
    · rw [← hsegno, hsome]
    · rfl
  · have hnone : ∀ s ∈ d.segments, s.segno ≠ segno := by simpa using hany
    have hread : d.read segno = [] := by
      rw [read, ← lookup, lookup_eq_none_iff.mpr hnone, Option.getD_none]
    have hsplit : d.segments.find? (·.segno = segno') =
        (d.segments.takeWhile (·.segno < segno) ++
          d.segments.dropWhile (·.segno < segno)).find? (·.segno = segno') := by
      rw [List.takeWhile_append_dropWhile]
    rw [openAppend, if_neg hany, lookup, lookup, hsplit, List.find?_append, List.find?_append,
      List.find?_cons, hread]
    split_ifs with hsegno
    · subst hsegno
      have htake : (d.segments.takeWhile (·.segno < segno)).find? (·.segno = segno) = none := by
        rw [List.find?_eq_none]
        intro s hs
        simpa using hnone s ((List.takeWhile_sublist _).subset hs)
      rw [htake]
      simp
    · simp [hsegno]

/-- Opening a segment leaves the content of every segment as it is. -/
theorem read_openAppend (d : WalDir) (segno segno' : ℕ) :
    (d.openAppend segno).read segno' = d.read segno' := by
  rw [read, ← lookup, lookup_openAppend]
  split_ifs with hsegno
  · rw [Option.getD_some, hsegno]
  · rfl

/-- Writing to a segment puts the bytes behind its content. -/
theorem lookup_write (d : WalDir) (fd : ℕ) (buf : List UInt8) (segno : ℕ) :
    (d.write fd buf).lookup segno =
      (d.lookup segno).map (· ++ if fd = segno then buf else []) := by
  have hfind : (d.write fd buf).segments.find? (·.segno = segno) =
      (d.segments.find? (·.segno = segno)).map fun s =>
        if s.segno = fd then { s with data := s.data ++ buf } else s := by
    rw [write, List.find?_map]
    congr 2
    funext s
    rw [Function.comp_apply]
    split_ifs <;> rfl
  rw [lookup, lookup, hfind, Option.map_map, Option.map_map]
  cases hs : d.segments.find? (·.segno = segno) with
  | none => rfl
  | some s =>
    have hsegno : s.segno = segno := by simpa using List.find?_some hs
    by_cases hfd : fd = segno
    · simp [hsegno, hfd]
    · simp [hsegno, hfd, Ne.symm hfd]

/-- The directory holds the segment. -/
def Has (d : WalDir) (segno : ℕ) : Prop := (d.lookup segno).isSome

theorem read_write {d : WalDir} {fd : ℕ} (h : d.Has fd) (buf : List UInt8) (segno : ℕ) :
    (d.write fd buf).read segno = d.read segno ++ if fd = segno then buf else [] := by
  obtain ⟨data, hdata⟩ := Option.isSome_iff_exists.mp h
  rw [read, ← lookup, lookup_write, read, ← lookup]
  cases hlookup : d.lookup segno with
  | none =>
    have hne : fd ≠ segno := by
      rintro rfl
      rw [hlookup] at hdata
      cases hdata
    rw [if_neg hne]
    rfl
  | some data' => rfl

theorem has_openAppend (d : WalDir) (segno : ℕ) : (d.openAppend segno).Has segno := by
  rw [Has, lookup_openAppend, if_pos rfl]
  rfl

theorem has_write {d : WalDir} {fd : ℕ} (h : d.Has fd) (buf : List UInt8) :
    (d.write fd buf).Has fd := by
  rw [Has, lookup_write, Option.isSome_map]
  exact h

/-- Opening a segment that is there leaves the directory as it is, and opening another one adds it,
empty. -/
theorem openAppend_cases (d : WalDir) (segno : ℕ) :
    (∃ s ∈ d.segments, s.segno = segno) ∧ d.openAppend segno = d ∨
      d.lookup segno = none ∧ (d.openAppend segno).segments.Perm (⟨segno, []⟩ :: d.segments) := by
  by_cases hany : d.segments.any (·.segno = segno)
  · exact .inl ⟨by simpa using hany, by rw [openAppend, if_pos hany]⟩
  · have hnone : ∀ s ∈ d.segments, s.segno ≠ segno := by simpa using hany
    refine .inr ⟨lookup_eq_none_iff.mpr hnone, ?_⟩
    rw [openAppend, if_neg hany]
    refine List.perm_middle.trans (List.Perm.cons _ ?_)
    rw [List.takeWhile_append_dropWhile]

theorem nodup_openAppend {d : WalDir} (h : (d.segments.map Segment.segno).Nodup) (segno : ℕ) :
    ((d.openAppend segno).segments.map Segment.segno).Nodup := by
  rcases d.openAppend_cases segno with ⟨-, heq⟩ | ⟨hnone, hperm⟩
  · rwa [heq]
  · refine (hperm.map Segment.segno).nodup_iff.mpr (List.nodup_cons.mpr ⟨fun hmem => ?_, h⟩)
    obtain ⟨s, hs, hsegno⟩ := List.mem_map.mp hmem
    exact lookup_eq_none_iff.mp hnone s hs hsegno

theorem segno_le_walSegno {d : WalDir} {s : Segment} (h : s ∈ d.segments) :
    s.segno ≤ walSegno d := by
  obtain ⟨ss, m⟩ := d
  dsimp only at h
  rw [walSegno]
  dsimp only
  induction ss with
  | nil => cases h
  | cons s' ss ih =>
    rw [List.map_cons, List.foldr_cons]
    rcases List.mem_cons.mp h with rfl | h
    · exact le_max_left _ _
    · exact (ih h).trans (le_max_right _ _)

theorem walSegno_openAppend (d : WalDir) (segno : ℕ) :
    walSegno (d.openAppend segno) = max segno (walSegno d) := by
  rcases d.openAppend_cases segno with ⟨⟨s, hs, rfl⟩, heq⟩ | ⟨-, hperm⟩
  · rw [heq, max_eq_right (segno_le_walSegno hs)]
  · rw [walSegno, (hperm.map Segment.segno).foldr_eq]
    rfl
end WalDir

/-! ### Groups of records -/

/-- A segment as the list of its records. -/
structure RecordGroup where
  segno : ℕ
  records : List WalEntry

namespace RecordGroup

/-- The file that holds the records of a group. -/
def segment (g : RecordGroup) : Segment := ⟨g.segno, g.records.flatMap WalEntry.bytes⟩

@[simp] theorem segment_segno (g : RecordGroup) : g.segment.segno = g.segno := rfl

/-- The group with one more record. -/
def push (g : RecordGroup) (e : WalEntry) : RecordGroup := ⟨g.segno, g.records ++ [e]⟩

@[simp] theorem push_segno (g : RecordGroup) (e : WalEntry) : (g.push e).segno = g.segno := rfl

theorem segment_push (g : RecordGroup) (e : WalEntry) :
    (g.push e).segment = { g.segment with data := g.segment.data ++ e.bytes } := by
  simp [segment, push, List.flatMap_append]

end RecordGroup

/-- Reading segments that hold groups of records meets the records of the groups. -/
theorem walReads_segments (gs : List RecordGroup) :
    walReads (gs.map RecordGroup.segment) = some (gs.flatMap fun g => readsOf 0 g.records) := by
  induction gs with
  | nil => rfl
  | cons g gs ih =>
    have hscan : walScan (fun _ => true) g.segment.data 0 = some (readsOf 0 g.records) :=
      walScan_bytes g.records (fun _ _ => rfl) (holds_zero _)
    rw [List.map_cons, walReads, hscan, Option.bind_some, ih, Option.map_some, List.flatMap_cons]

/-- The sequence number read off the end of a segment: that of its last record, or zero. -/
theorem walSegmentMaxLsn_segment (g : RecordGroup) :
    walSegmentMaxLsn g.segment.data = (g.records.getLast?.map WalEntry.lsn).getD 0 := by
  rcases List.eq_nil_or_concat' g.records with h | ⟨es, e, h⟩
  · simp [RecordGroup.segment, h, walSegmentMaxLsn]
  · obtain ⟨body, -, hbody⟩ := e.bytes_eq_append_lsn
    have hdata : g.segment.data =
        (es.flatMap WalEntry.bytes ++ body) ++ (writeUint64 e.lsn ++ []) := by
      simp only [RecordGroup.segment, h, List.flatMap_append, List.flatMap_singleton, hbody,
        List.append_assoc, List.append_nil]
    have hlen : g.segment.data.length = (es.flatMap WalEntry.bytes ++ body).length + 8 := by
      simp only [hdata, List.length_append, length_writeUint64, List.length_nil]
    have hread := (readUint64_write (hdata ▸ holds_append _ _)).1
    rw [walSegmentMaxLsn, if_neg (by omega), hlen, Nat.add_sub_cancel, hread, h]
    simp

/-! ### The layout of a directory -/

/-- The directory holds the groups `init` and then `last`, with increasing numbers, and the
process appends to the last one. -/
structure WalLayout (d : WalDir) (w : Wal) (init : List RecordGroup) (last : RecordGroup) :
    Prop where
  segments_eq : d.segments = (init ++ [last]).map RecordGroup.segment
  ascending : (init ++ [last]).Pairwise (·.segno < ·.segno)
  fd_eq : w.fd = last.segno

theorem foldr_max_append_singleton {l : List ℕ} {n : ℕ} (h : ∀ m ∈ l, m < n) :
    (l ++ [n]).foldr max 0 = n := by
  induction l with
  | nil => simp
  | cons m l ih =>
    have hm : m < n := h m List.mem_cons_self
    rw [List.cons_append, List.foldr_cons, ih fun k hk => h k (List.mem_cons_of_mem _ hk)]
    exact max_eq_right hm.le

/-- Opening a segment behind all others creates it, empty. -/
theorem WalDir.openAppend_of_lt {d : WalDir} {segno : ℕ}
    (h : ∀ s ∈ d.segments, s.segno < segno) :
    d.openAppend segno = { d with segments := d.segments ++ [⟨segno, []⟩] } := by
  have hany : d.segments.any (·.segno = segno) = false := by
    rw [List.any_eq_false]
    intro s hs
    simpa using (h s hs).ne
  have hall : ∀ s ∈ d.segments, decide (s.segno < segno) = true := by simpa using h
  rw [openAppend, hany, if_neg Bool.false_ne_true, List.takeWhile_eq_self_iff.mpr hall,
    List.dropWhile_eq_nil_iff.mpr hall]

namespace WalLayout

variable {d : WalDir} {w : Wal} {init : List RecordGroup} {last : RecordGroup}

theorem walReads_eq (h : WalLayout d w init last) :
    walReads d.segments = some ((init ++ [last]).flatMap fun g => readsOf 0 g.records) := by
  rw [h.segments_eq, walReads_segments]

theorem init_lt (h : WalLayout d w init last) : ∀ g ∈ init, g.segno < last.segno := by
  intro g hg
  exact (List.pairwise_append.mp h.ascending).2.2 g hg last List.mem_cons_self

theorem segno_le (h : WalLayout d w init last) : ∀ s ∈ d.segments, s.segno ≤ last.segno := by
  intro s hs
  rw [h.segments_eq] at hs
  obtain ⟨g, hg, rfl⟩ := List.mem_map.mp hs
  rcases List.mem_append.mp hg with hg | hg
  · exact (h.init_lt g hg).le
  · rw [List.mem_singleton.mp hg, RecordGroup.segment_segno]

theorem nodup_segno (h : WalLayout d w init last) : (d.segments.map Segment.segno).Nodup := by
  rw [h.segments_eq, List.map_map, List.Nodup, List.pairwise_map]
  exact h.ascending.imp fun hlt => hlt.ne

/-- The last segment is the one with the largest number. -/
theorem walSegno_eq (h : WalLayout d w init last) : walSegno d = last.segno := by
  rw [walSegno, h.segments_eq, List.map_append, List.map_append, List.map_singleton,
    List.map_singleton, List.map_map, RecordGroup.segment_segno]
  refine foldr_max_append_singleton fun m hm => ?_
  obtain ⟨g, hg, rfl⟩ := List.mem_map.mp hm
  exact h.init_lt g hg

theorem find_last (h : WalLayout d w init last) :
    d.segments.find? (·.segno = last.segno) = some last.segment := by
  rw [h.segments_eq, List.map_append, List.find?_append, List.find?_eq_none.mpr]
  · simp
  · intro s hs
    obtain ⟨g, hg, rfl⟩ := List.mem_map.mp hs
    simp only [RecordGroup.segment_segno, (h.init_lt g hg).ne, decide_false, Bool.false_eq_true,
      not_false_eq_true]

theorem read_last (h : WalLayout d w init last) : d.read last.segno = last.segment.data := by
  rw [WalDir.read, h.find_last]
  rfl

/-- Writing a record to the open segment adds it to the last group. -/
theorem write (h : WalLayout d w init last) (e : WalEntry) :
    WalLayout (d.write w.fd e.bytes) w init (last.push e) := by
  refine ⟨?_, ?_, h.fd_eq⟩
  · have hinit : (init.map RecordGroup.segment).map (fun s =>
        if s.segno = last.segno then { s with data := s.data ++ e.bytes } else s) =
        init.map RecordGroup.segment := by
      rw [List.map_map]
      refine List.map_congr_left fun g hg => ?_
      exact if_neg (h.init_lt g hg).ne
    simp only [WalDir.write, h.segments_eq, h.fd_eq, List.map_append, hinit, List.map_singleton,
      RecordGroup.segment_push, RecordGroup.segment_segno, if_true]
  · rw [List.pairwise_append]
    refine ⟨(List.pairwise_append.mp h.ascending).1, List.pairwise_singleton .., ?_⟩
    intro g hg g' hg'
    rw [List.mem_singleton.mp hg', RecordGroup.push_segno]
    exact h.init_lt g hg

/-- Opening the segment behind the last one starts a new group. -/
theorem openNext (h : WalLayout d w init last) (w' : Wal) (hw : w'.fd = last.segno + 1) :
    WalLayout (d.openAppend (last.segno + 1)) w' (init ++ [last]) ⟨last.segno + 1, []⟩ := by
  have hlt : ∀ s ∈ d.segments, s.segno < last.segno + 1 := fun s hs =>
    Nat.lt_succ_of_le (h.segno_le s hs)
  refine ⟨?_, ?_, hw⟩
  · rw [WalDir.openAppend_of_lt hlt, List.map_append, h.segments_eq]
    rfl
  · rw [List.pairwise_append]
    refine ⟨h.ascending, List.pairwise_singleton .., ?_⟩
    intro g hg g' hg'
    rw [List.mem_singleton.mp hg']
    rcases List.mem_append.mp hg with hg | hg
    · exact Nat.lt_succ_of_lt (h.init_lt g hg)
    · rw [List.mem_singleton.mp hg]
      exact Nat.lt_succ_self _

/-- Opening the last segment again changes nothing. -/
theorem openLast (h : WalLayout d w init last) : d.openAppend last.segno = d := by
  have hany : d.segments.any (·.segno = last.segno) = true := by
    rw [List.any_eq_true]
    exact ⟨last.segment, by rw [h.segments_eq]; simp, by simp⟩
  rw [WalDir.openAppend, if_pos hany]

/-- The directory with the numbers and records of its groups, whatever process works on it. -/
theorem congr (h : WalLayout d w init last) {d' : WalDir} {w' : Wal}
    (hd : d'.segments = d.segments) (hw : w'.fd = w.fd) : WalLayout d' w' init last :=
  ⟨hd.trans h.segments_eq, h.ascending, hw.trans h.fd_eq⟩

/-- **A rotation** starts a new group and keeps all records. -/
theorem rotate (h : WalLayout d w init last) :
    WalLayout (walRotate d w).1 (walRotate d w).2 (init ++ [last]) ⟨last.segno + 1, []⟩ := by
  rw [walRotate, h.walSegno_eq]
  exact h.openNext _ rfl

/-- An append adds a record to the last group, or starts a new group with it if the segment is
full. -/
theorem append_cases (h : WalLayout d w init last) (o : WalOp) :
    (w.size + (24 + o.op.length) < walSize64MB ∧
      (walAppend d w o).2 =
        { w with lsn := w.lsn + 1, size := w.size + (24 + o.op.length) } ∧
      WalLayout (walAppend d w o).1 (walAppend d w o).2 init (last.push (o.entry w.lsn))) ∨
    (walSize64MB ≤ w.size + (24 + o.op.length) ∧
      (walAppend d w o).2 = ⟨last.segno + 1, w.lsn + 1, 24 + o.op.length⟩ ∧
      WalLayout (walAppend d w o).1 (walAppend d w o).2 (init ++ [last])
        ⟨last.segno + 1, [o.entry w.lsn]⟩) := by
  have hlen : (o.entry w.lsn).bytes.length = 24 + o.op.length := (o.entry w.lsn).length_bytes
  by_cases hfull : walSize64MB ≤ w.size + (24 + o.op.length)
  · have hwrite := h.rotate.write (o.entry w.lsn)
    refine .inr ⟨hfull, ?_, ?_⟩
    · simp only [walAppend, walRotate, hlen, hfull, if_true, h.walSegno_eq, Nat.zero_add]
    · simp only [walAppend, hlen, hfull, if_true]
      exact hwrite.congr rfl rfl
  · refine .inl ⟨not_le.mp hfull, ?_, ?_⟩
    · simp only [walAppend, hlen, hfull, if_false]
    · simp only [walAppend, hlen, hfull, if_false]
      exact (h.write (o.entry w.lsn)).congr rfl rfl

/-- **An append** adds one record, with the number the counter stands at, behind all others. -/
theorem append (h : WalLayout d w init last) (o : WalOp) :
    ∃ init' last', WalLayout (walAppend d w o).1 (walAppend d w o).2 init' last' ∧
      (init' ++ [last']).flatMap RecordGroup.records =
        (init ++ [last]).flatMap RecordGroup.records ++ [o.entry w.lsn] ∧
      last'.records.getLast? = some (o.entry w.lsn) ∧
      (walAppend d w o).2.lsn = w.lsn + 1 := by
  rcases h.append_cases o with ⟨-, hw, hlayout⟩ | ⟨-, hw, hlayout⟩
  · exact ⟨_, _, hlayout, by simp [RecordGroup.push], by simp [RecordGroup.push], by rw [hw]⟩
  · exact ⟨_, _, hlayout, by simp, by simp, by rw [hw]⟩

/-- An append by a process that has written all of the last group: the scan of the directory meets
one record more, behind which the segment is as long as the process counts. -/
theorem append_reads (h : WalLayout d w init last) (hsize : w.size = last.segment.data.length)
    (o : WalOp) : ∃ init' last', WalLayout (walAppend d w o).1 (walAppend d w o).2 init' last' ∧
      (walAppend d w o).2.size = last'.segment.data.length ∧
      (init' ++ [last']).flatMap (fun g => readsOf 0 g.records) =
        (init ++ [last]).flatMap (fun g => readsOf 0 g.records) ++
          [(some (o.entry w.lsn), (walAppend d w o).2.size)] := by
  have hlen : (o.entry w.lsn).bytes.length = 24 + o.op.length := (o.entry w.lsn).length_bytes
  rcases h.append_cases o with ⟨-, hw, hlayout⟩ | ⟨-, hw, hlayout⟩
  · refine ⟨_, _, hlayout, ?_, ?_⟩
    · rw [hw, RecordGroup.segment_push, List.length_append, hsize, hlen]
    · simp only [RecordGroup.push, List.flatMap_append, List.flatMap_singleton, readsOf_concat, hw,
        hlen, hsize, RecordGroup.segment, Nat.zero_add, List.append_assoc]
  · refine ⟨_, _, hlayout, ?_, ?_⟩
    · simp [hw, RecordGroup.segment, hlen]
    · simp [readsOf, hw, hlen]

/-- **A restart** keeps all records and sets the counter to the number of the last record of the
segment it opens: the last segment, or a new, empty one. -/
theorem create (h : WalLayout d w init last) :
    ∃ init' last', WalLayout (walCreate d).1 (walCreate d).2 init' last' ∧
      (init' ++ [last']).flatMap RecordGroup.records =
        (init ++ [last]).flatMap RecordGroup.records ∧
      (walCreate d).2.lsn = (last'.records.getLast?.map WalEntry.lsn).getD 0 ∧
      (init' = init ∧ last' = last ∨ init' = init ++ [last] ∧ last'.records = []) := by
  by_cases hfull : walSize64MB ≤ last.segment.data.length
  · have hnext := h.openNext ⟨last.segno + 1, 0, 0⟩ rfl
    simp only [walCreate, walOpen, h.walSegno_eq, h.read_last, hfull, if_true]
    refine ⟨init ++ [last], _, hnext.congr rfl rfl, by simp, ?_, .inr ⟨rfl, rfl⟩⟩
    simp only [hnext.read_last, walSegmentMaxLsn_segment]
  · simp only [walCreate, walOpen, h.walSegno_eq, h.read_last, hfull, if_false, h.openLast]
    refine ⟨init, last, ⟨h.segments_eq, h.ascending, rfl⟩, rfl, ?_, .inl ⟨rfl, rfl⟩⟩
    rw [walSegmentMaxLsn_segment]

/-- **Truncation** removes whole groups and leaves the last one in place. -/
theorem truncate (h : WalLayout d w init last) :
    WalLayout (walTruncate d) w
      (init.filter fun g => ¬ walSegmentMaxLsn g.segment.data < walCheckpointLsn d) last := by
  have hinit : (init.map RecordGroup.segment).filter (fun s =>
      s.segno = last.segno ∨ ¬ walSegmentMaxLsn s.data < walCheckpointLsn d) =
      (init.filter fun g =>
        ¬ walSegmentMaxLsn g.segment.data < walCheckpointLsn d).map RecordGroup.segment := by
    rw [List.filter_map]
    congr 1
    refine List.filter_congr fun g hg => ?_
    simp [(h.init_lt g hg).ne]
  refine ⟨?_, ?_, h.fd_eq⟩
  · simp only [walTruncate, h.walSegno_eq, h.segments_eq, List.map_append, List.filter_append,
      hinit]
    simp
  · exact h.ascending.sublist (List.filter_sublist.append_right _)

end WalLayout

/-- An append moves the counter forward by one. -/
theorem walAppend_lsn (d : WalDir) (w : Wal) (o : WalOp) :
    (walAppend d w o).2.lsn = w.lsn + 1 := by
  by_cases hfull : walSize64MB ≤ w.size + (o.entry w.lsn).bytes.length
  · simp only [walAppend, hfull, if_true, walRotate]
  · simp only [walAppend, hfull, if_false]

/-- The bytes that a process counts for the open segment. -/
theorem walAppend_size (d : WalDir) (w : Wal) (o : WalOp) : (walAppend d w o).2.size =
    if walSize64MB ≤ w.size + (24 + o.op.length) then 24 + o.op.length
    else w.size + (24 + o.op.length) := by
  have hlen : (o.entry w.lsn).bytes.length = 24 + o.op.length := (o.entry w.lsn).length_bytes
  by_cases hfull : walSize64MB ≤ w.size + (24 + o.op.length)
  · simp only [walAppend, walRotate, hlen, hfull, if_true, Nat.zero_add]
  · simp only [walAppend, hlen, hfull, if_false]

theorem WalDir.openAppend_manifest (d : WalDir) (segno : ℕ) :
    (d.openAppend segno).manifest = d.manifest := by
  unfold openAppend
  split_ifs <;> rfl

theorem walAppend_manifest (d : WalDir) (w : Wal) (o : WalOp) :
    (walAppend d w o).1.manifest = d.manifest := by
  by_cases hfull : walSize64MB ≤ w.size + (o.entry w.lsn).bytes.length
  · simp only [walAppend, hfull, if_true]
    exact WalDir.openAppend_manifest d _
  · simp only [walAppend, hfull, if_false, WalDir.write]

theorem walCreate_manifest (d : WalDir) : (walCreate d).1.manifest = d.manifest :=
  WalDir.openAppend_manifest d _

/-- The segment that a start opens has room. -/
theorem read_walOpen_lt (d : WalDir) : (d.read (walOpen d).2).length < walSize64MB := by
  rw [walOpen]
  dsimp only
  split_ifs with hfull
  · have hnone : d.lookup (walSegno d + 1) = none :=
      WalDir.lookup_eq_none_iff.mpr fun s hs heq => by
        have := WalDir.segno_le_walSegno hs
        omega
    rw [WalDir.read, ← WalDir.lookup, hnone]
    decide
  · exact not_le.mp hfull

/-- **A second start** opens the segment that the first one opened, and leaves the log as it is. -/
theorem walCreate_walCreate (d : WalDir) : walCreate (walCreate d).1 = walCreate d := by
  have hsegno : walSegno (walOpen d).1 = (walOpen d).2 := by
    refine (WalDir.walSegno_openAppend d _).trans (max_eq_left ?_)
    split_ifs
    · exact Nat.le_succ _
    · exact le_rfl
  have hroom : ¬ walSize64MB ≤ ((walOpen d).1.read (walOpen d).2).length := by
    rw [not_le, show (walOpen d).1 = d.openAppend (walOpen d).2 from rfl, WalDir.read_openAppend]
    exact read_walOpen_lt d
  have hopen : walOpen (walOpen d).1 = walOpen d := by
    have hagain : (walOpen d).1.openAppend (walOpen d).2 = (walOpen d).1 := by
      rcases (walOpen d).1.openAppend_cases (walOpen d).2 with ⟨-, heq⟩ | ⟨hnone, -⟩
      · exact heq
      · have hhas : (walOpen d).1.Has (walOpen d).2 := d.has_openAppend _
        rw [WalDir.Has, hnone] at hhas
        cases hhas
    conv_lhs => rw [walOpen, hsegno, if_neg hroom, hagain]
  rw [show (walCreate d).1 = (walOpen d).1 from rfl, walCreate, hopen, walCreate]
/-! ### The checkpoint -/

theorem walCheckpointLsn_congr {w w' : WalDir} (h : w.manifest = w'.manifest) :
    walCheckpointLsn w = walCheckpointLsn w' := by
  rw [walCheckpointLsn, walCheckpointLsn, h]

theorem walCheckpointLsn_of_manifest {w : WalDir} {lsn : UInt64}
    (h : w.manifest = some (writeUint64 lsn)) : walCheckpointLsn w = lsn := by
  have hread :=
    (readUint64_write (c := []) (holds_of_eq (List.append_nil (writeUint64 lsn)).symm)).1
  simp only [walCheckpointLsn, h, hread, Option.map_some, Option.getD_some]

theorem walCheckpointLsn_of_short {w : WalDir} {bs : List UInt8} (h : w.manifest = some bs)
    (hlen : bs.length < 8) : walCheckpointLsn w = 0 := by
  have hread : readUint64 bs 0 = none := by
    rw [readUint64, slice, if_neg (by omega), Option.map_none]
  simp only [walCheckpointLsn, h, hread, Option.map_none, Option.getD_none]

/-! ### The first start -/

/-- The first start, on an empty directory, opens an empty segment with the counter at zero. -/
theorem walLayout_create_empty (m : Option (List UInt8)) :
    WalLayout (walCreate ⟨[], m⟩).1 (walCreate ⟨[], m⟩).2 [] ⟨0, []⟩ ∧
      (walCreate ⟨[], m⟩).2.lsn = 0 :=
  ⟨⟨rfl, List.pairwise_singleton .., rfl⟩, rfl⟩

end Racs
