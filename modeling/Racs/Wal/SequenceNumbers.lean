import Racs.Wal.Files
import Mathlib.Data.List.Count
import Mathlib.Data.List.Sort
import Mathlib.Data.Fintype.Card

/-!
# Sequence numbers over appends, rotations and restarts

A restart sets the counter of the log to the sequence number of the last record of the segment
that it opens, or to zero when that segment is empty. The next append uses that number again. The
sequence numbers of a log are therefore distinct exactly as long as no restart has appends on both
sides.

Their order over the segments depends on the numbers of the segments as well. These have 64 bits:
the rotation behind the segment with the largest number opens the first segment again, and its
records are read in front of those of all other segments. This takes `2 ^ 64` segments.

## Main definitions

* `Racs.LogStep`, `Racs.WalFiles.logRun` — runs of the log from an empty directory.
* `Racs.WalFiles.LsnsIncreasing` — the records of a directory have increasing sequence numbers.
* `Racs.RestartsAtEnds` — no restart of a run lies between two appends.
* `Racs.AppendsBehind` — no append of a run writes in front of other records.

## Main results

* `Racs.SegmentsOf.append`, `Racs.SegmentsOf.rotate`, `Racs.Groups.restart` — the operations on
  segments whose numbers wrap around.
* `Racs.appendsBehind_of_length_lt` — runs with fewer than `2 ^ 64` steps.
* `Racs.lsnsIncreasing_logRun_iff` — when the sequence numbers of a run increase.
-/

namespace Racs

open WalFiles

/-! ### Runs of the log -/

/-- What happens to the log: a call of `racs_wal_append_`, a rotation, or a clean restart, which
runs `racs_wal_create` on the directory. -/
inductive LogStep
  | append (o : WalOp)
  | rotate
  | restart

namespace LogStep

/-- The step appends a record. -/
def isAppend : LogStep → Bool
  | append _ => true
  | rotate => false
  | restart => false

end LogStep

namespace WalFiles

/-- One step of the log on files. -/
def logStep : WalFiles × WalHandle → LogStep → WalFiles × WalHandle
  | (f, w), .append o => f.walAppend w o
  | (f, w), .rotate => f.walRotate w
  | (f, _), .restart => f.walCreate

/-- The files after the steps, from the first start on an empty directory. -/
def logRun (steps : List LogStep) : WalFiles × WalHandle :=
  steps.foldl logStep (walCreate ∅)

theorem logRun_concat (steps : List LogStep) (step : LogStep) :
    logRun (steps ++ [step]) = logStep (logRun steps) step := by
  rw [logRun, List.foldl_append]
  rfl

/-- The sequence numbers of all records, read segment by segment in the order of
`get_sorted_filelist`, are strictly increasing, whatever the order of `readdir`. -/
def LsnsIncreasing (f : WalFiles) : Prop :=
  ∀ (dir : List Char) (names : List (List Char)), names.Perm f.keys →
    ∃ rs, f.reads (getSortedFilelist (paths dir names)) = some rs ∧
      ((rs.filterMap Prod.fst).map WalEntry.lsn).Pairwise (· < ·)

/-- The log when `racs_wal_append_` writes the record: behind a rotation if the segment is full. -/
def writesTo (s : WalFiles × WalHandle) (o : WalOp) : WalFiles × WalHandle :=
  if walSize64MB ≤ s.2.size + (24 + o.op.length) then s.1.walRotate s.2 else s

/-- The segments behind the open one are empty. -/
def NoneBehind (s : WalFiles × WalHandle) : Prop :=
  ∀ segno, s.2.fd < walFilename segno → s.1.read (walFilename segno) = []

end WalFiles

/-- No restart has appends both before and after it. -/
def RestartsAtEnds (steps : List LogStep) : Prop :=
  ∀ before after, steps = before ++ .restart :: after →
    before.countP LogStep.isAppend = 0 ∨ after.countP LogStep.isAppend = 0

/-- No append writes to a segment behind which another one holds records. -/
def AppendsBehind (steps : List LogStep) : Prop :=
  ∀ before o after, steps = before ++ .append o :: after →
    NoneBehind (writesTo (logRun before) o)

/-! ### Files as groups of records -/

/-- The files are these groups of records, with the numbers from zero on. -/
structure Groups (f : WalFiles) (gs : List RecordGroup) : Prop where
  shows : Shows f ⟨gs.map RecordGroup.segment, none⟩
  numbers : gs.map RecordGroup.segno = List.range gs.length

namespace Groups

variable {f : WalFiles} {gs : List RecordGroup}

theorem nodup_segno (h : Groups f gs) : (gs.map RecordGroup.segno).Nodup :=
  h.numbers ▸ List.nodup_range

theorem nodup_segments (h : Groups f gs) :
    ((gs.map RecordGroup.segment).map Segment.segno).Nodup := by
  rw [List.map_map]
  exact h.nodup_segno

theorem segno_lt (h : Groups f gs) {g : RecordGroup} (hg : g ∈ gs) : g.segno < gs.length := by
  rw [← List.mem_range, ← h.numbers]
  exact List.mem_map_of_mem hg

theorem segno_lt_size (h : Groups f gs) {g : RecordGroup} (hg : g ∈ gs) : g.segno < 2 ^ 64 :=
  h.shows.bounded g.segment (List.mem_map_of_mem hg)

theorem toNat_segno (h : Groups f gs) {g : RecordGroup} (hg : g ∈ gs) :
    (UInt64.ofNat g.segno).toNat = g.segno :=
  UInt64.toNat_ofNat_of_lt' (h.segno_lt_size hg)

/-- The number of the last group. -/
theorem segno_last {init : List RecordGroup} {last : RecordGroup}
    (h : Groups f (init ++ [last])) : last.segno = init.length := by
  have hnumbers := h.numbers
  rw [List.map_append, List.length_append, List.length_singleton, List.range_succ] at hnumbers
  have hlast := congrArg List.getLast? hnumbers
  rw [List.map_singleton, List.getLast?_concat, List.getLast?_concat] at hlast
  exact Option.some.inj hlast

/-- There are as many segments as numbers at most. -/
theorem length_le (h : Groups f gs) : gs.length ≤ 2 ^ 64 := by
  rcases List.eq_nil_or_concat' gs with rfl | ⟨init, last, rfl⟩
  · exact Nat.zero_le _
  · have hlt := h.segno_lt_size (List.mem_append_right init (List.mem_singleton_self last))
    rw [h.segno_last] at hlt
    rw [List.length_append, List.length_singleton]
    omega

/-- The number that `racs_wal_segno` finds is that of the last group. -/
theorem walSegno_eq {init : List RecordGroup} {last : RecordGroup}
    (h : Groups f (init ++ [last])) :
    walSegno ⟨(init ++ [last]).map RecordGroup.segment, none⟩ = last.segno := by
  have hlast : last.segment ∈ (init ++ [last]).map RecordGroup.segment :=
    List.mem_map_of_mem (List.mem_append_right init (List.mem_singleton_self last))
  refine le_antisymm (List.max_le_of_forall_le _ _ fun n hn => ?_)
    (WalDir.segno_le_walSegno (d := ⟨_, none⟩) hlast)
  obtain ⟨s, hs, rfl⟩ := List.mem_map.mp hn
  obtain ⟨g, hg, rfl⟩ := List.mem_map.mp hs
  have hlt := h.segno_lt hg
  rw [List.length_append, List.length_singleton, ← h.segno_last] at hlt
  exact Nat.le_of_lt_succ hlt

/-- The content of the file of a group. -/
theorem read_segment (h : Groups f gs) {g : RecordGroup} (hg : g ∈ gs) :
    f.read (walFilename (UInt64.ofNat g.segno)) = g.segment.data := by
  rw [h.shows.read_segment, h.toNat_segno hg]
  exact WalDir.read_of_mem (d := ⟨gs.map RecordGroup.segment, none⟩) (s := g.segment)
    h.nodup_segments (List.mem_map_of_mem hg)

/-- **The order in which the records are read** is that of the groups. -/
theorem lsnsIncreasing_iff (h : Groups f gs) :
    f.LsnsIncreasing ↔ ((gs.flatMap RecordGroup.records).map WalEntry.lsn).Pairwise (· < ·) := by
  have hreads : ∀ (dir : List Char) (names : List (List Char)), names.Perm f.keys →
      f.reads (getSortedFilelist (paths dir names)) =
        some (gs.flatMap fun g => readsOf 0 g.records) := by
    intro dir names hnames
    rw [h.shows.reads_eq dir hnames, walReads_segments]
  have hrecords : (gs.flatMap fun g => readsOf 0 g.records).filterMap Prod.fst =
      gs.flatMap RecordGroup.records := by
    rw [List.filterMap_flatMap]
    simp only [filterMap_readsOf]
  constructor
  · intro hincreasing
    obtain ⟨rs, hrs, hlt⟩ := hincreasing [] f.keys (List.Perm.refl _)
    obtain rfl := Option.some.inj ((hreads [] f.keys (List.Perm.refl _)).symm.trans hrs)
    rwa [hrecords] at hlt
  · intro hlt dir names hnames
    exact ⟨_, hreads dir names hnames, by rwa [hrecords]⟩

/-- **The segment behind the one with the largest number**: a new one, or the first one again. -/
theorem openNext {init : List RecordGroup} {last : RecordGroup} (h : Groups f (init ++ [last])) :
    (walSegnoOfNames f.keys + 1 = UInt64.ofNat (init.length + 1) ∧
      Groups (f.openAppend (walFilename (walSegnoOfNames f.keys + 1)))
        (init ++ [last] ++ [⟨init.length + 1, []⟩])) ∨
    ((init ++ [last]).length = 2 ^ 64 ∧ walSegnoOfNames f.keys + 1 = 0 ∧
      f.openAppend (walFilename (walSegnoOfNames f.keys + 1)) = f) := by
  have hsegno := h.walSegno_eq
  rw [h.segno_last] at hsegno
  have hlength := h.length_le
  rw [List.length_append, List.length_singleton] at hlength ⊢
  rcases hlength.lt_or_eq with hlt | hmax
  · obtain ⟨hsucc, hshows⟩ := h.shows.openAppend_succ (by rw [hsegno]; exact hlt)
    rw [hsegno] at hsucc hshows
    refine .inl ⟨?_, ?_, ?_⟩
    · rw [← hsucc, UInt64.ofNat_toNat]
    · rw [WalDir.openAppend_of_lt] at hshows
      · rw [List.map_append]
        exact hshows
      · intro s hs
        obtain ⟨g, hg, rfl⟩ := List.mem_map.mp hs
        have hg := h.segno_lt hg
        rwa [List.length_append, List.length_singleton] at hg
    · rw [List.map_append, h.numbers, @List.length_append _ (init ++ [last]),
        List.length_singleton, List.range_succ, List.length_append, List.length_singleton]
      rfl
  · have hzero : walSegnoOfNames f.keys + 1 = 0 := by
      apply UInt64.toNat_inj.mp
      rw [UInt64.toNat_add, h.shows.walSegnoOfNames_eq (List.Perm.refl _), hsegno]
      exact (congrArg (· % 2 ^ 64) hmax).trans (Nat.mod_self _)
    refine .inr ⟨hmax, hzero, ?_⟩
    -- the first segment is there
    have hfirst : 0 ∈ (init ++ [last]).map RecordGroup.segno := by
      rw [h.numbers, List.mem_range, List.length_append, List.length_singleton]
      exact Nat.succ_pos _
    obtain ⟨g, hg, hsegno⟩ := List.mem_map.mp hfirst
    rw [hzero, WalFiles.openAppend, if_pos]
    exact (h.shows.mem_walFilename_iff 0).mpr ⟨g.segment, List.mem_map_of_mem hg, hsegno⟩

end Groups

/-- The process works on the group `opened`. -/
structure SegmentsOf (s : WalFiles × WalHandle) (before : List RecordGroup) (opened : RecordGroup)
    (behind : List RecordGroup) : Prop where
  groups : Groups s.1 (before ++ opened :: behind)
  fd_eq : s.2.fd = walFilename (UInt64.ofNat opened.segno)

/-- The records of all segments, in the order in which they are read. -/
def recordsOf (before : List RecordGroup) (opened : RecordGroup) (behind : List RecordGroup) :
    List WalEntry :=
  (before ++ opened :: behind).flatMap RecordGroup.records

theorem WalEntry.bytes_ne_nil (e : WalEntry) : e.bytes ≠ [] := by
  intro hnil
  have hlength := e.length_bytes
  rw [hnil, List.length_nil] at hlength
  omega

theorem RecordGroup.segment_data_eq_nil {g : RecordGroup} :
    g.segment.data = [] ↔ g.records = [] := by
  rw [RecordGroup.segment, List.flatMap_eq_nil_iff]
  constructor
  · intro h
    by_contra hne
    obtain ⟨e, he⟩ := List.exists_mem_of_ne_nil _ hne
    exact e.bytes_ne_nil (h e he)
  · intro h e he
    rw [h] at he
    cases he

/-- **Opening the next segment** keeps the records. The segment is new and behind all others, or it
is the first one. -/
theorem Groups.exists_segmentsOf {f : WalFiles} {gs : List RecordGroup} (h : Groups f gs)
    (hne : gs ≠ []) (lsn : UInt64) (size : ℕ) : ∃ before opened behind,
    SegmentsOf (f.openAppend (walFilename (walSegnoOfNames f.keys + 1)),
        ⟨walFilename (walSegnoOfNames f.keys + 1), lsn, size⟩) before opened behind ∧
      recordsOf before opened behind = gs.flatMap RecordGroup.records ∧
      (opened.records = [] ∧ behind = [] ∧ before = gs ∨
        gs.length = 2 ^ 64 ∧ opened :: behind = gs) := by
  obtain ⟨init, last, rfl⟩ := (List.eq_nil_or_concat' gs).resolve_left hne
  rcases h.openNext with ⟨hsegno, hgroups⟩ | ⟨hlength, hzero, hsame⟩
  · refine ⟨init ++ [last], ⟨init.length + 1, []⟩, [], ⟨hgroups, congrArg walFilename hsegno⟩, ?_,
      .inl ⟨rfl, rfl, rfl⟩⟩
    rw [recordsOf, List.flatMap_append, List.flatMap_singleton, List.append_nil]
  · obtain ⟨first, rest, heq⟩ := List.exists_cons_of_ne_nil hne
    have hfirst : first.segno = 0 := by
      have hnumbers := h.numbers
      rw [heq, List.map_cons, List.length_cons, List.range_succ_eq_map] at hnumbers
      exact (List.cons.inj hnumbers).1
    refine ⟨[], first, rest, ⟨?_, ?_⟩, ?_, .inr ⟨hlength, heq.symm⟩⟩
    · rw [hsame, List.nil_append, ← heq]
      exact h
    · rw [hzero, hfirst]
      rfl
    · rw [recordsOf, List.nil_append, heq]

namespace SegmentsOf

variable {s : WalFiles × WalHandle} {before behind : List RecordGroup} {opened : RecordGroup}

theorem mem_opened : opened ∈ before ++ opened :: behind :=
  List.mem_append_right _ List.mem_cons_self

theorem before_lt (h : SegmentsOf s before opened behind) {g : RecordGroup} (hg : g ∈ before) :
    g.segno < opened.segno := by
  have hlt : ((before ++ opened :: behind).map RecordGroup.segno).Pairwise (· < ·) :=
    h.groups.numbers ▸ List.pairwise_lt_range
  rw [List.map_append, List.map_cons, List.pairwise_append] at hlt
  exact hlt.2.2 _ (List.mem_map_of_mem hg) _ List.mem_cons_self

theorem lt_behind (h : SegmentsOf s before opened behind) {g : RecordGroup} (hg : g ∈ behind) :
    opened.segno < g.segno := by
  have hlt : ((before ++ opened :: behind).map RecordGroup.segno).Pairwise (· < ·) :=
    h.groups.numbers ▸ List.pairwise_lt_range
  rw [List.map_append, List.map_cons, List.pairwise_append, List.pairwise_cons] at hlt
  exact hlt.2.1.1 _ (List.mem_map_of_mem hg)

/-- The content of the open segment. -/
theorem read_fd (h : SegmentsOf s before opened behind) :
    s.1.read s.2.fd = opened.segment.data := by
  rw [h.fd_eq, h.groups.read_segment mem_opened]

/-- Writing a record to the open segment adds it to its group. -/
theorem write (h : SegmentsOf s before opened behind) (e : WalEntry) (lsn : UInt64) (size : ℕ) :
    SegmentsOf (s.1.write s.2.fd e.bytes, ⟨s.2.fd, lsn, size⟩) before (opened.push e) behind := by
  have hto := h.groups.toNat_segno (@mem_opened before behind opened)
  have hhas : WalDir.Has ⟨(before ++ opened :: behind).map RecordGroup.segment, none⟩
      (UInt64.ofNat opened.segno).toNat := by
    rw [hto, WalDir.Has, (WalDir.lookup_eq_some_iff h.groups.nodup_segments).mpr
      (List.mem_map_of_mem (f := RecordGroup.segment) mem_opened)]
    rfl
  have hshows := h.groups.shows.write hhas e.bytes
  rw [← h.fd_eq, hto] at hshows
  have hbefore : (before.map RecordGroup.segment).map (fun t =>
      if t.segno = opened.segno then { t with data := t.data ++ e.bytes } else t) =
      before.map RecordGroup.segment := by
    rw [List.map_map]
    exact List.map_congr_left fun g hg => if_neg (h.before_lt hg).ne
  have hbehind : (behind.map RecordGroup.segment).map (fun t =>
      if t.segno = opened.segno then { t with data := t.data ++ e.bytes } else t) =
      behind.map RecordGroup.segment := by
    rw [List.map_map]
    exact List.map_congr_left fun g hg => if_neg (h.lt_behind hg).ne'
  refine ⟨⟨?_, ?_⟩, h.fd_eq⟩
  · simp only [WalDir.write, List.map_append, List.map_cons, hbefore, hbehind,
      RecordGroup.segment_segno, if_true] at hshows
    simpa only [List.map_append, List.map_cons, RecordGroup.segment_push,
      RecordGroup.segment_segno] using hshows
  · have hnumbers := h.groups.numbers
    simp only [List.map_append, List.map_cons, List.length_append, List.length_cons,
      RecordGroup.push_segno] at hnumbers ⊢
    exact hnumbers

/-- **A rotation** keeps the records. -/
theorem rotate (h : SegmentsOf s before opened behind) : ∃ before' opened' behind',
    SegmentsOf (s.1.walRotate s.2) before' opened' behind' ∧
      recordsOf before' opened' behind' = recordsOf before opened behind ∧
      (opened'.records = [] ∧ behind' = [] ∧ before' = before ++ opened :: behind ∨
        (before ++ opened :: behind).length = 2 ^ 64 ∧
          opened' :: behind' = before ++ opened :: behind) :=
  h.groups.exists_segmentsOf (by simp) s.2.lsn 0

/-- The segment that an append writes to. -/
theorem writesTo (h : SegmentsOf s before opened behind) (o : WalOp) :
    ∃ before' opened' behind', SegmentsOf (WalFiles.writesTo s o) before' opened' behind' ∧
      recordsOf before' opened' behind' = recordsOf before opened behind := by
  rw [WalFiles.writesTo]
  split_ifs
  · obtain ⟨before', opened', behind', h', hrecords, -⟩ := h.rotate
    exact ⟨before', opened', behind', h', hrecords⟩
  · exact ⟨before, opened, behind, h, rfl⟩

end SegmentsOf

/-- **An append** writes the record that the counter numbers to the segment that it has opened. -/
theorem walAppend_eq (s : WalFiles × WalHandle) (o : WalOp) :
    s.1.walAppend s.2 o = ((writesTo s o).1.write (writesTo s o).2.fd (o.entry s.2.lsn).bytes,
      ⟨(writesTo s o).2.fd, s.2.lsn + 1, (writesTo s o).2.size + (24 + o.op.length)⟩) := by
  have hlen : (o.entry s.2.lsn).bytes.length = 24 + o.op.length :=
    (o.entry s.2.lsn).length_bytes
  rw [WalFiles.walAppend, writesTo, hlen]
  split_ifs
  · rfl
  · rfl

/-- The segment that a start opens. -/
theorem Groups.walOpen {f : WalFiles} {gs : List RecordGroup} (h : Groups f gs) (hne : gs ≠ [])
    (lsn : UInt64) : ∃ before opened behind,
    SegmentsOf (f.walOpen.1, ⟨f.walOpen.2, lsn, 0⟩) before opened behind ∧
      recordsOf before opened behind = gs.flatMap RecordGroup.records ∧
      (gs.length < 2 ^ 64 → behind = [] ∧ before.length ≤ gs.length) := by
  rw [WalFiles.walOpen]
  dsimp only
  split_ifs with hfull
  · obtain ⟨before, opened, behind, hsegments, hrecords, hcases⟩ :=
      h.exists_segmentsOf hne lsn 0
    refine ⟨before, opened, behind, hsegments, hrecords, fun hlt => ?_⟩
    rcases hcases with ⟨-, hbehind, hbefore⟩ | ⟨hlength, -⟩
    · exact ⟨hbehind, by rw [hbefore]⟩
    · exact absurd hlength hlt.ne
  · obtain ⟨init, last, rfl⟩ := (List.eq_nil_or_concat' gs).resolve_left hne
    have hmem : last ∈ init ++ [last] := List.mem_append_right _ (List.mem_singleton_self last)
    have hsegno : walSegnoOfNames f.keys = UInt64.ofNat last.segno := by
      apply UInt64.toNat_inj.mp
      rw [h.shows.walSegnoOfNames_eq (List.Perm.refl _), h.walSegno_eq, h.toNat_segno hmem]
    have hopen : f.openAppend (walFilename (UInt64.ofNat last.segno)) = f := by
      rw [WalFiles.openAppend, if_pos]
      exact (h.shows.mem_walFilename_iff _).mpr
        ⟨last.segment, List.mem_map_of_mem hmem, (h.toNat_segno hmem).symm⟩
    rw [hsegno, hopen]
    exact ⟨init, last, [], ⟨h, rfl⟩, rfl, fun _ => ⟨rfl, by simp⟩⟩

/-- **A restart** keeps the records and sets the counter to the number of one of them, or to
zero. -/
theorem Groups.restart {f : WalFiles} {gs : List RecordGroup} (h : Groups f gs) (hne : gs ≠ []) :
    ∃ before opened behind, SegmentsOf f.walCreate before opened behind ∧
      recordsOf before opened behind = gs.flatMap RecordGroup.records ∧
      f.walCreate.2.lsn = (opened.records.getLast?.map WalEntry.lsn).getD 0 ∧
      (gs.length < 2 ^ 64 → behind = [] ∧ before.length ≤ gs.length) := by
  obtain ⟨before, opened, behind, hsegments, hrecords, hlast⟩ :=
    h.walOpen hne (walSegmentMaxLsn (f.walOpen.1.read f.walOpen.2))
  refine ⟨before, opened, behind, hsegments, hrecords, ?_, hlast⟩
  have hread : f.walOpen.1.read f.walOpen.2 = opened.segment.data := hsegments.read_fd
  rw [← walSegmentMaxLsn_segment, ← hread]
  rfl

/-! ### The records in the order of the appends -/

theorem recordsOf_push (before : List RecordGroup) (opened : RecordGroup)
    (behind : List RecordGroup) (e : WalEntry) :
    recordsOf before (opened.push e) behind =
      (before.flatMap RecordGroup.records ++ opened.records) ++
        e :: behind.flatMap RecordGroup.records := by
  simp only [recordsOf, RecordGroup.push, List.flatMap_append, List.flatMap_cons, List.append_assoc,
    List.singleton_append]

theorem recordsOf_eq (before : List RecordGroup) (opened : RecordGroup)
    (behind : List RecordGroup) :
    recordsOf before opened behind =
      (before.flatMap RecordGroup.records ++ opened.records) ++
        behind.flatMap RecordGroup.records := by
  simp only [recordsOf, List.flatMap_append, List.flatMap_cons, List.append_assoc]

/-- The log holds the records `rs`, in the order in which they were appended. The first one has the
number zero. -/
structure Appended (s : WalFiles × WalHandle) (rs : List WalEntry) : Prop where
  segments : ∃ before opened behind, SegmentsOf s before opened behind ∧
    rs.Perm (recordsOf before opened behind)
  first : (rs.map WalEntry.lsn ++ [s.2.lsn]).head? = some 0

namespace Appended

variable {s : WalFiles × WalHandle} {rs : List WalEntry}

theorem append (h : Appended s rs) (o : WalOp) :
    Appended (logStep s (.append o)) (rs ++ [o.entry s.2.lsn]) ∧
      (logStep s (.append o)).2.lsn = s.2.lsn + 1 := by
  obtain ⟨⟨before, opened, behind, hsegments, hperm⟩, hfirst⟩ := h
  obtain ⟨before', opened', behind', hto, hrecords⟩ := hsegments.writesTo o
  rw [logStep, walAppend_eq]
  refine ⟨⟨⟨before', opened'.push (o.entry s.2.lsn), behind', hto.write _ _ _, ?_⟩, ?_⟩, rfl⟩
  · rw [recordsOf_push]
    refine List.Perm.trans ?_ List.perm_middle.symm
    rw [← recordsOf_eq, hrecords]
    exact (List.perm_append_singleton _ _).trans (hperm.cons _)
  · rw [List.map_append, List.map_singleton, WalOp.entry_lsn,
      List.head?_append_of_ne_nil _ (by simp)]
    exact hfirst

theorem rotate (h : Appended s rs) :
    Appended (logStep s .rotate) rs ∧ (logStep s .rotate).2.lsn = s.2.lsn := by
  obtain ⟨⟨before, opened, behind, hsegments, hperm⟩, hfirst⟩ := h
  obtain ⟨before', opened', behind', hrotated, hrecords, -⟩ := hsegments.rotate
  exact ⟨⟨⟨before', opened', behind', hrotated, hrecords ▸ hperm⟩, hfirst⟩, rfl⟩

theorem zero_mem (h : Appended s rs) (hrs : rs ≠ []) : 0 ∈ rs.map WalEntry.lsn := by
  have hfirst := h.first
  rw [List.head?_append_of_ne_nil _ (by simpa using hrs)] at hfirst
  exact List.mem_of_mem_head? hfirst

/-- After a restart the counter stands at the number of a record, or at zero without any. -/
theorem restart (h : Appended s rs) :
    Appended (logStep s .restart) rs ∧ (rs = [] → (logStep s .restart).2.lsn = 0) ∧
      (rs ≠ [] → (logStep s .restart).2.lsn ∈ rs.map WalEntry.lsn) := by
  obtain ⟨before, opened, behind, hsegments, hperm⟩ := h.segments
  obtain ⟨before', opened', behind', hcreated, hrecords, hlsn, -⟩ :=
    hsegments.groups.restart (by simp)
  have hperm' : rs.Perm (recordsOf before' opened' behind') := hrecords ▸ hperm
  have hnil : rs = [] → (logStep s .restart).2.lsn = 0 := by
    rintro rfl
    have hopened : opened'.records = [] := by
      have hnil := hperm'.symm.eq_nil
      rw [recordsOf_eq, List.append_eq_nil_iff, List.append_eq_nil_iff] at hnil
      exact hnil.1.2
    rw [logStep, hlsn, hopened]
    rfl
  have hmem : rs ≠ [] → (logStep s .restart).2.lsn ∈ rs.map WalEntry.lsn := by
    intro hrs
    rw [logStep, hlsn]
    rcases hlast : opened'.records.getLast? with - | e
    · exact h.zero_mem hrs
    · refine List.mem_map_of_mem (hperm'.mem_iff.mpr ?_)
      rw [recordsOf_eq]
      exact List.mem_append_left _ (List.mem_append_right _ (List.mem_of_getLast? hlast))
  refine ⟨⟨⟨before', opened', behind', hcreated, hperm'⟩, ?_⟩, hnil, hmem⟩
  by_cases hrs : rs = []
  · rw [hnil hrs, hrs]
    rfl
  · have hfirst := h.first
    have hne : rs.map WalEntry.lsn ≠ [] := by simpa using hrs
    rw [List.head?_append_of_ne_nil _ hne] at hfirst ⊢
    exact hfirst

end Appended

theorem segmentsOf_start : SegmentsOf (WalFiles.walCreate ∅) [] ⟨0, []⟩ [] where
  groups := ⟨(shows_empty.walCreate (by decide)).shows, rfl⟩
  fd_eq := rfl

theorem appended_start : Appended (WalFiles.walCreate ∅) [] :=
  ⟨⟨[], ⟨0, []⟩, [], segmentsOf_start, List.Perm.refl _⟩, rfl⟩

/-- A run extends the records it starts from by one for every append. -/
theorem foldl_appended {s : WalFiles × WalHandle} {rs : List WalEntry} (h : Appended s rs)
    (steps : List LogStep) :
    ∃ rs', Appended (steps.foldl logStep s) (rs ++ rs') ∧
      rs'.length = steps.countP LogStep.isAppend := by
  induction steps generalizing s rs with
  | nil => exact ⟨[], by simpa using h, rfl⟩
  | cons step steps ih =>
    cases step with
    | append o =>
      obtain ⟨rs', hview, hlen⟩ := ih (h.append o).1
      refine ⟨o.entry s.2.lsn :: rs', by simpa using hview, ?_⟩
      rw [List.length_cons, hlen, List.countP_cons_of_pos rfl]
    | rotate =>
      obtain ⟨rs', hview, hlen⟩ := ih h.rotate.1
      exact ⟨rs', hview, by rw [hlen, List.countP_cons_of_neg Bool.false_ne_true]⟩
    | restart =>
      obtain ⟨rs', hview, hlen⟩ := ih h.restart.1
      exact ⟨rs', hview, by rw [hlen, List.countP_cons_of_neg Bool.false_ne_true]⟩

/-- The records after a run are as many as its appends. -/
theorem appended_logRun (steps : List LogStep) :
    ∃ rs, Appended (logRun steps) rs ∧ rs.length = steps.countP LogStep.isAppend := by
  obtain ⟨rs, hview, hlen⟩ := foldl_appended appended_start steps
  exact ⟨rs, hview, hlen⟩

/-- Increasing sequence numbers are distinct. -/
theorem Appended.nodup {s : WalFiles × WalHandle} {rs : List WalEntry} (h : Appended s rs)
    (hincreasing : s.1.LsnsIncreasing) : (rs.map WalEntry.lsn).Nodup := by
  obtain ⟨before, opened, behind, hsegments, hperm⟩ := h.segments
  have hlt := hsegments.groups.lsnsIncreasing_iff.mp hincreasing
  exact (hperm.map WalEntry.lsn).nodup_iff.mpr (hlt.imp UInt64.ne_of_lt)

/-! ### Runs with a restart between appends -/

/-- A run with an append that starts with a counter at the number of a record uses the number
again. -/
theorem Appended.not_nodup {s : WalFiles × WalHandle} {rs : List WalEntry} (h : Appended s rs)
    (hstale : s.2.lsn ∈ rs.map WalEntry.lsn) {steps : List LogStep}
    (hsteps : steps.countP LogStep.isAppend ≠ 0) :
    ¬(steps.foldl logStep s).1.LsnsIncreasing := by
  induction steps generalizing s with
  | nil => exact absurd rfl hsteps
  | cons step steps ih =>
    cases step with
    | append o =>
      obtain ⟨rs', hview, -⟩ := foldl_appended (h.append o).1 steps
      intro hincreasing
      have hnodup := hview.nodup hincreasing
      rw [List.append_assoc, List.map_append, List.nodup_append] at hnodup
      -- the record behind those of `rs` carries the stale counter
      exact hnodup.2.2 _ hstale s.2.lsn (by simp) rfl
    | rotate =>
      obtain ⟨hview, hlsn⟩ := h.rotate
      exact ih hview (hlsn ▸ hstale) (by simpa [LogStep.isAppend] using hsteps)
    | restart =>
      have hrs : rs ≠ [] := by
        rintro rfl
        cases hstale
      obtain ⟨hview, -, hmem⟩ := h.restart
      exact ih hview (hmem hrs) (by simpa [LogStep.isAppend] using hsteps)

/-- A run with appends on both sides of a restart uses a sequence number again. -/
theorem not_lsnsIncreasing_of_restart {before after : List LogStep}
    (hbefore : before.countP LogStep.isAppend ≠ 0) (hafter : after.countP LogStep.isAppend ≠ 0) :
    ¬(logRun (before ++ .restart :: after)).1.LsnsIncreasing := by
  obtain ⟨rs, hview, hlen⟩ := appended_logRun before
  have hrs : rs ≠ [] := by
    rintro rfl
    exact hbefore hlen.symm
  obtain ⟨hrestarted, -, hmem⟩ := hview.restart
  have hstale := hrestarted.not_nodup (hmem hrs) hafter
  rwa [logRun, List.foldl_append, List.foldl_cons]

/-! ### Runs without a restart between appends -/

theorem RestartsAtEnds.of_concat {steps : List LogStep} {step : LogStep}
    (h : RestartsAtEnds (steps ++ [step])) : RestartsAtEnds steps := by
  intro before after hsteps
  refine (h before (after ++ [step]) (by simp [hsteps])).imp_right fun hafter => ?_
  rw [List.countP_append] at hafter
  omega

/-- The restarts in front of the last append have no appends in front of them. -/
theorem RestartsAtEnds.countP_eq_zero {steps : List LogStep} {o : WalOp}
    (h : RestartsAtEnds (steps ++ [.append o])) (before after : List LogStep)
    (hsteps : steps = before ++ .restart :: after) : before.countP LogStep.isAppend = 0 := by
  refine (h before (after ++ [.append o]) (by simp [hsteps])).resolve_right ?_
  rw [List.countP_append]
  exact Nat.succ_ne_zero _

theorem countP_concat (steps : List LogStep) (step : LogStep) :
    (steps ++ [step]).countP LogStep.isAppend =
      steps.countP LogStep.isAppend + if step.isAppend then 1 else 0 := by
  rw [List.countP_append, List.countP_singleton]

/-- Without a restart between appends, the records carry the numbers from zero on, in the order of
the appends. Before the first restart that follows an append, the counter stands at the number of
records. -/
theorem lsns_logRun (steps : List LogStep) (h : RestartsAtEnds steps) :
    ∃ rs, Appended (logRun steps) rs ∧
      rs.map WalEntry.lsn =
        (List.range (steps.countP LogStep.isAppend)).map UInt64.ofNat ∧
      ((∀ before after, steps = before ++ .restart :: after →
        before.countP LogStep.isAppend = 0) →
        (logRun steps).2.lsn = UInt64.ofNat (steps.countP LogStep.isAppend)) := by
  induction steps using List.reverseRecOn with
  | nil => exact ⟨[], appended_start, rfl, fun _ => rfl⟩
  | append_singleton steps step ih =>
    obtain ⟨rs, hview, hlsns, hcounter⟩ := ih h.of_concat
    rw [logRun_concat]
    have hcount := countP_concat steps step
    have hpref : (∀ before after, steps ++ [step] = before ++ .restart :: after →
        before.countP LogStep.isAppend = 0) → (logRun steps).2.lsn =
          UInt64.ofNat (steps.countP LogStep.isAppend) := fun hno =>
      hcounter fun before after hsteps => hno before (after ++ [step]) (by simp [hsteps])
    cases step with
    | append o =>
      replace hcount : (steps ++ [LogStep.append o]).countP LogStep.isAppend =
          steps.countP LogStep.isAppend + 1 := hcount
      -- the appended record lies behind every restart of the run
      have hlsn := hcounter h.countP_eq_zero
      obtain ⟨hview', hlsn'⟩ := hview.append o
      refine ⟨_, hview', ?_, fun _ => ?_⟩
      · rw [hcount, List.range_succ, List.map_append, List.map_append, hlsns, List.map_singleton,
          List.map_singleton, WalOp.entry_lsn, hlsn]
      · rw [hlsn', hlsn, hcount, UInt64.ofNat_add]
        rfl
    | rotate =>
      replace hcount : (steps ++ [LogStep.rotate]).countP LogStep.isAppend =
          steps.countP LogStep.isAppend := hcount
      obtain ⟨hview', hlsn'⟩ := hview.rotate
      rw [hcount]
      exact ⟨rs, hview', hlsns, fun hno => hlsn'.trans (hpref hno)⟩
    | restart =>
      replace hcount : (steps ++ [LogStep.restart]).countP LogStep.isAppend =
          steps.countP LogStep.isAppend := hcount
      obtain ⟨hview', hnil, -⟩ := hview.restart
      rw [hcount]
      refine ⟨rs, hview', hlsns, fun hno => ?_⟩
      have hzero : steps.countP LogStep.isAppend = 0 := hno steps [] rfl
      have hrs : rs = [] := by
        have hlen := congrArg List.length hlsns
        rw [hzero] at hlen
        simpa using hlen
      rw [hzero]
      exact hnil hrs

/-! ### The order of the segments -/

theorem SegmentsOf.lsnsIncreasing_iff {s : WalFiles × WalHandle}
    {before behind : List RecordGroup} {opened : RecordGroup}
    (h : SegmentsOf s before opened behind) : s.1.LsnsIncreasing ↔
      ((recordsOf before opened behind).map WalEntry.lsn).Pairwise (· < ·) :=
  h.groups.lsnsIncreasing_iff

theorem SegmentsOf.noneBehind_iff {s : WalFiles × WalHandle} {before behind : List RecordGroup}
    {opened : RecordGroup} (h : SegmentsOf s before opened behind) :
    NoneBehind s ↔ behind.flatMap RecordGroup.records = [] := by
  have hopened := h.groups.toNat_segno (@mem_opened before behind opened)
  rw [List.flatMap_eq_nil_iff]
  constructor
  · intro hnone g hg
    have hmem : g ∈ before ++ opened :: behind :=
      List.mem_append_right _ (List.mem_cons_of_mem _ hg)
    rw [← RecordGroup.segment_data_eq_nil, ← h.groups.read_segment hmem]
    refine hnone _ ?_
    rw [h.fd_eq, walFilename_lt_walFilename, UInt64.lt_iff_toNat_lt, hopened,
      h.groups.toNat_segno hmem]
    exact h.lt_behind hg
  · intro hnil segno hlt
    rw [h.fd_eq, walFilename_lt_walFilename, UInt64.lt_iff_toNat_lt, hopened] at hlt
    by_cases hfile : walFilename segno ∈ s.1
    · obtain ⟨t, ht, hsegno⟩ := (h.groups.shows.mem_walFilename_iff segno).mp hfile
      obtain ⟨g, hg, rfl⟩ := List.mem_map.mp ht
      rw [RecordGroup.segment_segno] at hsegno
      have hread := h.groups.read_segment hg
      rw [hsegno, UInt64.ofNat_toNat] at hread
      rw [hread, RecordGroup.segment_data_eq_nil]
      rcases List.mem_append.mp hg with hg | hg
      · exact absurd (h.before_lt hg) (by omega)
      · rcases List.mem_cons.mp hg with rfl | hg
        · exact absurd hsegno hlt.ne
        · exact hnil g hg
    · rw [WalFiles.read, AList.lookup_eq_none.mpr hfile, Option.getD_none]

/-- A number larger than all others keeps the order only behind them. -/
theorem pairwise_insert_iff {l₁ l₂ : List UInt64} {n : UInt64} (h : ∀ m ∈ l₁ ++ l₂, m < n) :
    (l₁ ++ n :: l₂).Pairwise (· < ·) ↔ (l₁ ++ l₂).Pairwise (· < ·) ∧ l₂ = [] := by
  constructor
  · intro hlt
    refine ⟨hlt.sublist (List.Sublist.append_left (List.sublist_cons_self _ _) _), ?_⟩
    by_contra hne
    obtain ⟨m, hm⟩ := List.exists_mem_of_ne_nil _ hne
    have hnm := (List.pairwise_cons.mp (List.pairwise_append.mp hlt).2.1).1 m hm
    exact UInt64.lt_asymm hnm (h m (List.mem_append_right _ hm))
  · rintro ⟨hlt, rfl⟩
    rw [List.append_nil] at h hlt
    exact List.pairwise_append.mpr ⟨hlt, List.pairwise_singleton _ _, fun m hm m' hm' =>
      List.mem_singleton.mp hm' ▸ h m hm⟩

/-- **An append** of a record with a number above all others keeps their order if it is read behind
them. -/
theorem Appended.lsnsIncreasing_append_iff {s : WalFiles × WalHandle} {rs : List WalEntry}
    (h : Appended s rs) (hlt : ∀ e ∈ rs, e.lsn < s.2.lsn) (o : WalOp) :
    (logStep s (.append o)).1.LsnsIncreasing ↔
      s.1.LsnsIncreasing ∧ NoneBehind (writesTo s o) := by
  obtain ⟨before, opened, behind, hsegments, hperm⟩ := h.segments
  obtain ⟨before', opened', behind', hto, hrecords⟩ := hsegments.writesTo o
  have hwritten := hto.write (o.entry s.2.lsn) (s.2.lsn + 1)
    ((writesTo s o).2.size + (24 + o.op.length))
  have hbelow : ∀ m ∈ (before'.flatMap RecordGroup.records ++ opened'.records).map WalEntry.lsn ++
      (behind'.flatMap RecordGroup.records).map WalEntry.lsn, m < s.2.lsn := by
    intro m hm
    rw [← List.map_append, ← recordsOf_eq, hrecords] at hm
    obtain ⟨e, he, rfl⟩ := List.mem_map.mp hm
    exact hlt e (hperm.mem_iff.mpr he)
  rw [logStep, walAppend_eq, hwritten.lsnsIncreasing_iff, hsegments.lsnsIncreasing_iff,
    recordsOf_push, List.map_append, List.map_cons, WalOp.entry_lsn, pairwise_insert_iff hbelow,
    ← List.map_append, ← recordsOf_eq, hrecords, List.map_eq_nil_iff, hto.noneBehind_iff]

theorem Appended.lsnsIncreasing_rotate_iff {s : WalFiles × WalHandle} {rs : List WalEntry}
    (h : Appended s rs) :
    (logStep s .rotate).1.LsnsIncreasing ↔ s.1.LsnsIncreasing := by
  obtain ⟨before, opened, behind, hsegments, -⟩ := h.segments
  obtain ⟨before', opened', behind', hrotated, hrecords, -⟩ := hsegments.rotate
  rw [logStep, hrotated.lsnsIncreasing_iff, hsegments.lsnsIncreasing_iff, hrecords]

theorem Appended.lsnsIncreasing_restart_iff {s : WalFiles × WalHandle} {rs : List WalEntry}
    (h : Appended s rs) :
    (logStep s .restart).1.LsnsIncreasing ↔ s.1.LsnsIncreasing := by
  obtain ⟨before, opened, behind, hsegments, -⟩ := h.segments
  obtain ⟨before', opened', behind', hcreated, hrecords, -⟩ :=
    hsegments.groups.restart (by simp)
  rw [logStep, hcreated.lsnsIncreasing_iff, hsegments.lsnsIncreasing_iff, hrecords, recordsOf]

theorem appendsBehind_concat_iff {steps : List LogStep} {step : LogStep} :
    AppendsBehind (steps ++ [step]) ↔
      AppendsBehind steps ∧ ∀ o, step = .append o → NoneBehind (writesTo (logRun steps) o) := by
  constructor
  · intro h
    refine ⟨fun before o after hsteps => h before o (after ++ [step]) (by simp [hsteps]), ?_⟩
    rintro o rfl
    exact h steps o [] rfl
  · rintro ⟨h, hlast⟩ before o after hsteps
    rcases List.eq_nil_or_concat' after with rfl | ⟨after, step', rfl⟩
    · obtain ⟨rfl, hstep⟩ := List.append_inj' hsteps rfl
      exact hlast o (List.singleton_inj.mp hstep)
    · rw [← List.cons_append, ← List.append_assoc] at hsteps
      exact h before o after (List.append_inj' hsteps rfl).1

/-- The counter is above the numbers of fewer than `2 ^ 64` records. -/
theorem lt_lsn_of_range {rs : List WalEntry} {n : ℕ} {lsn : UInt64} (hn : n < 2 ^ 64)
    (hlsns : rs.map WalEntry.lsn = (List.range n).map UInt64.ofNat) (hlsn : lsn = UInt64.ofNat n) :
    ∀ e ∈ rs, e.lsn < lsn := by
  intro e he
  have hmem : e.lsn ∈ rs.map WalEntry.lsn := List.mem_map_of_mem he
  rw [hlsns] at hmem
  obtain ⟨i, hi, hie⟩ := List.mem_map.mp hmem
  have hi := List.mem_range.mp hi
  have hsize : UInt64.size = 2 ^ 64 := rfl
  rw [hlsn, ← hie, UInt64.lt_iff_toNat_lt, UInt64.toNat_ofNat_of_lt' (by omega),
    UInt64.toNat_ofNat_of_lt' (by omega)]
  exact hi

/-- Without a restart between appends, the numbers increase as long as each record is written
behind all others. -/
theorem lsnsIncreasing_logRun_iff_appendsBehind (steps : List LogStep) (h : RestartsAtEnds steps)
    (hle : steps.countP LogStep.isAppend ≤ 2 ^ 64) :
    (logRun steps).1.LsnsIncreasing ↔ AppendsBehind steps := by
  induction steps using List.reverseRecOn with
  | nil =>
    have hstart := segmentsOf_start.groups.lsnsIncreasing_iff
    refine iff_of_true (hstart.mpr List.Pairwise.nil) fun before o after hsteps => ?_
    exact absurd hsteps.symm (by simp)
  | append_singleton steps step ih =>
    rw [countP_concat] at hle
    obtain ⟨rs, hview, hlsns, hcounter⟩ := lsns_logRun steps h.of_concat
    have ih := ih h.of_concat (by omega)
    rw [logRun_concat, appendsBehind_concat_iff, ← ih]
    cases step with
    | append o =>
      have hlt : steps.countP LogStep.isAppend < 2 ^ 64 := hle
      have hlsn := hcounter h.countP_eq_zero
      rw [hview.lsnsIncreasing_append_iff (lt_lsn_of_range hlt hlsns hlsn)]
      refine and_congr_right fun _ => ⟨?_, fun hbehind => hbehind o rfl⟩
      rintro hbehind o' ⟨⟩
      exact hbehind
    | rotate =>
      rw [hview.lsnsIncreasing_rotate_iff]
      exact (and_iff_left (fun o ho => by cases ho)).symm
    | restart =>
      rw [hview.lsnsIncreasing_restart_iff]
      exact (and_iff_left (fun o ho => by cases ho)).symm

/-- After fewer than `2 ^ 64` steps, the open segment is the last one. -/
theorem segmentsOf_logRun (steps : List LogStep) (h : steps.length < 2 ^ 64) :
    ∃ before opened, SegmentsOf (logRun steps) before opened [] ∧
      before.length ≤ steps.length := by
  induction steps using List.reverseRecOn with
  | nil => exact ⟨[], _, segmentsOf_start, le_rfl⟩
  | append_singleton steps step ih =>
    rw [List.length_append, List.length_singleton] at h ⊢
    obtain ⟨before, opened, hsegments, hlength⟩ := ih (by omega)
    have hgroups : (before ++ [opened]).length < 2 ^ 64 := by
      rw [List.length_append, List.length_singleton]
      omega
    have hrotated : ∃ before' opened',
        SegmentsOf ((logRun steps).1.walRotate (logRun steps).2) before' opened' [] ∧
          before'.length ≤ steps.length + 1 := by
      obtain ⟨before', opened', behind', hrotated, -, hcases⟩ := hsegments.rotate
      rcases hcases with ⟨-, rfl, rfl⟩ | ⟨hmax, -⟩
      · refine ⟨_, _, hrotated, ?_⟩
        rw [List.length_append, List.length_singleton]
        omega
      · exact absurd hmax hgroups.ne
    rw [logRun_concat]
    cases step with
    | append o =>
      have hto : ∃ before' opened', SegmentsOf (writesTo (logRun steps) o) before' opened' [] ∧
          before'.length ≤ steps.length + 1 := by
        rw [writesTo]
        split_ifs
        · exact hrotated
        · exact ⟨before, opened, hsegments, by omega⟩
      obtain ⟨before', opened', hto, hlength'⟩ := hto
      rw [logStep, walAppend_eq]
      exact ⟨before', _, hto.write _ _ _, hlength'⟩
    | rotate => exact hrotated
    | restart =>
      obtain ⟨before', opened', behind', hcreated, -, -, hlast⟩ :=
        hsegments.groups.restart (by simp)
      obtain ⟨rfl, hlength'⟩ := hlast hgroups
      rw [List.length_append, List.length_singleton] at hlength'
      exact ⟨before', opened', hcreated, by omega⟩

/-- **Runs with fewer than `2 ^ 64` steps** write every record behind all others. -/
theorem appendsBehind_of_length_lt {steps : List LogStep} (h : steps.length < 2 ^ 64) :
    AppendsBehind steps := by
  rintro before o after rfl
  rw [List.length_append, List.length_cons] at h
  obtain ⟨init, opened, hsegments, hlength⟩ := segmentsOf_logRun before (by omega)
  rw [writesTo]
  split_ifs
  · obtain ⟨before', opened', behind', hrotated, -, hcases⟩ := hsegments.rotate
    rw [List.length_append, List.length_singleton] at hcases
    obtain ⟨-, rfl, -⟩ := hcases.resolve_right fun hmax => by omega
    exact hrotated.noneBehind_iff.mpr rfl
  · exact hsegments.noneBehind_iff.mpr rfl

/-! ### When the numbers increase -/

/-- Distinct sequence numbers are at most `2 ^ 64`. -/
theorem length_le_of_nodup {ls : List UInt64} (h : ls.Nodup) : ls.length ≤ 2 ^ 64 := by
  have hnodup : (ls.map UInt64.toNat).Nodup := h.map fun _ _ => UInt64.toNat_inj.mp
  have hsub : ls.map UInt64.toNat ⊆ List.range (2 ^ 64) := by
    intro n hn
    obtain ⟨l, -, rfl⟩ := List.mem_map.mp hn
    exact List.mem_range.mpr l.toNat_lt
  have hle := (hnodup.subperm hsub).length_le
  rwa [List.length_map, List.length_range] at hle

/-- **When the sequence numbers increase.** The sequence numbers of the records of a run are
strictly increasing exactly if no restart lies between two appends, the counter does not pass its
largest value, and no append writes to a segment in front of other records, which takes `2 ^ 64`
segments. -/
theorem lsnsIncreasing_logRun_iff (steps : List LogStep) :
    (logRun steps).1.LsnsIncreasing ↔
      RestartsAtEnds steps ∧ steps.countP LogStep.isAppend ≤ 2 ^ 64 ∧ AppendsBehind steps := by
  constructor
  · intro h
    have hends : RestartsAtEnds steps := by
      rintro before after rfl
      by_contra hboth
      rw [not_or] at hboth
      exact not_lsnsIncreasing_of_restart hboth.1 hboth.2 h
    have hle : steps.countP LogStep.isAppend ≤ 2 ^ 64 := by
      obtain ⟨rs, hview, hlen⟩ := appended_logRun steps
      have hle := length_le_of_nodup (hview.nodup h)
      rwa [List.length_map, hlen] at hle
    exact ⟨hends, hle, (lsnsIncreasing_logRun_iff_appendsBehind steps hends hle).mp h⟩
  · rintro ⟨hends, hle, hbehind⟩
    exact (lsnsIncreasing_logRun_iff_appendsBehind steps hends hle).mpr hbehind

/-- Two appends with a restart between them write the same sequence number twice. -/
theorem not_lsnsIncreasing_append_restart_append :
    ¬(logRun [.append ⟨1, [], by decide⟩, .restart,
      .append ⟨1, [], by decide⟩]).1.LsnsIncreasing :=
  @not_lsnsIncreasing_of_restart [.append ⟨1, [], by decide⟩] [.append ⟨1, [], by decide⟩]
    (by decide) (by decide)

end Racs
