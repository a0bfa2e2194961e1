import Racs.Wal.Files
import Racs.Wal.SequenceNumbers

/-!
# Truncating the log

`racs_wal_truncate` removes the segments whose last eight bytes are below the checkpoint. These are
the sequence number of the last record, which is the largest one of the segment: a restart sets the
counter back, but never below the last record of the segment that it opens. The segment that the
process appends to has the largest number and is kept.

Sequence numbers and segment numbers have 64 bits. In a run of `2 ^ 64` steps they can wrap around.

## Main definitions

* `Racs.WalFiles.walCheckpointLsn`, `Racs.WalFiles.walTruncate` — the functions on files.
* `Racs.logRun` — runs of the log, which those on files agree with below `2 ^ 64` steps.
* `Racs.SegmentsAscend` — the records of each segment are in the order of their numbers.
* `Racs.TruncatesSafely` — a truncation after the run only removes what the replay skips.

## Main results

* `Racs.WalFiles.Shows.walTruncate` — the truncation does to the files what it does to the log.
* `Racs.SegmentsAscend.step`, `Racs.segmentsAscend_logRun` — the invariant of the runs.
* `Racs.truncatesSafely` — truncations are safe in every run with fewer than `2 ^ 64` steps.
-/

namespace Racs

open ByteBuffer

namespace WalDir

/-- **Which segments a truncation removes.** -/
theorem lookup_walTruncate {d : WalDir} (h : d.segments.Pairwise (·.segno < ·.segno)) (segno : ℕ) :
    (walTruncate d).lookup segno =
      if ¬segno = walSegno d ∧ walSegmentMaxLsn (d.read segno) < walCheckpointLsn d then none
      else d.lookup segno := by
  have hnodup : (d.segments.map Segment.segno).Nodup := List.pairwise_map.mpr (h.imp ne_of_lt)
  ext data
  rw [lookup_eq_some_iff (d := walTruncate d) (hnodup.sublist (List.filter_sublist.map _)),
    walTruncate, List.mem_filter, ← lookup_eq_some_iff hnodup, decide_eq_true_eq]
  split_ifs with hremoved
  · simp only [iff_false, not_and, not_or, not_not]
    intro hdata
    rw [read, ← lookup, hdata] at hremoved
    exact hremoved
  · refine and_iff_left_of_imp fun hdata => ?_
    rw [read, ← lookup, hdata, not_and_or, not_not] at hremoved
    exact hremoved

end WalDir

namespace WalFiles

/-! ### Truncation on files -/

/-- `racs_wal_checkpoint_lsn`. -/
def walCheckpointLsn (f : WalFiles) : UInt64 :=
  match f.lookup manifestName with
  | none => 0
  | some bytes => ((readUint64 bytes 0).map Prod.fst).getD 0

/-- One turn of the loop of `racs_wal_truncate`. -/
def walTruncateFile (activeWal : List Char) (checkpointLsn : UInt64) (f : WalFiles)
    (path : List Char) : WalFiles :=
  if path = activeWal then f
  else if basename path = manifestName then f
  else if walSegmentMaxLsn (f.read (basename path)) < checkpointLsn then f.erase (basename path)
  else f

/-- `racs_wal_truncate` in the directory `dir`, where `readdir` returns these names. -/
def walTruncate (f : WalFiles) (dir : List Char) (names : List (List Char)) : WalFiles :=
  let segno := walSegnoOfNames names
  let checkpointLsn := f.walCheckpointLsn
  let activeWal := dir ++ '/' :: walFilename segno
  (getSortedFilelist (paths dir names)).foldl (walTruncateFile activeWal checkpointLsn) f

/-- One turn removes the file, if its last record is old and it is neither the open segment nor the
manifest. -/
theorem lookup_walTruncateFile (activeWal : List Char) (checkpointLsn : UInt64) (f : WalFiles)
    (path name : List Char) :
    (walTruncateFile activeWal checkpointLsn f path).lookup name =
      if (basename path = name ∧ path ≠ activeWal) ∧ name ≠ manifestName ∧
        walSegmentMaxLsn (f.read name) < checkpointLsn then none else f.lookup name := by
  by_cases hname : basename path = name
  · subst hname
    rw [walTruncateFile]
    split_ifs with hactive hmanifest hold <;> simp_all
  · have hother : (walTruncateFile activeWal checkpointLsn f path).lookup name = f.lookup name := by
      rw [walTruncateFile]
      split_ifs
      · rfl
      · rfl
      · exact AList.lookup_erase_ne (Ne.symm hname)
      · rfl
    rw [hother, if_neg fun h => hname h.1.1]

/-- The loop removes the files of the list with an old last record, other than the open segment and
the manifest. -/
theorem lookup_foldl_walTruncateFile (activeWal : List Char) (checkpointLsn : UInt64)
    (f : WalFiles) (paths : List (List Char)) (name : List Char) :
    (paths.foldl (walTruncateFile activeWal checkpointLsn) f).lookup name =
      if (∃ path ∈ paths, basename path = name ∧ path ≠ activeWal) ∧ name ≠ manifestName ∧
        walSegmentMaxLsn (f.read name) < checkpointLsn then none else f.lookup name := by
  induction paths generalizing f with
  | nil => simp
  | cons path paths ih =>
    have hturn := lookup_walTruncateFile activeWal checkpointLsn f path name
    rw [List.foldl_cons, ih]
    split_ifs at hturn with hremoved
    · rw [hturn, ite_self, if_pos ⟨⟨path, List.mem_cons_self, hremoved.1⟩, hremoved.2⟩]
    · have hread : (walTruncateFile activeWal checkpointLsn f path).read name = f.read name := by
        rw [read, hturn, read]
      rw [hturn, hread]
      refine if_congr ?_ rfl rfl
      rw [List.exists_mem_cons_iff, or_and_right, or_iff_right hremoved]

namespace Shows

variable {f : WalFiles} {d : WalDir}

theorem walCheckpointLsn_eq (h : Shows f d) : f.walCheckpointLsn = Racs.walCheckpointLsn d := by
  have hlookup := h.lookup_manifest
  rcases hmanifest : d.manifest with - | bytes
  · simp only [WalFiles.walCheckpointLsn, Racs.walCheckpointLsn, hlookup, hmanifest]
  · simp only [WalFiles.walCheckpointLsn, Racs.walCheckpointLsn, hlookup, hmanifest]

theorem slash_not_mem (h : Shows f d) {name : List Char} (hname : name ∈ f) : '/' ∉ name := by
  rcases h.names name hname with rfl | ⟨segno, rfl⟩
  · decide
  · exact slash_not_mem_walFilename segno

/-- **Which files a truncation removes**, whatever the order of `readdir`. -/
theorem lookup_walTruncate (h : Shows f d) (dir : List Char) {names : List (List Char)}
    (hnames : names.Perm f.keys) (name : List Char) :
    (f.walTruncate dir names).lookup name =
      if name ≠ walFilename (UInt64.ofNat (walSegno d)) ∧ name ≠ manifestName ∧
        walSegmentMaxLsn (f.read name) < Racs.walCheckpointLsn d then none
      else f.lookup name := by
  have hactive : walSegnoOfNames names = UInt64.ofNat (walSegno d) := by
    rw [← h.walSegnoOfNames_eq hnames, UInt64.ofNat_toNat]
  rw [WalFiles.walTruncate, lookup_foldl_walTruncateFile, h.walCheckpointLsn_eq, hactive]
  by_cases hname : name ∈ f
  · refine if_congr (and_congr_left fun _ => ?_) rfl rfl
    have hbase := basename_append dir (h.slash_not_mem hname)
    constructor
    · rintro ⟨path, hpath, rfl, hne⟩
      obtain ⟨name', hname', rfl⟩ :=
        List.mem_map.mp ((perm_getSortedFilelist _).mem_iff.mp hpath)
      have hmem := AList.mem_keys.mpr (hnames.mem_iff.mp hname')
      rw [basename_append dir (h.slash_not_mem hmem)]
      rintro rfl
      exact hne rfl
    · intro hne
      refine ⟨dir ++ '/' :: name, ?_, hbase, ?_⟩
      · exact (perm_getSortedFilelist _).mem_iff.mpr
          (List.mem_map_of_mem (hnames.mem_iff.mpr (AList.mem_keys.mp hname)))
      · intro heq
        exact hne (List.cons_inj_right '/' |>.mp (List.append_cancel_left heq))
  · rw [AList.lookup_eq_none.mpr hname, ite_self, ite_self]

/-- **A truncation** does to the files what it does to the log. -/
theorem walTruncate (h : Shows f d) (dir : List Char) {names : List (List Char)}
    (hnames : names.Perm f.keys) : Shows (f.walTruncate dir names) (Racs.walTruncate d) := by
  refine ⟨h.ascending.filter _, fun s hs => h.bounded s (List.mem_of_mem_filter hs), ?_, ?_, ?_⟩
  · intro segno
    have hsegno : walFilename segno = walFilename (UInt64.ofNat (walSegno d)) ↔
        segno.toNat = walSegno d := by
      rw [walFilename_injective.eq_iff, ← h.walSegnoOfNames_eq hnames, UInt64.ofNat_toNat,
        UInt64.toNat_inj]
    rw [h.lookup_walTruncate dir hnames, h.read_segment, h.lookup_segment,
      WalDir.lookup_walTruncate h.ascending]
    exact if_congr (and_congr (not_congr hsegno)
      (and_iff_right (walFilename_ne_manifestName segno))) rfl rfl
  · rw [h.lookup_walTruncate dir hnames, if_neg fun hremoved => hremoved.2.1 rfl,
      h.lookup_manifest]
    rfl
  · intro name hname
    refine h.names name (AList.lookup_isSome.mp ?_)
    have hsome := AList.lookup_isSome.mpr hname
    rw [h.lookup_walTruncate dir hnames] at hsome
    split_ifs at hsome with hremoved
    · cases hsome
    · exact hsome

end Shows

end WalFiles

/-! ### Runs on the log -/

/-- One step of the log. -/
def logStep : WalDir × Wal → LogStep → WalDir × Wal
  | (d, w), .append o => walAppend d w o
  | (d, w), .rotate => walRotate d w
  | (d, _), .restart => walCreate d

/-- The log after the steps, from the first start on an empty directory. -/
def logRun (steps : List LogStep) : WalDir × Wal :=
  steps.foldl logStep (walCreate WalDir.empty)

theorem logRun_concat (steps : List LogStep) (step : LogStep) :
    logRun (steps ++ [step]) = logStep (logRun steps) step := by
  rw [logRun, List.foldl_append]
  rfl

namespace WalFiles

/-- **A step** does to the files what it does to the log. -/
theorem Runs.logStep {s : WalFiles × WalHandle} {t : WalDir × Wal} (h : Runs s t)
    (hlt : walSegno t.1 + 1 < 2 ^ 64) (step : LogStep) :
    Runs (WalFiles.logStep s step) (Racs.logStep t step) := by
  cases step with
  | append o => exact h.walAppend hlt o
  | rotate => exact h.walRotate hlt
  | restart => exact h.shows.walCreate hlt

end WalFiles

/-! ### The sequence numbers of a segment -/

/-- The last one of ascending sequence numbers is the largest. -/
theorem le_getLast_lsn {es : List WalEntry} (h : (es.map WalEntry.lsn).Pairwise (· ≤ ·))
    {e : WalEntry} (he : e ∈ es) : e.lsn ≤ (es.getLast?.map WalEntry.lsn).getD 0 := by
  obtain ⟨es, last, rfl⟩ := (List.eq_nil_or_concat' es).resolve_left (List.ne_nil_of_mem he)
  rw [List.map_append, List.pairwise_append] at h
  rw [List.getLast?_concat, Option.map_some, Option.getD_some]
  rcases List.mem_append.mp he with he | he
  · exact h.2.2 _ (List.mem_map_of_mem he) _ (List.mem_singleton_self _)
  · rw [List.mem_singleton.mp he]
    exact UInt64.le_refl _

theorem walCreate_fd_le (d : WalDir) : (walCreate d).2.fd ≤ walSegno d + 1 := by
  simp only [walCreate, walOpen]
  split_ifs
  · exact le_rfl
  · exact Nat.le_succ _

/-- After at most `n` steps: the records of each segment have ascending sequence numbers, those of
the open segment do not exceed the counter, and neither the counter nor the number of a segment
exceeds `n`. -/
structure SegmentsAscend (n : ℕ) (s : WalDir × Wal) (init : List RecordGroup)
    (last : RecordGroup) : Prop where
  layout : WalLayout s.1 s.2 init last
  ascending : ∀ g ∈ init ++ [last], (g.records.map WalEntry.lsn).Pairwise (· ≤ ·)
  le_lsn : ∀ e ∈ last.records, e.lsn ≤ s.2.lsn
  lsn_le : s.2.lsn.toNat ≤ n
  segno_le : last.segno ≤ n

theorem segmentsAscend_start : SegmentsAscend 0 (walCreate WalDir.empty) [] ⟨0, []⟩ where
  layout := (walLayout_create_empty none).1
  ascending g hg := by
    rw [List.mem_singleton.mp hg]
    exact List.Pairwise.nil
  le_lsn e he := absurd he List.not_mem_nil
  lsn_le := le_rfl
  segno_le := le_rfl

namespace SegmentsAscend

variable {n : ℕ} {s : WalDir × Wal} {init : List RecordGroup} {last : RecordGroup}

/-- An append adds a record to the last segment, or to a new one. -/
theorem append (h : SegmentsAscend n s init last) (hn : n + 1 < 2 ^ 64) (o : WalOp) :
    ∃ init' last', SegmentsAscend (n + 1) (logStep s (.append o)) init' last' := by
  have hsucc : (s.2.lsn + 1).toNat = s.2.lsn.toNat + 1 := by
    have := h.lsn_le
    rw [UInt64.toNat_add]
    exact Nat.mod_eq_of_lt (by simp; omega)
  have hlt : s.2.lsn ≤ s.2.lsn + 1 := by
    rw [UInt64.le_iff_toNat_le, hsucc]
    omega
  rcases h.layout.append_cases o with ⟨-, hw, hlayout⟩ | ⟨-, hw, hlayout⟩
  · refine ⟨init, last.push (o.entry s.2.lsn), hlayout, ?_, ?_, ?_, Nat.le_succ_of_le h.segno_le⟩
    · intro g hg
      rcases List.mem_append.mp hg with hg | hg
      · exact h.ascending g (List.mem_append_left _ hg)
      · rw [List.mem_singleton.mp hg, RecordGroup.push, List.map_append, List.pairwise_append]
        refine ⟨h.ascending last (by simp), List.pairwise_singleton .., fun l hl l' hl' => ?_⟩
        obtain ⟨e, he, rfl⟩ := List.mem_map.mp hl
        rw [List.mem_singleton.mp hl']
        exact h.le_lsn e he
    · intro e he
      rw [logStep, hw]
      rcases List.mem_append.mp he with he | he
      · exact UInt64.le_trans (h.le_lsn e he) hlt
      · rw [List.mem_singleton.mp he]
        exact hlt
    · rw [logStep, hw, hsucc]
      exact Nat.succ_le_succ h.lsn_le
  · refine ⟨init ++ [last], ⟨last.segno + 1, [o.entry s.2.lsn]⟩, hlayout, ?_, ?_, ?_,
      Nat.succ_le_succ h.segno_le⟩
    · intro g hg
      rcases List.mem_append.mp hg with hg | hg
      · exact h.ascending g hg
      · rw [List.mem_singleton.mp hg]
        exact List.pairwise_singleton ..
    · intro e he
      rw [logStep, hw, List.mem_singleton.mp he]
      exact hlt
    · rw [logStep, hw, hsucc]
      exact Nat.succ_le_succ h.lsn_le

/-- A rotation adds an empty segment. -/
theorem rotate (h : SegmentsAscend n s init last) :
    ∃ init' last', SegmentsAscend (n + 1) (logStep s .rotate) init' last' := by
  refine ⟨init ++ [last], _, h.layout.rotate, ?_, fun e he => absurd he List.not_mem_nil,
    Nat.le_succ_of_le h.lsn_le, Nat.succ_le_succ h.segno_le⟩
  intro g hg
  rcases List.mem_append.mp hg with hg | hg
  · exact h.ascending g hg
  · rw [List.mem_singleton.mp hg]
    exact List.Pairwise.nil

/-- A restart opens the last segment, or a new one, and takes the counter from it. -/
theorem restart (h : SegmentsAscend n s init last) :
    ∃ init' last', SegmentsAscend (n + 1) (logStep s .restart) init' last' := by
  obtain ⟨init', last', hlayout, -, hlsn, hgroups⟩ := h.layout.create
  have hascending : ∀ g ∈ init' ++ [last'], (g.records.map WalEntry.lsn).Pairwise (· ≤ ·) := by
    intro g hg
    rcases hgroups with ⟨rfl, rfl⟩ | ⟨rfl, hnil⟩
    · exact h.ascending g hg
    · rcases List.mem_append.mp hg with hg | hg
      · exact h.ascending g hg
      · rw [List.mem_singleton.mp hg, hnil]
        exact List.Pairwise.nil
  refine ⟨init', last', hlayout, hascending, ?_, ?_, ?_⟩
  · intro e he
    rw [logStep, hlsn]
    exact le_getLast_lsn (hascending last' (by simp)) he
  · rw [logStep, hlsn]
    rcases hgroups with ⟨-, rfl⟩ | ⟨-, hnil⟩
    · cases hlast : last'.records.getLast? with
      | none => exact Nat.zero_le _
      | some e =>
        have hle := UInt64.le_iff_toNat_le.mp (h.le_lsn e (List.mem_of_getLast? hlast))
        exact Nat.le_succ_of_le (hle.trans h.lsn_le)
    · rw [hnil]
      exact Nat.zero_le _
  · have hfd := walCreate_fd_le s.1
    rw [hlayout.fd_eq, h.layout.walSegno_eq] at hfd
    exact hfd.trans (Nat.succ_le_succ h.segno_le)

/-- **One step** keeps the order of the sequence numbers, unless the counter wraps around. -/
theorem step (h : SegmentsAscend n s init last) (hn : n + 1 < 2 ^ 64) (step : LogStep) :
    ∃ init' last', SegmentsAscend (n + 1) (logStep s step) init' last' := by
  cases step with
  | append o => exact h.append hn o
  | rotate => exact h.rotate
  | restart => exact h.restart

/-- A segment is read as records that are not above its last eight bytes. -/
theorem walScan_eq (h : SegmentsAscend n s init last) {segno : ℕ} {data : List UInt8}
    (hdata : s.1.lookup segno = some data) : ∃ es,
      walScan (fun _ => true) data 0 = some (readsOf 0 es) ∧
        ∀ e ∈ es, e.lsn ≤ walSegmentMaxLsn data := by
  have hmem := (WalDir.lookup_eq_some_iff h.layout.nodup_segno).mp hdata
  rw [h.layout.segments_eq] at hmem
  obtain ⟨g, hg, hsegment⟩ := List.mem_map.mp hmem
  obtain rfl : g.segment.data = data := congrArg Segment.data hsegment
  refine ⟨g.records, walScan_bytes g.records (fun _ _ => rfl) (holds_zero _), fun e he => ?_⟩
  rw [walSegmentMaxLsn_segment]
  exact le_getLast_lsn (h.ascending g hg) he

end SegmentsAscend

/-- **Every run** with fewer than `2 ^ 64` steps, on files and on the log. -/
theorem segmentsAscend_logRun (steps : List LogStep) (h : steps.length < 2 ^ 64) :
    ∃ init last, WalFiles.Runs (WalFiles.logRun steps) (logRun steps) ∧
      SegmentsAscend steps.length (logRun steps) init last := by
  induction steps using List.reverseRecOn with
  | nil => exact ⟨_, _, WalFiles.shows_empty.walCreate (by decide), segmentsAscend_start⟩
  | append_singleton steps step ih =>
    rw [List.length_append, List.length_singleton] at h
    obtain ⟨init, last, hruns, hascend⟩ := ih (by omega)
    obtain ⟨init', last', hascend'⟩ := hascend.step h step
    have hsegno : walSegno (logRun steps).1 + 1 < 2 ^ 64 := by
      have := hascend.segno_le
      rw [hascend.layout.walSegno_eq]
      omega
    rw [WalFiles.logRun_concat, logRun_concat, List.length_append]
    exact ⟨init', last', hruns.logStep hsegno step, hascend'⟩

/-! ### Truncations behind a run -/

/-- The directory with this checkpoint in the manifest. -/
def WalFiles.withManifest (f : WalFiles) (checkpointLsn : UInt64) : WalFiles :=
  f.insert manifestName (writeUint64 checkpointLsn)

theorem WalFiles.Shows.withManifest {f : WalFiles} {d : WalDir} (h : Shows f d) (c : UInt64) :
    Shows (f.withManifest c) { d with manifest := some (writeUint64 c) } where
  ascending := h.ascending
  bounded := h.bounded
  lookup_segment segno := by
    rw [WalFiles.withManifest, AList.lookup_insert_ne (walFilename_ne_manifestName segno),
      h.lookup_segment]
    rfl
  lookup_manifest := AList.lookup_insert _
  names name hname := by
    rcases (AList.mem_insert _).mp hname with rfl | hname
    · exact .inl rfl
    · exact h.names name hname

/-- A truncation behind the run, whatever the manifest holds, removes a file only if it is read as
records that are not above the checkpoint, so that the replay skips all of them, and it does not
remove the segment that the process appends to. -/
def TruncatesSafely (steps : List LogStep) : Prop :=
  ∀ (c : UInt64) (dir : List Char) (names : List (List Char)),
    names.Perm ((WalFiles.logRun steps).1.withManifest c).keys →
    (∀ name data, ((WalFiles.logRun steps).1.withManifest c).lookup name = some data →
      name ∉ ((WalFiles.logRun steps).1.withManifest c).walTruncate dir names →
      ∃ es, walScan (fun _ => true) data 0 = some (readsOf 0 es) ∧ ∀ e ∈ es, e.lsn ≤ c) ∧
    (WalFiles.logRun steps).2.fd ∈ ((WalFiles.logRun steps).1.withManifest c).walTruncate dir names

/-- **Truncations are safe** in every run with fewer than `2 ^ 64` steps. -/
theorem truncatesSafely (steps : List LogStep) (h : steps.length < 2 ^ 64) :
    TruncatesSafely steps := by
  intro c dir names hnames
  obtain ⟨init, last, hruns, hascend⟩ := segmentsAscend_logRun steps h
  have hshows := hruns.shows.withManifest c
  have hcheckpoint : walCheckpointLsn { (logRun steps).1 with
      manifest := some (writeUint64 c) } = c := walCheckpointLsn_of_manifest rfl
  have hsegno : walSegno { (logRun steps).1 with manifest := some (writeUint64 c) } =
      (logRun steps).2.fd := by
    rw [hascend.layout.fd_eq, ← hascend.layout.walSegno_eq]
    rfl
  have hlookup := hshows.lookup_walTruncate dir hnames
  rw [hcheckpoint, hsegno] at hlookup
  obtain ⟨fd, hfd, hfd'⟩ := hruns.fd
  constructor
  · intro name data hdata hgone
    have hnone := AList.lookup_eq_none.mpr hgone
    rw [hlookup name] at hnone
    split_ifs at hnone with hremoved
    · obtain ⟨-, hmanifest, hold⟩ := hremoved
      obtain ⟨segno, rfl⟩ := (hshows.names name
        (AList.lookup_isSome.mp (by rw [hdata]; rfl))).resolve_left hmanifest
      rw [WalFiles.read, hdata, Option.getD_some] at hold
      rw [hshows.lookup_segment] at hdata
      obtain ⟨es, hscan, hle⟩ := hascend.walScan_eq hdata
      exact ⟨es, hscan, fun e he => UInt64.le_trans (hle e he) (UInt64.le_of_lt hold)⟩
    · rw [hdata] at hnone
      cases hnone
  · refine AList.lookup_isSome.mp ?_
    rw [hlookup, if_neg fun hremoved => hremoved.1 (by rw [hfd, hfd', UInt64.ofNat_toNat]), hfd,
      hshows.lookup_segment]
    exact hfd' ▸ hruns.has_fd

/-- A run with a restart behind a rotation. -/
theorem truncatesSafely_restarted : TruncatesSafely
    [.append ⟨0, [1, 2], by decide⟩, .rotate, .restart, .append ⟨0, [], by decide⟩] :=
  truncatesSafely _ (by decide)

/-! ### The number of a segment wraps around -/

/-- Rotations alone leave empty segments with the numbers from zero on. -/
theorem logRun_rotations (n : ℕ) (h : n < 2 ^ 64) :
    ∃ init last, WalFiles.Runs (WalFiles.logRun (List.replicate n .rotate))
        (logRun (List.replicate n .rotate)) ∧
      WalLayout (logRun (List.replicate n .rotate)).1 (logRun (List.replicate n .rotate)).2
        init last ∧ last.segno = n ∧
      (logRun (List.replicate n .rotate)).1.lookup 0 = some [] := by
  induction n with
  | zero =>
    exact ⟨_, _, WalFiles.shows_empty.walCreate (by decide), (walLayout_create_empty none).1, rfl,
      rfl⟩
  | succ n ih =>
    obtain ⟨init, last, hruns, hlayout, hsegno, hlookup⟩ := ih (by omega)
    have hlast : walSegno (logRun (List.replicate n .rotate)).1 = n :=
      hlayout.walSegno_eq.trans hsegno
    rw [List.replicate_succ', WalFiles.logRun_concat, logRun_concat]
    refine ⟨_, _, hruns.logStep (by rw [hlast]; exact h) _, hlayout.rotate, by rw [hsegno], ?_⟩
    rw [logStep, walRotate, WalDir.lookup_openAppend, if_neg (Nat.succ_ne_zero _)]
    exact hlookup

/-- A rotation behind the segment with the largest number opens the first segment again. -/
theorem walRotate_of_max {s : WalFiles × WalHandle} {t : WalDir × Wal} (h : WalFiles.Runs s t)
    (hmax : walSegno t.1 = 2 ^ 64 - 1) (hfirst : (t.1.lookup 0).isSome) :
    s.1.walRotate s.2 = (s.1, ⟨walFilename 0, s.2.lsn, 0⟩) := by
  have hsegno : walSegnoOfNames s.1.keys + 1 = 0 := by
    apply UInt64.toNat_inj.mp
    rw [UInt64.toNat_add, h.shows.walSegnoOfNames_eq (List.Perm.refl _), hmax]
    rfl
  have hmem : walFilename 0 ∈ s.1 := by
    rw [← AList.lookup_isSome, h.shows.lookup_segment]
    exact hfirst
  rw [WalFiles.walRotate, hsegno, WalFiles.openAppend, if_pos hmem]

/-- A truncation behind the last segment removes the first one, which was opened again. -/
theorem not_truncatesSafely_replicate {n m : ℕ} (hn : n + 1 = m) (hm : m = 2 ^ 64) :
    ¬TruncatesSafely (List.replicate m .rotate) := by
  subst hn
  intro h
  obtain ⟨init, last, hruns, hlayout, hsegno, hlookup⟩ := logRun_rotations n (by omega)
  have hmax := hlayout.walSegno_eq.trans hsegno
  rw [List.replicate_succ', TruncatesSafely, WalFiles.logRun_concat] at h
  have hopen := (h 1 [] _ (List.Perm.refl _)).2
  rw [WalFiles.logStep, walRotate_of_max hruns (by omega) (by rw [hlookup]; rfl),
    ← AList.lookup_isSome] at hopen
  have hshows := hruns.shows.withManifest 1
  rw [hshows.lookup_walTruncate [] (List.Perm.refl _), if_pos] at hopen
  · cases hopen
  refine ⟨fun hname => ?_, walFilename_ne_manifestName 0, ?_⟩
  · have hzero := congrArg UInt64.toNat (walFilename_injective hname)
    have hlast : walSegno { (logRun (List.replicate n .rotate)).1 with
        manifest := some (writeUint64 1) } = n := hmax
    rw [hlast, UInt64.toNat_ofNat_of_lt' (by rw [UInt64.size]; omega)] at hzero
    rw [UInt64.toNat_zero] at hzero
    omega
  · rw [hshows.read_segment, walCheckpointLsn_of_manifest rfl]
    have hread : WalDir.read { (logRun (List.replicate n .rotate)).1 with
        manifest := some (writeUint64 1) } (UInt64.toNat 0) = [] := by
      rw [WalDir.read, ← WalDir.lookup]
      exact congrArg (Option.getD · []) hlookup
    rw [hread]
    decide

/-- The last one of `2 ^ 64` rotations opens the first segment again, and a truncation removes
it. -/
theorem not_truncatesSafely_rotations : ¬TruncatesSafely (List.replicate (2 ^ 64) .rotate) :=
  @not_truncatesSafely_replicate (2 ^ 64 - 1) (2 ^ 64) (by norm_num) rfl

end Racs
