import Racs.Flush

/-!
# The checkpoint and a flush that is cut short

A flush writes the new checkpoint to the manifest before it writes the SSTable. If the process
crashes between the two, or if writing the SSTable fails, the manifest already covers entries that
are in no SSTable. Opening the manifest for writing also empties it, so a crash before its bytes are
written resets the checkpoint to zero.

`crashedFlush` is the disk after the first `k` steps of a flush some of whose calls fail. The
theorem says for which flushes the checkpoint read afterwards is the old one or the new one, and the
new one only with the entries of the memtable in its SSTable.

## Main definitions

* `Racs.crashedFlush`, `Racs.CheckpointDurable`.

## Main results

* `Racs.checkpointDurable_iff`.
-/

namespace Racs

open ByteBuffer

/-- The disk when the process crashes after `k` steps of a flush. -/
def crashedFlush (P : Platform) (o : FlushOutcome) (mt : Memtable) (d : Disk) (k : ℕ) : Disk :=
  ((memtableFlushSteps P o mt).take k).foldl DiskStep.apply d

/-- Every entry of the memtable is in an SSTable at its final path. -/
def Durable (P : Platform) (d : Disk) (mt : Memtable) : Prop :=
  ∃ es, d.sstables.lookup (mt.path P false) = some (sstableImage es) ∧ mt.entries ⊆ es

/-- The checkpoint read after a flush is the old one or the new one, and the new one only if the
memtable is durable, also where the two are the same number. -/
def CheckpointDurable (P : Platform) (d d' : Disk) (mt : Memtable) : Prop :=
  (walCheckpointLsn d'.wal = walCheckpointLsn d.wal ∨ walCheckpointLsn d'.wal = mt.maxLsn) ∧
    (walCheckpointLsn d'.wal = mt.maxLsn → Durable P d' mt)

/-! ### How far a flush gets -/

/-- All eight bytes reach the manifest. -/
def FlushOutcome.ManifestComplete (o : FlushOutcome) : Prop := ∀ n ∈ o.writeManifest, 8 ≤ n

/-- The whole image reaches the temporary file. -/
def FlushOutcome.ImageComplete (o : FlushOutcome) (mt : Memtable) : Prop :=
  ∀ n ∈ o.writeFile, sstableImageSize mt.entries ≤ n

/-- The flush does not get to open the manifest. -/
def ManifestUntouched (o : FlushOutcome) (k : ℕ) : Prop := o.openManifest = false ∨ k = 0

/-- The manifest is opened, which empties it, but does not get all of its bytes. -/
def ManifestTorn (o : FlushOutcome) (k : ℕ) : Prop :=
  o.openManifest = true ∧ (k = 1 ∨ 2 ≤ k ∧ ¬ o.ManifestComplete)

/-- The manifest gets all of its bytes. -/
def ManifestWritten (o : FlushOutcome) (k : ℕ) : Prop :=
  o.openManifest = true ∧ 2 ≤ k ∧ o.ManifestComplete

/-- The calls up to the renaming succeed. -/
def FlushOutcome.Renames (o : FlushOutcome) (mt : Memtable) : Prop :=
  o.createSstable = true ∧ mt.Fits ∧ o.allocateBuffer = true ∧ o.openFile = true ∧
    o.flock = true ∧ o.rename = true

/-- The flush gets to rename the temporary file. -/
def Renamed (o : FlushOutcome) (mt : Memtable) (k : ℕ) : Prop :=
  o.Renames mt ∧ (memtableWriteLsn o mt.maxLsn).length + 3 ≤ k

/-- The flush gets to rename a complete SSTable, or does not get to rename and the file at the
final path already has the entries of the memtable. -/
def SstableInPlace (P : Platform) (o : FlushOutcome) (mt : Memtable) (d : Disk) (k : ℕ) : Prop :=
  Renamed o mt k ∧ o.ImageComplete mt ∨ ¬ Renamed o mt k ∧ Durable P d mt

/-! ### The manifest -/

variable {P : Platform} {o : FlushOutcome} {mt : Memtable} {d : Disk} {k : ℕ}

/-- The steps that do not write the manifest. -/
def DiskStep.KeepsManifest : DiskStep → Prop
  | .openManifest => False
  | .writeManifest _ => False
  | _ => True

theorem DiskStep.KeepsManifest.apply {st : DiskStep} (h : st.KeepsManifest) (d : Disk) :
    (st.apply d).wal.manifest = d.wal.manifest := by
  cases st with
  | openManifest => cases h
  | writeManifest buf => cases h
  | openFile path => rfl
  | writeFile path buf => rfl
  | rename src dst =>
    simp only [DiskStep.apply]
    split <;> rfl
  | truncateWal => rfl

theorem manifest_foldl {steps : List DiskStep} (h : ∀ st ∈ steps, st.KeepsManifest) (d : Disk) :
    (steps.foldl DiskStep.apply d).wal.manifest = d.wal.manifest := by
  induction steps generalizing d with
  | nil => rfl
  | cons st steps ih =>
    rw [List.foldl_cons, ih fun st' hst' => h st' (List.mem_cons_of_mem _ hst')]
    exact (h st List.mem_cons_self).apply d

/-- The steps of a flush behind the manifest. -/
def sstableSteps (P : Platform) (o : FlushOutcome) (mt : Memtable) : List DiskStep :=
  match memtableWrite P o mt with
  | none => []
  | some steps => steps ++ [.truncateWal]

theorem memtableFlushSteps_eq (hne : mt.entries ≠ []) :
    memtableFlushSteps P o mt = memtableWriteLsn o mt.maxLsn ++ sstableSteps P o mt :=
  if_neg hne

/-- A step that does not change what is at a final path. -/
def DiskStep.KeepsFile (P : Platform) (mt : Memtable) (st : DiskStep) : Prop :=
  st = .truncateWal ∨ st = .openFile (mt.path P true) ∨ ∃ buf, st = .writeFile (mt.path P true) buf

/-- The steps behind the manifest when the calls up to the renaming succeed. -/
theorem sstableSteps_of_renames (h : o.Renames mt) : sstableSteps P o mt =
    [.openFile (mt.path P true),
      .writeFile (mt.path P true) (written o.writeFile (sstableImage mt.entries)),
      .rename (mt.path P true) (mt.path P false), .truncateWal] := by
  obtain ⟨hcreate, hfits, hbuffer, hopen, hflock, hrename⟩ := h
  obtain ⟨size, hsize⟩ := Option.isSome_iff_exists.mp hfits
  simp [sstableSteps, memtableWrite, hcreate, hsize, hbuffer, hopen, hflock, hrename]

/-- The steps behind the manifest when a call fails before the renaming or in it. -/
theorem sstableSteps_of_not_renames (h : ¬ o.Renames mt) :
    ∀ st ∈ sstableSteps P o mt, st.KeepsFile P mt := by
  intro st hst
  unfold sstableSteps at hst
  split at hst
  · cases hst
  · rename_i steps hsteps
    rcases List.mem_append.mp hst with hst | hst
    · unfold memtableWrite at hsteps
      split_ifs at hsteps with hcreate hbuffer hopen hflock hrename
      · cases hsteps
        cases hst
      all_goals obtain ⟨size, hsize, rfl⟩ := Option.map_eq_some_iff.mp hsteps
      · cases hst
      · cases hst
      · exact .inr (.inl (List.mem_singleton.mp hst))
      · rw [Bool.not_eq_false] at hcreate hbuffer hopen hflock
        exact absurd ⟨hcreate, Option.isSome_iff_exists.mpr ⟨size, hsize⟩, hbuffer, hopen, hflock,
          hrename⟩ h
      · simp only [List.append_nil, List.mem_cons, List.not_mem_nil, or_false] at hst
        exact hst.elim (fun h => .inr (.inl h)) fun h => .inr (.inr ⟨_, h⟩)
    · exact .inl (List.mem_singleton.mp hst)

theorem keepsManifest_of_mem_sstableSteps {st : DiskStep} (h : st ∈ sstableSteps P o mt) :
    st.KeepsManifest := by
  by_cases hrenames : o.Renames mt
  · rw [sstableSteps_of_renames hrenames] at h
    simp only [List.mem_cons, List.not_mem_nil, or_false] at h
    rcases h with rfl | rfl | rfl | rfl <;> trivial
  · rcases sstableSteps_of_not_renames hrenames st h with rfl | rfl | ⟨buf, rfl⟩ <;> trivial

/-- The disk after `k` steps, the steps of the manifest first. -/
theorem crashedFlush_eq (hne : mt.entries ≠ []) :
    crashedFlush P o mt d k =
      ((sstableSteps P o mt).take (k - (memtableWriteLsn o mt.maxLsn).length)).foldl DiskStep.apply
        (((memtableWriteLsn o mt.maxLsn).take k).foldl DiskStep.apply d) := by
  rw [crashedFlush, memtableFlushSteps_eq hne, List.take_append, List.foldl_append]

/-- The manifest is what the steps of the manifest leave. -/
theorem manifest_crashedFlush (hne : mt.entries ≠ []) :
    (crashedFlush P o mt d k).wal.manifest =
      (((memtableWriteLsn o mt.maxLsn).take k).foldl DiskStep.apply d).wal.manifest := by
  rw [crashedFlush_eq hne]
  refine manifest_foldl (fun st hst => ?_) _
  exact keepsManifest_of_mem_sstableSteps (List.mem_of_mem_take hst)

theorem checkpoint_of_untouched (hne : mt.entries ≠ []) (h : ManifestUntouched o k) :
    walCheckpointLsn (crashedFlush P o mt d k).wal = walCheckpointLsn d.wal := by
  refine walCheckpointLsn_congr ((manifest_crashedFlush hne).trans ?_)
  rcases h with h | rfl
  · rw [memtableWriteLsn, if_neg (by simp [h]), List.take_nil, List.foldl_nil]
  · rw [List.take_zero, List.foldl_nil]

theorem checkpoint_of_torn (hne : mt.entries ≠ []) (h : ManifestTorn o k) :
    walCheckpointLsn (crashedFlush P o mt d k).wal = 0 := by
  obtain ⟨hopen, rfl | ⟨hk, hshort⟩⟩ := h
  · have hmanifest : (crashedFlush P o mt d 1).wal.manifest = some [] := by
      rw [manifest_crashedFlush hne, memtableWriteLsn, if_pos hopen]
      rfl
    exact walCheckpointLsn_of_short hmanifest (by decide)
  · have hmanifest : (crashedFlush P o mt d k).wal.manifest =
        some (written o.writeManifest (writeUint64 mt.maxLsn)) := by
      rw [manifest_crashedFlush hne, memtableWriteLsn, if_pos hopen, List.take_of_length_le hk]
      rfl
    refine walCheckpointLsn_of_short hmanifest ?_
    rcases hwrite : o.writeManifest with - | n
    · exact absurd (fun n hn => by rw [hwrite] at hn; cases hn) hshort
    · have hn : ¬ 8 ≤ n := fun hle => hshort fun m hm => by
        rw [hwrite] at hm
        exact Option.mem_some_iff.mp hm ▸ hle
      rw [written, List.length_take, length_writeUint64]
      omega

theorem checkpoint_of_written (hne : mt.entries ≠ []) (h : ManifestWritten o k) :
    walCheckpointLsn (crashedFlush P o mt d k).wal = mt.maxLsn := by
  obtain ⟨hopen, hk, hcomplete⟩ := h
  refine walCheckpointLsn_of_manifest ((manifest_crashedFlush hne).trans ?_)
  have hwritten : written o.writeManifest (writeUint64 mt.maxLsn) = writeUint64 mt.maxLsn := by
    rcases hwrite : o.writeManifest with - | n
    · rfl
    · refine List.take_of_length_le ?_
      rw [length_writeUint64]
      exact hcomplete n hwrite
  rw [memtableWriteLsn, if_pos hopen, List.take_of_length_le hk, hwritten]
  rfl

/-! ### The SSTable -/

theorem DiskStep.KeepsFile.apply {st : DiskStep} (h : st.KeepsFile P mt) (d : Disk) :
    (st.apply d).sstables.lookup (mt.path P false) = d.sstables.lookup (mt.path P false) := by
  have hne : mt.path P false ≠ mt.path P true := (timeToPath_tmp_ne P.dataDir _ _).symm
  rcases h with rfl | rfl | ⟨buf, rfl⟩
  · rfl
  · exact AList.lookup_insert_ne hne
  · exact AList.lookup_insert_ne hne

theorem lookup_foldl {steps : List DiskStep} (h : ∀ st ∈ steps, st.KeepsFile P mt) (d : Disk) :
    (steps.foldl DiskStep.apply d).sstables.lookup (mt.path P false) =
      d.sstables.lookup (mt.path P false) := by
  induction steps generalizing d with
  | nil => rfl
  | cons st steps ih =>
    rw [List.foldl_cons, ih fun st' hst' => h st' (List.mem_cons_of_mem _ hst')]
    exact (h st List.mem_cons_self).apply d

/-- The steps of the manifest do not touch the SSTables. -/
theorem sstables_foldl_manifest (o : FlushOutcome) (lsn : UInt64) (k : ℕ) (d : Disk) :
    (((memtableWriteLsn o lsn).take k).foldl DiskStep.apply d).sstables = d.sstables := by
  unfold memtableWriteLsn
  split_ifs
  · rcases k with - | - | k
    · rfl
    · rfl
    · rw [List.take_of_length_le (by simp)]
      rfl
  · rw [List.take_nil, List.foldl_nil]

/-- Without the renaming, the file at the final path stays as it was. -/
theorem lookup_of_not_renamed (hne : mt.entries ≠ []) (h : ¬ Renamed o mt k) :
    (crashedFlush P o mt d k).sstables.lookup (mt.path P false) =
      d.sstables.lookup (mt.path P false) := by
  rw [crashedFlush_eq hne]
  refine (lookup_foldl (fun st hst => ?_) _).trans (by rw [sstables_foldl_manifest])
  by_cases hrenames : o.Renames mt
  · have hk : k - (memtableWriteLsn o mt.maxLsn).length ≤ 2 := by
      have hlt : ¬ (memtableWriteLsn o mt.maxLsn).length + 3 ≤ k := fun hle => h ⟨hrenames, hle⟩
      omega
    rw [sstableSteps_of_renames hrenames] at hst
    have hst := (List.take_sublist_take_left hk).subset hst
    simp only [List.take_succ_cons, List.take_zero, List.mem_cons, List.not_mem_nil,
      or_false] at hst
    exact hst.elim (fun h => .inr (.inl h)) fun h => .inr (.inr ⟨_, h⟩)
  · exact sstableSteps_of_not_renames hrenames st (List.mem_of_mem_take hst)

/-- After the renaming, the final path holds what was written to the temporary file. -/
theorem lookup_of_renamed (hne : mt.entries ≠ []) (h : Renamed o mt k) :
    (crashedFlush P o mt d k).sstables.lookup (mt.path P false) =
      some (written o.writeFile (sstableImage mt.entries)) := by
  obtain ⟨hrenames, hk⟩ := h
  obtain ⟨j, hj⟩ : ∃ j, k - (memtableWriteLsn o mt.maxLsn).length = j + 3 :=
    ⟨k - (memtableWriteLsn o mt.maxLsn).length - 3, by omega⟩
  have htake : (sstableSteps P o mt).take (j + 3) = (sstableSteps P o mt).take 3 ++
      [DiskStep.truncateWal].take j := by
    rw [sstableSteps_of_renames hrenames]
    rfl
  have hrest : ∀ st ∈ [DiskStep.truncateWal].take j, st.KeepsFile P mt := fun st hst =>
    .inl (List.mem_singleton.mp (List.mem_of_mem_take hst))
  rw [crashedFlush_eq hne, hj, htake, List.foldl_append, lookup_foldl hrest,
    sstableSteps_of_renames hrenames]
  simp only [List.take_succ_cons, List.take_zero, List.foldl_cons, List.foldl_nil, DiskStep.apply,
    AList.lookup_insert, Option.getD_some, List.nil_append]

/-- A strict prefix of an image is no image. -/
theorem take_sstableImage_ne {es es' : List MemtableEntry} {n : ℕ}
    (hsize : sstableImageSize es < 2 ^ 64) (hn : n < sstableImageSize es) :
    (sstableImage es).take n ≠ sstableImage es' := by
  intro heq
  have hlen : sstableImageSize es' = n := by
    rw [← length_sstableImage es', ← heq, List.length_take, length_sstableImage]
    exact min_eq_left hn.le
  have hmin : headerSize ≤ n := by
    rw [← hlen, sstableImageSize_eq]
    omega
  have hheader : (sstableHeader (sstableImageSize es)).take 8 =
      (sstableHeader (sstableImageSize es')).take 8 := by
    have htake : ∀ es, (sstableImage es).take 8 = (sstableHeader (sstableImageSize es)).take 8 := by
      intro es
      rw [sstableImage_eq, List.take_append_of_le_length]
      rw [length_sstableHeader]
      decide
    rw [← htake es, ← htake es', ← heq, List.take_take, min_eq_left]
    exact le_trans (by decide) hmin
  have hword : writeUint64 (UInt64.ofNat (sstableImageSize es)) =
      writeUint64 (UInt64.ofNat (sstableImageSize es')) := by
    simpa only [sstableHeader, List.append_assoc, List.take_left' (length_writeUint64 _)]
      using hheader
  have hofNat := congrArg (fun bs => (UInt64.ofNat (decode bs)).toNat) hword
  simp only [ofNat_decode_writeUint64] at hofNat
  rw [UInt64.toNat_ofNat_of_lt' hsize,
    UInt64.toNat_ofNat_of_lt' (lt_of_eq_of_lt hlen (hn.trans hsize)), hlen] at hofNat
  omega

/-- **Where the SSTable of the memtable is** after a flush that was cut short. -/
theorem durable_crashedFlush_iff (hne : mt.entries ≠ []) :
    Durable P (crashedFlush P o mt d k) mt ↔ SstableInPlace P o mt d k := by
  by_cases hrenamed : Renamed o mt k
  · have hlookup := lookup_of_renamed (d := d) (P := P) hne hrenamed
    have hlt : mt.entries.length < 2 ^ 16 := lt_of_le_of_lt mt.length_le mt.capacity.toNat_lt
    have hsize := sstableImageSize_lt mt.entries hlt
    rw [SstableInPlace, and_iff_right hrenamed,
      iff_false_intro (not_and_of_not_left _ (not_not.mpr hrenamed)), or_false]
    constructor
    · rintro ⟨es, hes, -⟩ n hn
      simp only [hlookup, written, Option.mem_def.mp hn] at hes
      by_contra hshort
      exact take_sstableImage_ne hsize (not_le.mp hshort) (Option.some.inj hes)
    · intro hcomplete
      refine ⟨mt.entries, ?_, List.Subset.refl _⟩
      rw [hlookup]
      rcases hwrite : o.writeFile with - | n
      · rfl
      · refine congrArg some (List.take_of_length_le ?_)
        rw [length_sstableImage]
        exact hcomplete n hwrite
  · rw [SstableInPlace, iff_false_intro (not_and_of_not_left _ hrenamed), false_or,
      and_iff_right hrenamed, Durable, Durable, lookup_of_not_renamed hne hrenamed]

/-- The manifest is not opened, or opened and not completely written, or written. -/
theorem manifest_cases (o : FlushOutcome) (k : ℕ) :
    ManifestUntouched o k ∧ ¬ ManifestTorn o k ∧ ¬ ManifestWritten o k ∨
      ManifestTorn o k ∧ ¬ ManifestUntouched o k ∧ ¬ ManifestWritten o k ∨
      ManifestWritten o k ∧ ¬ ManifestUntouched o k ∧ ¬ ManifestTorn o k := by
  unfold ManifestUntouched ManifestTorn ManifestWritten
  rcases Bool.eq_false_or_eq_true o.openManifest with hopen | hopen
  · rcases k with - | - | k
    · exact .inl ⟨.inr rfl, by omega, by omega⟩
    · exact .inr (.inl ⟨⟨hopen, .inl rfl⟩, by simp [hopen], by omega⟩)
    · by_cases hcomplete : o.ManifestComplete
      · exact .inr (.inr ⟨⟨hopen, by omega, hcomplete⟩, by simp [hopen], by simp [hcomplete]⟩)
      · exact .inr (.inl ⟨⟨hopen, .inr ⟨by omega, hcomplete⟩⟩, by simp [hopen],
          fun h => hcomplete h.2.2⟩)
  · exact .inl ⟨.inl hopen, by simp [hopen], by simp [hopen]⟩

/-- **When the checkpoint does not run ahead.** After a flush of a memtable, with any of its calls
failing and a crash after any number of steps, the checkpoint is the old one or the new one, and the
new one only with the memtable in its SSTable, exactly if the manifest was not opened, and the
checkpoint is not the new one already without the SSTable in place; or it was opened but not
completely written, so that the checkpoint is zero, which the old or the new one was before, the
latter with the SSTable in place; or it was written, and the SSTable is in place. -/
theorem checkpointDurable_iff (P : Platform) (o : FlushOutcome) (d : Disk) (k : ℕ) {mt : Memtable}
    (hne : mt.entries ≠ []) :
    CheckpointDurable P d (crashedFlush P o mt d k) mt ↔
      ManifestUntouched o k ∧
        (walCheckpointLsn d.wal = mt.maxLsn → SstableInPlace P o mt d k) ∨
      ManifestTorn o k ∧ (walCheckpointLsn d.wal = 0 ∨ mt.maxLsn = 0) ∧
        (mt.maxLsn = 0 → SstableInPlace P o mt d k) ∨
      ManifestWritten o k ∧ SstableInPlace P o mt d k := by
  rw [CheckpointDurable, durable_crashedFlush_iff hne]
  rcases manifest_cases o k with ⟨huntouched, htorn, hwritten⟩ | ⟨htorn, huntouched, hwritten⟩ |
    ⟨hwritten, huntouched, htorn⟩
  · rw [checkpoint_of_untouched hne huntouched, iff_false_intro htorn, iff_false_intro hwritten,
      and_iff_right huntouched, false_and, false_and, or_false, or_false,
      and_iff_right (.inl rfl)]
  · rw [checkpoint_of_torn hne htorn, iff_false_intro huntouched, iff_false_intro hwritten,
      and_iff_right htorn, false_and, false_and, false_or, or_false, eq_comm,
      @eq_comm _ 0 mt.maxLsn]
  · rw [checkpoint_of_written hne hwritten, iff_false_intro huntouched, iff_false_intro htorn,
      and_iff_right hwritten, false_and, false_and, false_or, false_or, and_iff_right (.inr rfl)]
    exact ⟨fun h => h rfl, fun h _ => h⟩

/-! ### An example -/

/-- A memtable with one block, and the number 1. -/
def oneBlock : Memtable := ⟨1, [(Frame.constant 5 7 4).entry 1000 1], by decide⟩

/-- An empty data directory. -/
def emptyDisk : Disk := ⟨WalDir.empty, ∅, ∅⟩

theorem oneBlock_renamed : Renamed .ok oneBlock 6 :=
  ⟨⟨rfl, by decide, rfl, rfl, rfl, rfl⟩, by decide⟩

/-- A flush that is not interrupted leaves the memtable in its SSTable. -/
theorem checkpointDurable_oneBlock : CheckpointDurable .rational emptyDisk
    (crashedFlush .rational .ok oneBlock emptyDisk 6) oneBlock :=
  (checkpointDurable_iff .rational .ok emptyDisk 6 (List.cons_ne_nil _ _)).mpr <| .inr <| .inr
    ⟨⟨rfl, by decide, fun _ h => nomatch h⟩, .inl ⟨oneBlock_renamed, fun _ h => nomatch h⟩⟩

/-- A crash right behind the manifest leaves the new checkpoint and no SSTable. -/
theorem not_checkpointDurable_oneBlock : ¬ CheckpointDurable .rational emptyDisk
    (crashedFlush .rational .ok oneBlock emptyDisk 2) oneBlock := by
  have hne : oneBlock.entries ≠ [] := List.cons_ne_nil _ _
  have hwritten : ManifestWritten .ok 2 := ⟨rfl, le_refl 2, fun _ h => nomatch h⟩
  rw [CheckpointDurable, checkpoint_of_written hne hwritten, durable_crashedFlush_iff hne]
  rintro ⟨-, hdurable⟩
  rcases hdurable rfl with ⟨hrenamed, -⟩ | ⟨-, es, hes, -⟩
  · exact absurd hrenamed.2 (by decide)
  · rw [emptyDisk, AList.lookup_empty] at hes
    cases hes

end Racs
