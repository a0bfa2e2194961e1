import Mathlib.Data.List.ReduceOption
import Racs.Crc32c
import Racs.RangeComplete
import Racs.WalReplay

/-!
# Damaged blocks

A block that is sent in a frame, logged in a record and stored in an SSTable carries its checksum.
Bytes are damaged here when the change lies within 32 consecutive bits, or when an odd number of
bits have changed. Such a change is always noticed: the frame is refused, the record is left out of
the replay, and the block is left out of a range. What is not damaged is read as before.

## Main definitions

* `Racs.Damaged` — the change of some bytes.
* `Racs.WalEntry.Hit`, `Racs.MemtableEntry.Hit` — a record and an entry that may have been damaged.

## Main results

* `Racs.crc32c_ne_of_damaged` — the checksum changes.
* `Racs.streamAppend_damaged`, `Racs.walReplaySegment_damaged`, `Racs.rangeBlocks_damaged`.
-/

namespace Racs

open ByteBuffer ShiftRegister

/-- The bytes were changed within 32 consecutive bits, or in an odd number of bits. -/
inductive Damaged (a b : List UInt8) : Prop
  | burst {front x y back : List Bool} (ha : byteBits a = front ++ x ++ back)
      (hb : byteBits b = front ++ y ++ back) (hlen : x.length = y.length) (hshort : x.length ≤ 32)
      (hne : x ≠ y)
  | odd (hlen : a.length = b.length)
      (hodd : (List.zipWith xor (byteBits a) (byteBits b)).count true % 2 = 1)

theorem Damaged.length_eq {a b : List UInt8} (h : Damaged a b) : a.length = b.length := by
  cases h with
  | burst ha hb hlen =>
    have ha' := congrArg List.length ha
    have hb' := congrArg List.length hb
    simp only [length_byteBits, List.length_append] at ha' hb'
    omega
  | odd hlen => exact hlen

/-- **The checksum notices damage**, whatever the seed is. -/
theorem crc32c_ne_of_damaged {a b : List UInt8} (h : Damaged a b) (crc : UInt32) :
    crc32c crc b ≠ crc32c crc a := by
  have hfeed : feed crcPoly.toBitVec (~~~ crc).toBitVec (byteBits b) ≠
      feed crcPoly.toBitVec (~~~ crc).toBitVec (byteBits a) := by
    cases h with
    | burst ha hb hlen hshort hne =>
      rw [ha, hb]
      exact (feed_ne_of_burst (by decide) _ hlen hshort hne).symm
    | odd hlen hodd =>
      exact (feed_ne_of_odd (by decide) (by decide) _ (by simp [hlen]) hodd).symm
  rw [crc32c_eq_feed, crc32c_eq_feed]
  intro heq
  exact hfeed (congrArg UInt32.toBitVec (UInt32.not_inj.mp heq))

/-! ### Frames -/

/-- **A damaged frame is refused**: when the block of a valid frame was damaged on the way, the
frame is malformed in every state of the server, and nothing changes. -/
theorem streamAppend_damaged {data data' : List UInt8} {frame : Frame}
    (h : frameParse data = some (frame, true)) (hheader : data'.take 34 = data.take 34)
    (hdamaged : Damaged frame.pcmBlock ((data'.drop 34).take frame.header.blockSize.toNat))
    (P : Platform) (s : Store) : streamAppend P s data' = some (s, .malformed) := by
  have hlen := length_of_frameParse h
  dsimp only at hlen
  have hchecksum := checksum_of_frameParse h
  obtain ⟨header, hparse, hframe⟩ := Option.bind_eq_some_iff.mp h
  obtain ⟨block, -, hblock⟩ := Option.map_eq_some_iff.mp hframe
  obtain rfl : header = frame.header := congrArg (fun r : Frame × Bool => r.1.header) hblock
  have hlen34 : 34 ≤ data'.length := by
    have := congrArg List.length hheader
    rw [List.length_take, List.length_take] at this
    omega
  have hlen' : 34 + frame.header.blockSize.toNat ≤ data'.length := by
    have := hdamaged.length_eq
    rw [frame.length_pcmBlock, List.length_take, List.length_drop] at this
    omega
  have htake : ∀ bs : List UInt8, 34 ≤ bs.length →
      frameHeaderParse bs = frameHeaderParse (bs.take 34) := by
    intro bs hbs
    have happend := frameHeaderParse_append (bs.drop 34)
      (show 34 ≤ (bs.take 34).length by rw [List.length_take]; omega)
    rwa [List.take_append_drop] at happend
  have hparse' : frameHeaderParse data' = some frame.header := by
    rw [htake data' hlen34, hheader, ← htake data (by omega), hparse]
  rw [streamAppend, frameParse, hparse', Option.bind_some, readBin, dif_pos hlen']
  have hne := crc32c_ne_of_damaged hdamaged 0
  rw [hchecksum] at hne
  simp [hne]

/-- The byte in the block of a valid frame was changed. -/
theorem streamAppend_damaged_constant :
    streamAppend .rational (Store.init (Config.small 4 (by decide)))
      ((Frame.constant 7 5 1).bytes.set 34 6) =
        some (Store.init (Config.small 4 (by decide)), .malformed) := by
  have hparse : frameParse (Frame.constant 7 5 1).bytes = some (Frame.constant 7 5 1, true) := by
    decide
  refine streamAppend_damaged hparse (by decide) ?_ _ _
  exact @Damaged.burst _ _ [] (bits 8 5) (bits 8 6) [] (by decide) (by decide) (by decide)
    (by decide) (by decide)

/-! ### Records -/

/-- The record after its operation may have been damaged. -/
def WalEntry.Hit (e e' : WalEntry) : Prop :=
  e' = e ∨ e'.checksum = e.checksum ∧ Damaged e.op e'.op

/-- What is left of the reads of a segment: the records that were not damaged, where they were. -/
def intactReads (reads reads' : List WalRead) : List WalRead :=
  List.zipWith (fun read read' => if read = read' then read else (none, read'.2)) reads reads'

/-- **Damaged records are left out of the replay**, and the others are replayed as before, each
under the time of its place, whatever flushes run in between. -/
theorem walReplaySegment_damaged {es es' : List WalEntry} (hhit : List.Forall₂ WalEntry.Hit es es')
    (hchecksum : ∀ e ∈ es, crc32c 0 e.op = e.checksum) (P : Platform)
    (sched : Store → Option Store) (checkpointLsn : UInt64) {s : Store} (segment : Segment)
    (hsegment : s.disk.wal.segments.find? (·.segno = segment.segno) = some segment)
    (hdata : segment.data = es'.flatMap WalEntry.bytes) :
    walReplaySegment P sched checkpointLsn s segment.segno =
      (intactReads (readsOf 0 es) (readsOf 0 es')).foldlM
        (fun s read => (walReplayEntry P checkpointLsn s read).bind sched) s := by
  have hreads : ∀ (offset : ℕ) (s : Store),
      (readsOf offset es').foldlM
        (fun s read => (walReplayEntry P checkpointLsn s read).bind sched) s =
      (intactReads (readsOf offset es) (readsOf offset es')).foldlM
        (fun s read => (walReplayEntry P checkpointLsn s read).bind sched) s := by
    intro offset s
    clear hdata hsegment
    induction hhit generalizing offset s with
    | nil => rfl
    | @cons e e' es es' he _ ih =>
      have hrest := ih fun e he => hchecksum e (List.mem_cons_of_mem _ he)
      have hlength : e'.bytes.length = e.bytes.length := by
        rcases he with rfl | ⟨-, hdamaged⟩
        · rfl
        · rw [e'.length_bytes, e.length_bytes, hdamaged.length_eq]
      have hstep : walReplayEntry P checkpointLsn s (some e', offset + e.bytes.length) =
          walReplayEntry P checkpointLsn s
            (if e = e' then some e else none, offset + e.bytes.length) := by
        split_ifs with heq
        · rw [heq]
        · obtain ⟨hsum, hdamaged⟩ := he.resolve_left (Ne.symm heq)
          have hne := crc32c_ne_of_damaged hdamaged 0
          rw [hchecksum e List.mem_cons_self, ← hsum] at hne
          exact if_pos (.inl hne)
      have hintact : intactReads (readsOf offset (e :: es)) (readsOf offset (e' :: es')) =
          (if e = e' then some e else none, offset + e.bytes.length) ::
            intactReads (readsOf (offset + e.bytes.length) es)
              (readsOf (offset + e.bytes.length) es') := by
        rw [readsOf, readsOf, intactReads, List.zipWith_cons_cons, hlength]
        refine congrArg (· :: _) ?_
        by_cases heq : e = e'
        · rw [heq, if_pos rfl, if_pos rfl]
        · rw [if_neg heq, if_neg fun h => heq (Option.some.inj (congrArg Prod.fst h))]
      rw [hintact, readsOf, List.foldlM_cons, List.foldlM_cons, hlength, hstep]
      exact congrArg _ (funext fun s => hrest _ s)
  rw [walReplaySegment, hsegment]
  dsimp only
  rw [walScan_bytes es' (fun _ _ => rfl) (holds_of_eq hdata), Option.bind_some, hreads]

/-- The record of a frame with the byte of audio `5`, which may be another byte now. -/
def recordOf (lsn : UInt64) (b : UInt8) : WalEntry where
  opCode := 0
  checksum := crc32c 0 (Frame.constant (racsHash streamA) 5 1).bytes
  size := 35
  op := (Frame.constant (racsHash streamA) 5 1).bytes.take 34 ++ [b]
  lsn := lsn
  length_op := by
    have htake : ((Frame.constant (racsHash streamA) 5 1).bytes.take 34).length = 34 := by
      decide +kernel
    rw [List.length_append, htake]
    rfl

/-- A store with the stream `a`, of whose two records the first was changed. -/
def hitStore (cfg : Config) : Store :=
  { Store.init cfg with disk := {
      wal := ⟨[⟨0, [recordOf 1 6, recordOf 2 5].flatMap WalEntry.bytes⟩], none⟩
      metadata := (streamCreate ∅ streamA 48000 2 16 1000).1
      sstables := ∅ } }

/-- The record that was not changed is replayed. -/
theorem walReplaySegment_damaged_recordOf :
    (walReplaySegment .rational some 0 (hitStore (Config.small 4 (by decide))) 0).map
        (·.mmt.flatMap Memtable.entries) =
      some [(Frame.constant (racsHash streamA) 5 1).entry 1000 0] := by
  have hburst : Damaged (recordOf 1 5).op (recordOf 1 6).op := by
    refine @Damaged.burst _ _ (byteBits ((recordOf 1 5).op.take 34)) (bits 8 5) (bits 8 6) [] ?_ ?_
      rfl (by decide) (by decide)
    · decide +kernel
    · decide +kernel
  have hhit : List.Forall₂ WalEntry.Hit [recordOf 1 5, recordOf 2 5] [recordOf 1 6, recordOf 2 5] :=
    .cons (.inr ⟨rfl, hburst⟩) (.cons (.inl rfl) .nil)
  have hchecksum : ∀ e ∈ [recordOf 1 5, recordOf 2 5], crc32c 0 e.op = e.checksum := by
    decide +kernel
  rw [walReplaySegment_damaged hhit hchecksum .rational some 0
    ⟨0, [recordOf 1 6, recordOf 2 5].flatMap WalEntry.bytes⟩ rfl rfl]
  decide +kernel

/-! ### SSTables -/

/-- The entry after its block may have been damaged. -/
def MemtableEntry.Hit (e e' : MemtableEntry) : Prop :=
  e' = e ∨ e'.key = e.key ∧ e'.checksum = e.checksum ∧ Damaged e.block e'.block

/-- The SSTable after some of its blocks may have been damaged. -/
def Memtable.Hit (mt mt' : Memtable) : Prop :=
  List.Forall₂ MemtableEntry.Hit mt.entries mt'.entries

/-- The entries of an SSTable that were not damaged. -/
def Memtable.intact (mt mt' : Memtable) : List MemtableEntry :=
  ((mt.entries.zip mt'.entries).filter fun p => p.1 = p.2).map Prod.fst

theorem reduceOption_checked_of_hit {es es' : List MemtableEntry}
    (hhit : List.Forall₂ MemtableEntry.Hit es es')
    (hchecksum : ∀ e ∈ es, crc32c 0 e.block = e.checksum) :
    (es'.map MemtableEntry.checked).reduceOption =
      ((es.zip es').filter fun p => p.1 = p.2).map Prod.fst := by
  induction hhit with
  | nil => rfl
  | @cons e e' es es' he _ ih =>
    have hrest := ih fun e he => hchecksum e (List.mem_cons_of_mem _ he)
    have hsum := hchecksum e List.mem_cons_self
    rw [List.map_cons, List.zip_cons_cons, MemtableEntry.checked]
    by_cases heq : e = e'
    · subst heq
      rw [if_pos hsum, List.reduceOption_cons_of_some, hrest, List.filter_cons_of_pos (by simp),
        List.map_cons]
    · obtain ⟨-, hsum', hdamaged⟩ := he.resolve_left (Ne.symm heq)
      have hne := crc32c_ne_of_damaged hdamaged 0
      rw [hsum, ← hsum'] at hne
      rw [if_neg hne, List.reduceOption_cons_of_none, hrest,
        List.filter_cons_of_neg (by simpa using heq)]

theorem Memtable.Hit.timestamp_eq {mt mt' : Memtable} (h : mt.Hit mt') :
    mt'.timestamp = mt.timestamp := by
  unfold Memtable.Hit at h
  unfold Memtable.timestamp
  cases h' : mt.entries with
  | nil =>
    rw [h', List.forall₂_nil_left_iff] at h
    rw [h]
  | cons e es =>
    rw [h'] at h
    obtain ⟨e', es', he, -, hes⟩ := List.forall₂_cons_left_iff.mp h
    rw [hes]
    rcases he with rfl | ⟨hkey, -⟩
    · rfl
    · exact congrArg (fun key : UInt64 × UInt64 => key.2.toInt64) hkey

theorem Memtable.Hit.path_eq {mt mt' : Memtable} (h : mt.Hit mt') (P : Platform) (tmp : Bool) :
    mt'.path P tmp = mt.path P tmp := by
  rw [Memtable.path, h.timestamp_eq]
  rfl

variable {P : Platform} {tables tables' : List Memtable} {d : SstableDir} {streamId : UInt64}
  {w : Window}

/-- **Damaged blocks are left out of a range**: whatever blocks of the SSTables on the disk were
damaged, a range still succeeds, and it writes each block that was not damaged as before. -/
theorem rangeBlocks_damaged (h : d.Stores P tables')
    (hhit : List.Forall₂ Memtable.Hit tables tables')
    (hchecksum : ∀ mt ∈ tables, ∀ e ∈ mt.entries, crc32c 0 e.block = e.checksum)
    (hnames : NamesApart P w tables) {cache : Cache} (hvalid : cache.Valid)
    (hagrees : cache.Agrees d) (hroom : 2 ≤ cache.kv.capacity) (mmt : MultiMemtable) :
    ∃ cache' blocks, rangeBlocks P d mmt cache streamId w = some (cache', blocks) ∧
      blocks.Perm (((tables.zip tables').flatMap fun p =>
        if rangeReads P w (p.1.path P false) then
          ((p.1.intact p.2).filter (inRange streamId w)).filterMap (entryBlock P)
        else []) ++ memtableBlocksIn P streamId w mmt) := by
  have hpath : ∀ mt' ∈ tables', ∃ mt ∈ tables, mt'.path P false = mt.path P false := by
    clear h hchecksum hnames
    induction hhit with
    | nil => exact fun mt' hmt' => absurd hmt' List.not_mem_nil
    | @cons mt mt' tables tables' hmt _ ih =>
      intro mt₁ hmt₁
      rcases List.mem_cons.mp hmt₁ with rfl | hmt₁
      · exact ⟨mt, List.mem_cons_self, hmt.path_eq P false⟩
      · obtain ⟨mt₂, hmt₂, heq⟩ := ih mt₁ hmt₁
        exact ⟨mt₂, List.mem_cons_of_mem _ hmt₂, heq⟩
  have hnames' : NamesApart P w tables' := by
    intro mt' hmt' mt₁' hmt₁' hwindow htime
    obtain ⟨mt, hmt, heq⟩ := hpath mt' hmt'
    obtain ⟨mt₁, hmt₁, heq₁⟩ := hpath mt₁' hmt₁'
    rw [heq] at hwindow
    rw [heq, heq₁] at htime ⊢
    exact hnames mt hmt mt₁ hmt₁ hwindow htime
  have htables : (tables'.flatMap fun mt =>
      if rangeReads P w (mt.path P false) then mt.sstableBlocksIn P streamId w else []) =
      (tables.zip tables').flatMap fun p =>
        if rangeReads P w (p.1.path P false) then
          ((p.1.intact p.2).filter (inRange streamId w)).filterMap (entryBlock P)
        else [] := by
    clear h hnames hpath hnames'
    induction hhit with
    | nil => rfl
    | @cons mt mt' tables tables' hmt _ ih =>
      have hrest := ih fun mt hmt => hchecksum mt (List.mem_cons_of_mem _ hmt)
      rw [List.zip_cons_cons, List.flatMap_cons, List.flatMap_cons, hrest, hmt.path_eq,
        Memtable.sstableBlocksIn, Memtable.sstableEntriesIn,
        reduceOption_checked_of_hit hmt (hchecksum mt List.mem_cons_self)]
      rfl
  obtain ⟨cache', blocks, hblocks, hperm⟩ :=
    h.rangeBlocks_perm hnames' hvalid hagrees (by omega) mmt
  exact ⟨cache', blocks, hblocks, htables ▸ hperm⟩

/-- The SSTable of the two blocks with a bit of the second one changed. -/
def twoSecondsHit : Memtable where
  capacity := 2
  entries := twoSeconds.entries.set 1 ⟨(7, 2000), 2, crc32c 0 [2, 0], 2, 0, [3, 0], rfl⟩
  length_le := twoSeconds.length_le

theorem rangeBlocks_damaged_twoSeconds :
    ∃ cache' blocks, rangeBlocks .rational
        (AList.insert (twoSecondsHit.path .rational false) (sstableImage twoSecondsHit.entries) ∅)
        [] (scacheCreate 2 (by decide)) 7 ⟨1000, 2500⟩ = some (cache', blocks) ∧
      blocks = [[1, 0]] := by
  have hstores : SstableDir.Stores .rational [twoSecondsHit]
      (AList.insert (twoSecondsHit.path .rational false) (sstableImage twoSecondsHit.entries) ∅) :=
    ⟨by rw [AList.keys_insert]; exact List.Perm.refl _, fun mt hmt => by
      rw [List.mem_singleton.mp hmt]
      exact AList.lookup_insert _⟩
  have hhit : List.Forall₂ Memtable.Hit [twoSeconds] [twoSecondsHit] :=
    .cons (.cons (.inl rfl) (.cons (.inr ⟨rfl, rfl, .odd rfl (by decide)⟩) .nil)) .nil
  have hchecksum : ∀ mt ∈ [twoSeconds], ∀ e ∈ mt.entries, crc32c 0 e.block = e.checksum := by
    simp [twoSeconds]
  obtain ⟨cache', blocks, hblocks, hperm⟩ := @rangeBlocks_damaged .rational _ _ _ 7 ⟨1000, 2500⟩
    hstores hhit hchecksum (namesApart_of_clockTime not_infix_dataDir clockTime_twoSeconds)
    (scacheCreate 2 (by decide)) (scacheCreate_valid 2 _) (scacheCreate_holds 2 _ _) le_rfl []
  have hreads : rangeReads .rational ⟨1000, 2500⟩ (twoSeconds.path .rational false) := by
    rw [rangeReads_iff not_infix_dataDir (clockTime_twoSeconds _ (List.mem_singleton_self _))]
    decide
  rw [List.zip_cons_cons, List.zip_nil_right, List.flatMap_singleton, if_pos hreads] at hperm
  have hintact : ((twoSeconds.intact twoSecondsHit).filter (inRange 7 ⟨1000, 2500⟩)).filterMap
      (entryBlock .rational) ++ memtableBlocksIn .rational 7 ⟨1000, 2500⟩ [] = [[1, 0]] := by
    decide +kernel
  rw [hintact] at hperm
  exact ⟨cache', blocks, hblocks, List.perm_singleton.mp hperm⟩

end Racs
