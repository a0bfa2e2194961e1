import Racs.BackgroundFlush
import Racs.RangeComplete
import Mathlib.Data.List.ReduceOption
import Mathlib.Data.Nat.Prime.Basic

/-!
# Audio across the boundaries of blocks

A range divides each block into frames on its own, and drops what is left of the block behind its
last whole frame. A block is `2 ^ k` bytes long. Frames of two or four bytes divide it; frames of
three or six bytes never do, so with 24 bits a sample every block loses its last bytes, also when
the frame goes on in the block behind it.

A range over a whole stream may also miss blocks, or meet them in another order than the one in
which they were sent: it goes through the SSTables in the order of their paths, and passes over
those that begin before the window. A missing block is longer than a frame, so it is noticed.

## Main definitions

* `Racs.StreamFormat.wholeFrames` — the bytes of a block that are collected.
* `Racs.ProtocolBlocks`, `Racs.HoldsOnly` — the blocks of a stream, and a directory and memtables
  that hold nothing else of it.
* `Racs.GathersAll` — all bytes are collected, up to an incomplete frame at the end.
* `Racs.FramesMeet` — what is cut off between blocks is not missed.

## Main results

* `Racs.rangeAsTimestamp_eq` — what a range collects.
* `Racs.WholeFramesOf.perm` — no block may be missing.
* `Racs.wholeFramesOf_iff` — no byte may be cut off between blocks.
* `Racs.gathersAll_iff` — when a range collects all bytes of the blocks of a stream.
* `Racs.holdsOnly_exec` — in every run the server holds accepted blocks only.
-/

namespace Racs

open ByteBuffer PartialRun

/-! ### Whole frames -/

variable (format : StreamFormat)

/-- The whole frames at the beginning of a block. -/
def StreamFormat.wholeFrames (block : List UInt8) : List UInt8 :=
  block.take (block.length / format.frameSize * format.frameSize)

/-- What is left of a block behind its last whole frame. -/
def StreamFormat.leftover (block : List UInt8) : List UInt8 :=
  block.drop (block.length / format.frameSize * format.frameSize)

namespace StreamFormat

theorem wholeFrames_append_leftover (block : List UInt8) :
    format.wholeFrames block ++ format.leftover block = block := List.take_append_drop ..

theorem length_leftover (block : List UInt8) :
    (format.leftover block).length = block.length % format.frameSize := by
  rw [leftover, List.length_drop, Nat.mod_def, Nat.mul_comm]

theorem wholeFrames_of_dvd {block : List UInt8} (h : format.frameSize ∣ block.length) :
    format.wholeFrames block = block := by
  rw [wholeFrames, Nat.div_mul_cancel h, List.take_length]

end StreamFormat

variable {format}

/-- A block is written up to its last whole frame. -/
theorem pcmWriteBlock_wholeFrames {pcm : Pcm} (hchannels : pcm.channels = format.channels)
    (hdepth : pcm.bitDepth = format.bitDepth) (block : List UInt8) :
    pcmWriteBlock pcm block = some { pcm with
      outStream := pcm.outStream ++ format.wholeFrames block
      samples := pcm.samples + block.length / format.frameSize } := by
  have hsize : pcm.channels.toNat * pcm.bitDepth.toNat / 8 = format.frameSize := by
    rw [hchannels, hdepth, StreamFormat.frameSize]
  have hslice : slice block 0 (block.length / format.frameSize * format.frameSize) =
      some (format.wholeFrames block) := by
    rw [slice_eq_some, Nat.zero_add, List.drop_zero]
    exact ⟨Nat.div_mul_le_self _ _, rfl⟩
  simp only [pcmWriteBlock, hsize]
  rw [if_neg format.frameSize_pos.ne', pcmWrite, hchannels, hdepth, format.frames_size, hslice,
    Option.map_some]

/-- Blocks are written one after the other, each up to its last whole frame. -/
theorem foldlM_pcmWriteBlock (blocks : List (List UInt8)) {pcm : Pcm}
    (hchannels : pcm.channels = format.channels) (hdepth : pcm.bitDepth = format.bitDepth) :
    ∃ samples, blocks.foldlM pcmWriteBlock pcm = some { pcm with
      outStream := pcm.outStream ++ blocks.flatMap format.wholeFrames
      samples := samples } := by
  induction blocks generalizing pcm with
  | nil => exact ⟨pcm.samples, by rw [List.flatMap_nil, List.append_nil]; rfl⟩
  | cons block blocks ih =>
    obtain ⟨samples, hrest⟩ := @ih { pcm with
      outStream := pcm.outStream ++ format.wholeFrames block
      samples := pcm.samples + block.length / format.frameSize } hchannels hdepth
    refine ⟨samples, ?_⟩
    rw [List.foldlM_cons, pcmWriteBlock_wholeFrames hchannels hdepth, Option.bind_eq_bind,
      Option.bind_some, hrest, List.flatMap_cons, List.append_assoc]

/-! ### What a range collects -/

variable {P : Platform} {d : SstableDir} {mmt : MultiMemtable} {cache cache' : Cache}
  {streamId : UInt64} {w : Window} {es : List MemtableEntry}

/-- The blocks of uncompressed entries. -/
theorem filterMap_entryBlock (hflags : ∀ e ∈ es, e.flags ≠ 1) :
    es.filterMap (entryBlock P) = es.map MemtableEntry.block := by
  have hblock : ∀ e ∈ es, entryBlock P e = (some ∘ MemtableEntry.block) e := fun e he =>
    if_neg (hflags e he)
  rw [List.filterMap_congr hblock, List.filterMap_eq_map]

/-- **What a range collects** of uncompressed entries: the whole frames of each. -/
theorem rangeAsTimestamp_eq (hselect : rangeEntries P d mmt cache streamId w = some (cache', es))
    (hflags : ∀ e ∈ es, e.flags ≠ 1) :
    ∃ pcm, rangeAsTimestamp P d mmt cache
        (pcmInit format.channels format.bitDepth format.sampleRate) streamId w =
          some (cache', pcm) ∧
      pcm.outStream = List.replicate 8 0 ++ es.flatMap fun e => format.wholeFrames e.block := by
  obtain ⟨samples, hfold⟩ := @foldlM_pcmWriteBlock format (es.map MemtableEntry.block)
    (pcmInit format.channels format.bitDepth format.sampleRate) rfl rfl
  rw [List.flatMap_map] at hfold
  refine ⟨{ pcmInit format.channels format.bitDepth format.sampleRate with
    outStream := List.replicate 8 0 ++ es.flatMap fun e => format.wholeFrames e.block
    samples := samples }, ?_, rfl⟩
  rw [rangeAsTimestamp, rangeBlocks, hselect, Option.map_some, Option.bind_some,
    filterMap_entryBlock hflags, hfold]
  rfl

/-- A range over the window, with this cache, collects all bytes of the blocks, one block behind the
other, behind the room for the header and up to an incomplete frame at the end. -/
def Collects (P : Platform) (format : StreamFormat) (d : SstableDir) (mmt : MultiMemtable)
    (cache : Cache) (streamId : UInt64) (w : Window) (blocks : List MemtableEntry) : Prop :=
  ∃ cache' pcm audio rest, rangeAsTimestamp P d mmt cache
      (pcmInit format.channels format.bitDepth format.sampleRate) streamId w =
        some (cache', pcm) ∧
    pcm.outStream = List.replicate 8 0 ++ audio ∧
    blocks.flatMap MemtableEntry.block = audio ++ rest ∧ rest.length < format.frameSize

/-- A range over the window collects all bytes of the blocks, whatever of the SSTables is in the
cache. -/
def GathersAll (P : Platform) (format : StreamFormat) (capacity : ℕ) (d : SstableDir)
    (mmt : MultiMemtable) (streamId : UInt64) (w : Window) (blocks : List MemtableEntry) : Prop :=
  ∀ cache : Cache, cache.Valid → cache.kv.capacity = capacity → cache.Agrees d →
    Collects P format d mmt cache streamId w blocks

/-- The whole frames of the entries are all bytes of the blocks, up to an incomplete frame. -/
def WholeFramesOf (format : StreamFormat) (es blocks : List MemtableEntry) : Prop :=
  ∃ rest, blocks.flatMap MemtableEntry.block =
    (es.flatMap fun e => format.wholeFrames e.block) ++ rest ∧ rest.length < format.frameSize

/-- A range collects all bytes of the blocks if the whole frames of what it selects are these. -/
theorem collects_iff {blocks : List MemtableEntry}
    (hselect : rangeEntries P d mmt cache streamId w = some (cache', es))
    (hflags : ∀ e ∈ es, e.flags ≠ 1) :
    Collects P format d mmt cache streamId w blocks ↔ WholeFramesOf format es blocks := by
  obtain ⟨pcm, hrange, hout⟩ := @rangeAsTimestamp_eq format P d mmt cache cache' streamId w es
    hselect hflags
  constructor
  · rintro ⟨cache'', pcm', audio, rest, hrange', hout', hall, hrest⟩
    obtain ⟨-, rfl⟩ := Prod.mk.inj (Option.some.inj (hrange.symm.trans hrange'))
    rw [WholeFramesOf, List.append_cancel_left (hout.symm.trans hout')]
    exact ⟨rest, hall, hrest⟩
  · rintro ⟨rest, hall, hrest⟩
    exact ⟨cache', pcm, _, rest, hrange, hout, hall, hrest⟩

/-! ### The blocks of a stream -/

/-- What is stored of a stream, in the SSTables and then in the memtables. -/
def storedEntries (streamId : UInt64) (tables : List Memtable) (mmt : MultiMemtable) :
    List MemtableEntry :=
  (tables ++ mmt).flatMap fun mt => mt.entries.filter (·.key.1 = streamId)

/-- The SSTables in the order of their paths. -/
def filed (P : Platform) (tables : List Memtable) : List Memtable :=
  tables.mergeSort fun mt mt' => pathCmpLE (mt.path P false) (mt'.path P false)

/-- The SSTables and memtables hold blocks of the list, each at most once, and nothing else of the
stream. -/
def HoldsOnly (streamId : UInt64) (tables : List Memtable) (mmt : MultiMemtable)
    (blocks : List MemtableEntry) : Prop :=
  (storedEntries streamId tables mmt).Subperm blocks

/-- The sizes of uncompressed blocks: powers of two from 1024 bytes on. -/
def ProtocolSize (size : ℕ) : Prop := ∃ k, 10 ≤ k ∧ size = 2 ^ k

/-- The blocks of a stream in the order in which they were sent: accepted, uncompressed and of the
sizes of the protocol, and all in the window. -/
structure ProtocolBlocks (w : Window) (blocks : List MemtableEntry) : Prop where
  covered : ∀ e ∈ blocks, e.key.2.toInt64 ∈ w
  checksum : ∀ e ∈ blocks, crc32c 0 e.block = e.checksum
  uncompressed : ∀ e ∈ blocks, e.flags ≠ 1
  size : ∀ e ∈ blocks, ProtocolSize e.block.length

variable {tables : List Memtable} {blocks : List MemtableEntry}

theorem filed_perm (P : Platform) (tables : List Memtable) : (filed P tables).Perm tables :=
  List.mergeSort_perm ..

theorem pairwise_filed (P : Platform) (tables : List Memtable) :
    ((filed P tables).map fun mt => mt.path P false).Pairwise (· ≤ ·) := by
  rw [List.pairwise_map]
  have hsorted : (filed P tables).Pairwise fun mt mt' =>
      pathCmpLE (mt.path P false) (mt'.path P false) = true := by
    refine List.pairwise_mergeSort (fun a b c hab hbc => ?_) (fun a b => ?_) tables
    · simp only [pathCmpLE, decide_eq_true_eq] at hab hbc ⊢
      exact le_trans hab hbc
    · simpa only [pathCmpLE, Bool.or_eq_true, decide_eq_true_eq] using
        le_total (a.path P false) (b.path P false)
  exact hsorted.imp fun h => by simpa only [pathCmpLE, decide_eq_true_eq] using h

/-- A range goes through the SSTables in the order of their paths. -/
theorem SstableDir.Stores.list_eq (h : d.Stores P tables) :
    getSortedFilelist (listFilesRecursive d (timeRangeToPath P.dataDir w)) =
      ((filed P tables).map fun mt => mt.path P false).filter
        ((timeRangeToPath P.dataDir w ++ ['/']).isPrefixOf ·) := by
  refine getSortedFilelist_eq ?_ ((pairwise_filed P tables).filter _)
  exact (h.keys.trans ((filed_perm P tables).map _).symm).filter _

theorem SstableDir.Stores.filed (h : d.Stores P tables) : d.Stores P (Racs.filed P tables) where
  keys := h.keys.trans ((filed_perm P tables).map _).symm
  lookup mt hmt := h.lookup mt ((filed_perm P tables).mem_iff.mp hmt)

/-- The entries of the stream in the SSTables that are read, and in the memtables. -/
def gathered (P : Platform) (streamId : UInt64) (w : Window) (tables : List Memtable)
    (mmt : MultiMemtable) : List MemtableEntry :=
  (tables.flatMap fun mt => if rangeReads P w (mt.path P false) then
    mt.entries.filter (·.key.1 = streamId) else []) ++
      mmt.flatMap fun mt => mt.entries.filter (·.key.1 = streamId)

theorem mem_storedEntries_of_table {mt : Memtable} {e : MemtableEntry} (hmt : mt ∈ tables ++ mmt)
    (he : e ∈ mt.entries) (hstream : e.key.1 = streamId) : e ∈ storedEntries streamId tables mmt :=
  List.mem_flatMap.mpr ⟨mt, hmt, List.mem_filter.mpr ⟨he, decide_eq_true hstream⟩⟩

/-- In a window over all blocks, an entry of the stream is one in the range. -/
theorem filter_inRange_eq (hb : ProtocolBlocks w blocks)
    (hholds : HoldsOnly streamId tables mmt blocks) {mt : Memtable} (hmt : mt ∈ tables ++ mmt) :
    mt.entries.filter (inRange streamId w) = mt.entries.filter (·.key.1 = streamId) := by
  refine List.filter_congr fun e he => ?_
  rw [inRange, decide_eq_decide, and_iff_left_iff_imp]
  exact fun hstream =>
    hb.covered e (hholds.subset (mem_storedEntries_of_table hmt he hstream))

theorem filter_reduceOption_checked {q : MemtableEntry → Bool}
    (hq : ∀ e ∈ es, q e → crc32c 0 e.block = e.checksum) :
    (es.map MemtableEntry.checked).reduceOption.filter q = es.filter q := by
  induction es with
  | nil => rfl
  | cons e es ih =>
    obtain ⟨he, hes⟩ := List.forall_mem_cons.mp hq
    rw [List.map_cons, MemtableEntry.checked]
    split_ifs with hchecksum
    · rw [List.reduceOption_cons_of_some, List.filter_cons, List.filter_cons, ih hes]
    · rw [List.reduceOption_cons_of_none, ih hes,
        List.filter_cons_of_neg fun hqe => hchecksum (he hqe)]

/-- All entries of the stream are read from an SSTable. -/
theorem sstableEntriesIn_eq (hb : ProtocolBlocks w blocks)
    (hholds : HoldsOnly streamId tables mmt blocks) {mt : Memtable} (hmt : mt ∈ tables ++ mmt) :
    mt.sstableEntriesIn streamId w = mt.entries.filter (·.key.1 = streamId) := by
  rw [← filter_inRange_eq hb hholds hmt, Memtable.sstableEntriesIn]
  refine filter_reduceOption_checked fun e he hin => ?_
  rw [inRange, decide_eq_true_eq] at hin
  exact hb.checksum e (hholds.subset (mem_storedEntries_of_table hmt he hin.1))

/-- **What a range over all blocks selects.** -/
theorem SstableDir.Stores.rangeEntries_gathered (h : d.Stores P tables)
    (hnames : NamesApart P w tables) (hb : ProtocolBlocks w blocks)
    (hholds : HoldsOnly streamId tables mmt blocks) (hvalid : cache.Valid)
    (hagrees : cache.Agrees d)
    (hroom : cache.kv.capacity = 1 → ∀ mt ∈ tables, ¬ rangeReads P w (mt.path P false)) :
    ∃ cache', rangeEntries P d mmt cache streamId w =
      some (cache', gathered P streamId w (Racs.filed P tables) mmt) := by
  obtain ⟨cache', hentries⟩ :=
    @SstableDir.Stores.rangeEntries_eq P tables d streamId w h hnames cache hvalid hagrees hroom mmt
  refine ⟨cache', hentries.trans ?_⟩
  rw [h.list_eq, h.filed.flatMap_fileEntries, gathered, rangeMemtables]
  congr 3
  · refine List.flatMap_congr fun mt hmt => ?_
    rw [sstableEntriesIn_eq hb hholds
      (List.mem_append_left _ ((filed_perm P tables).mem_iff.mp hmt))]
  · refine List.flatMap_congr fun mt hmt => ?_
    exact filter_inRange_eq hb hholds (List.mem_append_right _ hmt)

/-! ### Blocks of the protocol -/

/-- Frames of 16-bit samples divide the blocks of the protocol. -/
theorem frameSize_dvd_of_protocolSize (hdepth : format.bitDepth = 16) {size : ℕ}
    (h : ProtocolSize size) : format.frameSize ∣ size := by
  obtain ⟨k, hk, rfl⟩ := h
  have hframe : format.frameSize ∣ 2 ^ 2 := by
    rw [StreamFormat.frameSize, hdepth]
    rcases format.channels_eq with hchannels | hchannels <;> rw [hchannels] <;> decide
  exact hframe.trans (Nat.pow_dvd_pow 2 (by omega))

/-- Of a block of the protocol, frames of 24-bit samples leave at least a third of a frame. -/
theorem frameSize_le_mod (hdepth : format.bitDepth = 24) {size : ℕ} (h : ProtocolSize size) :
    format.frameSize ≤ 3 * (size % format.frameSize) := by
  obtain ⟨k, hk, rfl⟩ := h
  have hthree : 2 ^ k % 3 ≠ 0 := by
    intro hzero
    have hdvd := Nat.prime_three.dvd_of_dvd_pow (Nat.dvd_of_mod_eq_zero hzero)
    exact absurd hdvd (by decide)
  have heven : 2 ^ k % 2 = 0 := Nat.mod_eq_zero_of_dvd (dvd_pow_self 2 (by omega))
  generalize 2 ^ k = n at hthree heven
  rcases format.channels_eq with hchannels | hchannels
  · have hframe : format.frameSize = 3 := by
      rw [StreamFormat.frameSize, hchannels, hdepth]
      rfl
    rw [hframe]
    omega
  · have hframe : format.frameSize = 6 := by
      rw [StreamFormat.frameSize, hchannels, hdepth]
      rfl
    rw [hframe]
    omega

theorem length_flatMap_leftover (format : StreamFormat) (blocks : List (List UInt8)) :
    (blocks.flatMap format.wholeFrames).length + (blocks.flatMap format.leftover).length =
      blocks.flatten.length := by
  induction blocks with
  | nil => rfl
  | cons block blocks ih =>
    have hblock := congrArg List.length (format.wholeFrames_append_leftover block)
    rw [List.length_append] at hblock
    rw [List.flatMap_cons, List.flatMap_cons, List.flatten_cons, List.length_append,
      List.length_append, List.length_append]
    omega

/-! ### What is missing -/

theorem storedEntries_perm (P : Platform) (streamId : UInt64) (tables : List Memtable)
    (mmt : MultiMemtable) :
    (storedEntries streamId (filed P tables) mmt).Perm (storedEntries streamId tables mmt) :=
  ((filed_perm P tables).append_right mmt).flatMap_right _

theorem gathered_sublist (P : Platform) (streamId : UInt64) (w : Window) (tables : List Memtable)
    (mmt : MultiMemtable) :
    (gathered P streamId w tables mmt).Sublist (storedEntries streamId tables mmt) := by
  rw [gathered, storedEntries, List.flatMap_append]
  refine List.Sublist.append_right (List.Sublist.flatMap_right tables fun mt _ => ?_) _
  split_ifs
  · exact List.Sublist.refl _
  · exact List.nil_sublist _

/-- Everything of the stream is selected if and only if every SSTable with a block of it is read. -/
theorem gathered_eq_iff : gathered P streamId w tables mmt = storedEntries streamId tables mmt ↔
    ∀ mt ∈ tables, (∃ e ∈ mt.entries, e.key.1 = streamId) → rangeReads P w (mt.path P false) := by
  have hnil : ∀ mt : Memtable, mt.entries.filter (·.key.1 = streamId) ≠ [] ↔
      ∃ e ∈ mt.entries, e.key.1 = streamId := by
    intro mt
    simp [List.filter_eq_nil_iff]
  rw [gathered, storedEntries, List.flatMap_append, List.append_cancel_right_eq]
  constructor
  · intro h mt hmt hstream
    exact (perm_flatMap_ite_iff _ _ _).mp (List.Perm.of_eq h) mt hmt ((hnil mt).mpr hstream)
  · intro h
    refine List.flatMap_congr fun mt hmt => ?_
    by_cases hreads : rangeReads P w (mt.path P false)
    · rw [if_pos hreads]
    · rw [if_neg hreads]
      by_contra hne
      exact hreads (h mt hmt ((hnil mt).mp fun heq => hne heq.symm))

theorem StreamFormat.frameSize_le (format : StreamFormat) : format.frameSize ≤ 6 := by
  rw [StreamFormat.frameSize]
  rcases format.channels_eq with hchannels | hchannels <;>
    rcases format.bitDepth_eq with hdepth | hdepth <;> rw [hchannels, hdepth] <;> decide

/-- **Nothing may be missing**: a block is longer than a frame. -/
theorem WholeFramesOf.perm (h : WholeFramesOf format es blocks) (hsub : es.Subperm blocks)
    (hsize : ∀ e ∈ blocks, ProtocolSize e.block.length) : es.Perm blocks := by
  refine hsub.perm_of_length_le ?_
  by_contra hlt
  obtain ⟨e, l, hperm, hl⟩ := hsub.exists_of_length_lt (by omega)
  obtain ⟨k, hk, hlen⟩ := hsize e (hl.subset (hperm.mem_iff.mpr List.mem_cons_self))
  have hkilo : 2 ^ 10 ≤ e.block.length := hlen ▸ Nat.pow_le_pow_right (by decide) hk
  obtain ⟨rest, hall, hrest⟩ := h
  have hle := (hl.flatMap MemtableEntry.block).length_le
  have hleft := length_flatMap_leftover format (es.map MemtableEntry.block)
  have hsum := congrArg List.length hall
  have hframe := format.frameSize_le
  rw [(hperm.flatMap_right MemtableEntry.block).length_eq, List.flatMap_cons,
    List.length_append] at hle
  rw [List.flatMap_map, List.flatMap_map, ← List.flatMap_def] at hleft
  rw [List.length_append] at hsum
  omega

/-! ### What is cut off -/

/-- Two blocks whose leftovers are together shorter than a frame, and whose whole frames are what
the bytes of the stream begin with: the bytes that are lost look like those behind them. -/
def RepeatsLeftover (format : StreamFormat) : List MemtableEntry → List MemtableEntry → Prop
  | [e₁, e₂], blocks =>
    e₁.block.length % format.frameSize + e₂.block.length % format.frameSize < format.frameSize ∧
      format.wholeFrames e₁.block ++ format.wholeFrames e₂.block <+:
        blocks.flatMap MemtableEntry.block
  | _, _ => False

/-- The samples have 16 bits, and the blocks in the order of the files hold the bytes that they hold
in the order in which they were sent; or there is at most one block; or there are two of which the
second repeats what is left of the first. -/
def FramesMeet (format : StreamFormat) (es blocks : List MemtableEntry) : Prop :=
  format.bitDepth = 16 ∧
      es.flatMap MemtableEntry.block = blocks.flatMap MemtableEntry.block ∨
    blocks.length ≤ 1 ∨ RepeatsLeftover format es blocks

theorem length_flatMap_block (hperm : es.Perm blocks) :
    (es.flatMap MemtableEntry.block).length = (blocks.flatMap MemtableEntry.block).length :=
  (hperm.flatMap_right _).length_eq

/-- Of 16-bit samples nothing is cut off. -/
theorem wholeFramesOf_sixteen_iff (hdepth : format.bitDepth = 16) (hperm : es.Perm blocks)
    (hsize : ∀ e ∈ blocks, ProtocolSize e.block.length) : WholeFramesOf format es blocks ↔
      es.flatMap MemtableEntry.block = blocks.flatMap MemtableEntry.block := by
  have hwhole : (es.flatMap fun e => format.wholeFrames e.block) =
      es.flatMap MemtableEntry.block :=
    List.flatMap_congr fun e he => format.wholeFrames_of_dvd
      (frameSize_dvd_of_protocolSize hdepth (hsize e (hperm.mem_iff.mp he)))
  have hlength := length_flatMap_block hperm
  rw [WholeFramesOf, hwhole]
  constructor
  · rintro ⟨rest, hall, -⟩
    rw [hall, List.length_append] at hlength
    obtain rfl : rest = [] := List.length_eq_zero_iff.mp (by omega)
    rw [hall, List.append_nil]
  · intro heq
    exact ⟨[], by rw [List.append_nil, heq], format.frameSize_pos⟩

theorem wholeFramesOf_pair_iff {e₁ e₂ : MemtableEntry} (hperm : [e₁, e₂].Perm blocks) :
    WholeFramesOf format [e₁, e₂] blocks ↔ RepeatsLeftover format [e₁, e₂] blocks := by
  have hlength := length_flatMap_block hperm
  have h₁ := congrArg List.length (format.wholeFrames_append_leftover e₁.block)
  have h₂ := congrArg List.length (format.wholeFrames_append_leftover e₂.block)
  rw [List.length_append, format.length_leftover] at h₁ h₂
  rw [List.flatMap_cons, List.flatMap_singleton, List.length_append] at hlength
  rw [WholeFramesOf, RepeatsLeftover, List.flatMap_cons, List.flatMap_singleton]
  constructor
  · rintro ⟨rest, hall, hrest⟩
    have hsum := congrArg List.length hall
    rw [List.length_append, List.length_append] at hsum
    exact ⟨by omega, rest, hall.symm⟩
  · rintro ⟨hsmall, rest, hrest⟩
    have hsum := congrArg List.length hrest
    rw [List.length_append, List.length_append] at hsum
    exact ⟨rest, hrest.symm, by omega⟩

theorem RepeatsLeftover.wholeFramesOf (h : RepeatsLeftover format es blocks)
    (hperm : es.Perm blocks) : WholeFramesOf format es blocks := by
  rcases es with - | ⟨e₁, - | ⟨e₂, - | ⟨e₃, es⟩⟩⟩
  · exact h.elim
  · exact h.elim
  · exact (wholeFramesOf_pair_iff hperm).mpr h
  · exact h.elim

/-- One block is cut off at an incomplete frame at its end. -/
theorem wholeFramesOf_short (hperm : es.Perm blocks) (hshort : blocks.length ≤ 1) :
    WholeFramesOf format es blocks := by
  rcases blocks with - | ⟨e, - | ⟨e', blocks⟩⟩
  · obtain rfl := List.perm_nil.mp hperm
    exact ⟨[], rfl, format.frameSize_pos⟩
  · obtain rfl := List.perm_singleton.mp hperm
    refine ⟨format.leftover e.block, ?_, ?_⟩
    · simp [format.wholeFrames_append_leftover]
    · rw [format.length_leftover]
      exact Nat.mod_lt _ format.frameSize_pos
  · simp at hshort

/-- Three blocks of 24-bit samples leave at least a frame. -/
theorem not_wholeFramesOf_of_three (hdepth : format.bitDepth = 24) {e₁ e₂ e₃ : MemtableEntry}
    (hperm : (e₁ :: e₂ :: e₃ :: es).Perm blocks)
    (hsize : ∀ e ∈ blocks, ProtocolSize e.block.length) :
    ¬ WholeFramesOf format (e₁ :: e₂ :: e₃ :: es) blocks := by
  rintro ⟨rest, hall, hrest⟩
  have hlength := length_flatMap_block hperm
  have hlost := length_flatMap_leftover format ((e₁ :: e₂ :: e₃ :: es).map MemtableEntry.block)
  have hsum := congrArg List.length hall
  rw [List.length_append] at hsum
  rw [List.flatMap_map, List.flatMap_map, ← List.flatMap_def] at hlost
  have hleft : ∀ e ∈ e₁ :: e₂ :: e₃ :: es,
      format.frameSize ≤ 3 * (e.block.length % format.frameSize) :=
    fun e he => frameSize_le_mod hdepth (hsize e (hperm.mem_iff.mp he))
  have h₁ := hleft e₁ (by simp)
  have h₂ := hleft e₂ (by simp)
  have h₃ := hleft e₃ (by simp)
  simp only [List.flatMap_cons, List.length_append, format.length_leftover] at hlost hsum hlength
  omega

/-- **When the whole frames are all bytes.** -/
theorem wholeFramesOf_iff (hperm : es.Perm blocks)
    (hsize : ∀ e ∈ blocks, ProtocolSize e.block.length) :
    WholeFramesOf format es blocks ↔ FramesMeet format es blocks := by
  by_cases hshort : blocks.length ≤ 1
  · exact iff_of_true (wholeFramesOf_short hperm hshort) (.inr (.inl hshort))
  · rw [FramesMeet, or_iff_right hshort]
    rcases format.bitDepth_eq with hdepth | hdepth
    · rw [wholeFramesOf_sixteen_iff hdepth hperm hsize, and_iff_right hdepth]
      refine ⟨.inl, fun h => h.elim id fun hrepeats => ?_⟩
      exact (wholeFramesOf_sixteen_iff hdepth hperm hsize).mp (hrepeats.wholeFramesOf hperm)
    · rw [or_iff_right fun h => absurd (h.1.symm.trans hdepth) (by decide)]
      have hlength := hperm.length_eq
      rcases es with - | ⟨e₁, - | ⟨e₂, - | ⟨e₃, es⟩⟩⟩
      · exact absurd (hlength ▸ Nat.zero_le 1) hshort
      · exact absurd (hlength ▸ le_rfl) hshort
      · exact wholeFramesOf_pair_iff hperm
      · exact iff_of_false (not_wholeFramesOf_of_three hdepth hperm hsize) id

/-! ### When a range collects all bytes -/

/-- **When a range over a whole stream collects all bytes of its blocks**: every block is stored,
every SSTable with a block of the stream is one that the range reads, the cache is for two or more
SSTables, unless no SSTable is read, and no byte is cut off between blocks. -/
theorem gathersAll_iff (h : d.Stores P tables) (hnames : NamesApart P w tables)
    (hb : ProtocolBlocks w blocks) (hholds : HoldsOnly streamId tables mmt blocks) {capacity : ℕ}
    (hcapacity : 0 < capacity) :
    GathersAll P format capacity d mmt streamId w blocks ↔
      (storedEntries streamId tables mmt).Perm blocks ∧
      (∀ mt ∈ tables, (∃ e ∈ mt.entries, e.key.1 = streamId) → rangeReads P w (mt.path P false)) ∧
      (capacity = 1 → ∀ mt ∈ tables, ¬ rangeReads P w (mt.path P false)) ∧
      FramesMeet format (storedEntries streamId (filed P tables) mmt) blocks := by
  have hfiled := storedEntries_perm P streamId tables mmt
  have hsub := gathered_sublist P streamId w (filed P tables) mmt
  have hflags : ∀ e ∈ gathered P streamId w (filed P tables) mmt, e.flags ≠ 1 := fun e he =>
    hb.uncompressed e (hholds.subset (hfiled.subset (hsub.subset he)))
  have hreads : (∀ mt ∈ filed P tables, (∃ e ∈ mt.entries, e.key.1 = streamId) →
      rangeReads P w (mt.path P false)) ↔ ∀ mt ∈ tables, (∃ e ∈ mt.entries, e.key.1 = streamId) →
        rangeReads P w (mt.path P false) :=
    forall_congr' fun mt => imp_congr_left (filed_perm P tables).mem_iff
  rw [← hreads, ← gathered_eq_iff]
  constructor
  · intro hall
    have hone : capacity = 1 → ∀ mt ∈ tables, ¬ rangeReads P w (mt.path P false) := by
      rintro rfl mt hmt hread
      obtain ⟨cache, hvalid, hcap, hagrees, hnone⟩ :=
        @SstableDir.Stores.rangeBlocks_eq_none P tables d streamId w h mt hmt hread mmt
      obtain ⟨cache', pcm, audio, rest, hrange, -⟩ := hall cache hvalid hcap hagrees
      rw [rangeAsTimestamp, hnone] at hrange
      cases hrange
    have hvalid := scacheCreate_valid capacity hcapacity
    have hagrees : (scacheCreate capacity hcapacity).Agrees d := scacheCreate_holds capacity _ _
    obtain ⟨cache', hselect⟩ := h.rangeEntries_gathered hnames hb hholds hvalid hagrees hone
    have hwhole := (collects_iff hselect hflags).mp (hall _ hvalid rfl hagrees)
    have hperm := hwhole.perm (hsub.subperm.trans ((hfiled.subperm_right.mpr hholds))) hb.size
    have heq := hsub.eq_of_length_le
      (hperm.length_eq ▸ hfiled.length_eq ▸ hholds.length_le)
    rw [heq] at hwhole hperm
    exact ⟨hfiled.symm.trans hperm, heq, hone, (wholeFramesOf_iff hperm hb.size).mp hwhole⟩
  · rintro ⟨hperm, heq, hone, hmeet⟩ cache hvalid hcap hagrees
    obtain ⟨cache', hselect⟩ := h.rangeEntries_gathered hnames hb hholds hvalid hagrees
      fun hc => hone (hcap ▸ hc)
    refine (collects_iff hselect hflags).mpr ?_
    rw [heq]
    exact (wholeFramesOf_iff (hfiled.trans hperm) hb.size).mpr hmeet

/-! ### The blocks of a run -/

/-- A flush puts an SSTable into the directory, in the place of one with the same path. -/
theorem SstableDir.Stores.flush (h : d.Stores P tables) (mt : Memtable) :
    SstableDir.Stores P (mt :: tables.filter fun mt' => mt'.path P false ≠ mt.path P false)
      ((d.erase (mt.path P true)).insert (mt.path P false) (sstableImage mt.entries)) where
  keys := by
    have htmp : mt.path P true ∉ d.keys := by
      intro hmem
      obtain ⟨mt', -, heq⟩ := List.mem_map.mp (h.keys.mem_iff.mp hmem)
      exact timeToPath_tmp_ne P.dataDir mt.timestamp mt'.timestamp heq.symm
    rw [AList.keys_insert, AList.keys_erase,
      @List.erase_of_not_mem _ instBEqOfDecidableEq _ _ _ htmp, List.map_cons,
      @List.Nodup.erase_eq_filter _ instBEqOfDecidableEq _ _ d.keys_nodup]
    refine List.Perm.cons _ ((h.keys.filter _).trans (List.Perm.of_eq ?_))
    rw [List.filter_map]
    refine congrArg _ (List.filter_congr fun mt' _ => ?_)
    exact decide_not.symm
  lookup mt' hmt' := by
    rcases List.mem_cons.mp hmt' with rfl | hmt'
    · exact AList.lookup_insert _
    · obtain ⟨hmem, hne⟩ := List.mem_filter.mp hmt'
      have htmp : mt'.path P false ≠ mt.path P true := fun heq =>
        timeToPath_tmp_ne P.dataDir mt.timestamp mt'.timestamp heq.symm
      rw [AList.lookup_insert_ne (of_decide_eq_true hne), AList.lookup_erase_ne htmp,
        h.lookup mt' hmem]

/-- The SSTables, the memtables that wait for their flush and the memtable hold accepted entries,
each at most once. -/
structure Store.KeepsOnly (P : Platform) (cfg : Config) (s : Store) (tables : List Memtable)
    (es : List MemtableEntry) : Prop where
  hasMemtable : ∃ mt, s.HasMemtable cfg mt
  jobs : ∀ mt ∈ s.jobs, mt.entries ≠ []
  stores : s.disk.sstables.Stores P tables
  subperm : ((tables ++ (s.jobs ++ s.mmt)).flatMap Memtable.entries).Subperm es

variable {cfg : Config} {s s' : Store} {ev : Event} {o : Output}

theorem Store.init_keepsOnly (P : Platform) (cfg : Config) :
    (Store.init cfg).KeepsOnly P cfg [] [] where
  hasMemtable := ⟨_, Store.init_hasMemtable cfg⟩
  jobs _ h := absurd h List.not_mem_nil
  stores := ⟨List.Perm.refl _, fun _ h => absurd h List.not_mem_nil⟩
  subperm := by
    rw [(Store.init_hasMemtable cfg).1]
    exact List.Subperm.refl _

/-- An accepted entry is kept. -/
theorem Store.KeepsOnly.append {mt mt' : Memtable} {data : List UInt8} {frame : Frame}
    {md : Metadata} {timestamp : Int64} (h : s.KeepsOnly P cfg tables es)
    (hmt : s.HasMemtable cfg mt) (hstored : Stored P s s' data frame md timestamp mt mt') :
    s'.KeepsOnly P cfg tables (es ++ [frame.entry timestamp (s.wal.lsn + 1)]) := by
  have hsubperm := h.subperm
  rw [hmt.1] at hsubperm
  have hall : ((tables ++ (s'.jobs ++ s'.mmt)).flatMap Memtable.entries) =
      (tables ++ (s.jobs ++ [mt])).flatMap Memtable.entries ++
        [frame.entry timestamp (s.wal.lsn + 1)] := by
    rw [hstored.mmt]
    rcases hstored.entries with ⟨-, hentries, hjobs⟩ | ⟨-, hentries, hjobs⟩
    · simp [hjobs, hentries]
    · simp [hjobs, hentries]
  refine ⟨⟨mt', hstored.mmt, hstored.capacity.trans hmt.2⟩, ?_, ?_, ?_⟩
  · rcases hstored.entries with ⟨-, -, hjobs⟩ | ⟨hlen, -, hjobs⟩
    · exact hjobs ▸ h.jobs
    · intro mt'' hmem
      rw [hjobs] at hmem
      rcases List.mem_append.mp hmem with hmem | hmem
      · exact h.jobs mt'' hmem
      · have hpos := cfg.entries_pos
        rw [List.mem_singleton.mp hmem, ← List.length_pos_iff, hlen, hmt.2]
        exact hpos
  · rw [hstored.disk]
    exact h.stores
  · rw [hall]
    exact (List.subperm_append_right _).mpr hsubperm

/-- A flush that runs keeps what it moves, and may replace an SSTable. -/
theorem Store.KeepsOnly.flush {i : ℕ} {full : Memtable} {disk : Disk}
    (h : s.KeepsOnly P cfg tables es) (hfull : s.jobs[i]? = some full)
    (hflush : memtableFlush P s.disk full = some disk) :
    { s with disk := disk, jobs := s.jobs.eraseIdx i }.KeepsOnly P cfg
      (full :: tables.filter fun mt' => mt'.path P false ≠ full.path P false) es := by
  obtain rfl := eq_of_memtableFlush (h.jobs full (List.mem_of_getElem? hfull)) hflush
  refine ⟨h.hasMemtable, fun mt hmt => h.jobs mt (List.mem_of_mem_eraseIdx hmt),
    h.stores.flush full, List.Subperm.trans ?_ h.subperm⟩
  obtain ⟨hi, heq⟩ := List.getElem?_eq_some_iff.mp hfull
  have hjobs : (full :: s.jobs.eraseIdx i).Perm s.jobs := heq ▸ List.getElem_cons_eraseIdx_perm hi
  have hperm : (full :: (tables ++ (s.jobs.eraseIdx i ++ s.mmt))).Perm
      (tables ++ (s.jobs ++ s.mmt)) :=
    List.perm_middle.symm.trans ((hjobs.append_right s.mmt).append_left tables)
  refine List.Subperm.trans ?_ (hperm.flatMap_right _).subperm
  exact (((List.filter_sublist.append_right _).cons_cons full).flatMap _).subperm

/-- **Every step** keeps accepted entries only. -/
theorem Store.KeepsOnly.step (h : s.KeepsOnly P cfg tables es)
    (hstep : Racs.step P s ev = some (s', o)) :
    ∃ tables', s'.KeepsOnly P cfg tables' (es ++ o.entry?.toList) := by
  obtain ⟨mt, hmt⟩ := h.hasMemtable
  rcases step_cases hmt hstep with ⟨rfl, md, kv, -, rfl⟩ |
    ⟨data, frame, md, timestamp, mt', -, rfl, hstored⟩ | ⟨i, full, disk, -, rfl, hfull, hflush, rfl⟩
  · refine ⟨tables, h.hasMemtable, h.jobs, h.stores, ?_⟩
    exact (List.append_nil es).symm ▸ h.subperm
  · exact ⟨tables, h.append hmt hstored⟩
  · exact ⟨_, (List.append_nil es).symm ▸ h.flush hfull hflush⟩

/-- **In every run** the directory holds SSTables which, with the memtable, hold blocks of each
stream that were accepted, each at most once. -/
theorem holdsOnly_exec {evs : List Event} {os : List Output}
    (hrun : exec (Racs.step P) (Store.init cfg) evs = some (s, os)) :
    ∃ tables, s.disk.sstables.Stores P tables ∧ ∀ streamId, HoldsOnly streamId tables s.mmt
      ((acceptedEntries os).filter (·.key.1 = streamId)) := by
  obtain ⟨tables, h⟩ := exec_induction
    (P := fun os s => ∃ tables, s.KeepsOnly P cfg tables (acceptedEntries os))
    (fun os s ev s' o ⟨_, h⟩ hstep => acceptedEntries_concat os o ▸ h.step hstep)
    ⟨_, Store.init_keepsOnly P cfg⟩ hrun
  refine ⟨tables, h.stores, fun streamId => ?_⟩
  have hsub : ((tables ++ s.mmt).flatMap Memtable.entries).Subperm (acceptedEntries os) := by
    refine List.Subperm.trans (List.Sublist.subperm (List.Sublist.flatMap ?_ _)) h.subperm
    exact (List.sublist_append_right _ _).append_left _
  rw [HoldsOnly, storedEntries, ← List.filter_flatMap]
  exact hsub.filter _

/-! ### Two blocks -/

/-- Without SSTables, a range selects what is in the memtables. -/
theorem rangeEntries_empty :
    rangeEntries P ∅ mmt cache streamId w = some (cache, rangeMemtables mmt streamId w) := by
  have hfiles : getSortedFilelist (listFilesRecursive ∅ (timeRangeToPath P.dataDir w)) = [] := by
    rw [getSortedFilelist, listFilesRecursive, AList.keys_empty, List.filter_nil,
      List.mergeSort_nil]
  rw [rangeEntries, hfiles]
  rfl

/-- A block of 1024 times a byte, of the stream 1 at a time. -/
def kilobyte (time : UInt64) (b : UInt8) : MemtableEntry where
  key := (1, time)
  lsn := 0
  checksum := crc32c 0 (List.replicate 1024 b)
  blockSize := 1024
  flags := 0
  block := List.replicate 1024 b
  length_block := List.length_replicate

/-- A memtable with one such block. -/
def oneKilobyte (time : UInt64) (b : UInt8) : Memtable := ⟨1, [kilobyte time b], le_rfl⟩

theorem protocolBlocks_kilobytes {w : Window} {t t' : UInt64} (b b' : UInt8)
    (h : t.toInt64 ∈ w) (h' : t'.toInt64 ∈ w) :
    ProtocolBlocks w [kilobyte t b, kilobyte t' b'] where
  covered e he := by
    rcases List.mem_pair.mp he with rfl | rfl
    · exact h
    · exact h'
  checksum e he := by
    rcases List.mem_pair.mp he with rfl | rfl <;> rfl
  uncompressed e he := by
    have hflags : e.flags = 0 := by
      rcases List.mem_pair.mp he with rfl | rfl <;> rfl
    rw [hflags]
    decide
  size e he := by
    refine ⟨10, le_rfl, ?_⟩
    rcases List.mem_pair.mp he with rfl | rfl <;> exact List.length_replicate

/-- Two blocks of stereo samples of 16 bits, the first in an SSTable. -/
theorem gathersAll_stereo :
    GathersAll .rational ⟨48000, 2, 16, .inr rfl, .inl rfl⟩ 2
      (AList.insert ((oneKilobyte 1000 1).path Platform.rational false)
        (sstableImage (oneKilobyte 1000 1).entries) ∅)
      [oneKilobyte 2000 2] 1 ⟨500, 2500⟩ [kilobyte 1000 1, kilobyte 2000 2] := by
  have hstores : SstableDir.Stores Platform.rational [oneKilobyte 1000 1]
      (AList.insert ((oneKilobyte 1000 1).path Platform.rational false)
        (sstableImage (oneKilobyte 1000 1).entries) ∅) :=
    SstableDir.stores_singleton _ _
  have hclock : ∀ mt ∈ [oneKilobyte 1000 1], ClockTime mt.timestamp := by
    intro mt hmt
    rw [List.mem_singleton.mp hmt]
    exact ⟨by decide, by decide⟩
  have hstored : storedEntries 1 [oneKilobyte 1000 1] [oneKilobyte 2000 2] =
      [kilobyte 1000 1, kilobyte 2000 2] := rfl
  refine (gathersAll_iff hstores (namesApart_of_clockTime not_infix_dataDir hclock)
    (protocolBlocks_kilobytes 1 2 (by decide) (by decide)) (List.Perm.of_eq hstored).subperm
    (by decide)).mpr ⟨List.Perm.of_eq hstored, fun mt hmt _ => ?_, fun h => absurd h (by decide),
      .inl ⟨rfl, ?_⟩⟩
  · rw [rangeReads_iff not_infix_dataDir (hclock mt hmt), List.mem_singleton.mp hmt]
    decide
  · rw [filed, List.mergeSort_singleton, hstored]

/-- Two blocks of mono samples of 24 bits: the last byte of the first block is missing. -/
theorem not_gathersAll_mono :
    ¬ GathersAll .rational ⟨48000, 1, 24, .inl rfl, .inr rfl⟩ 2 ∅
      [⟨4, [kilobyte 0 1, kilobyte 5 2], by decide⟩] 1 ⟨0, 10⟩ [kilobyte 0 1, kilobyte 5 2] := by
  intro h
  have hall := h (scacheCreate 2 (by decide)) (scacheCreate_valid 2 _) rfl
    (scacheCreate_holds 2 _ _)
  have hwhole := (collects_iff rangeEntries_empty (by decide)).mp hall
  obtain ⟨-, hprefix⟩ := (wholeFramesOf_pair_iff (List.Perm.refl _)).mp hwhole
  revert hprefix
  decide +kernel

end Racs
