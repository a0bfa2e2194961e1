import Racs.Frame

/-!
# Memtables

A memtable (`memtable.c`) collects the blocks of accepted frames, of all streams, in the order of
their arrival. The list of memtables starts with the one that is being filled. When that one is
full, the last memtable of the list is handed to a detached flush, and a new one becomes the head.

Linking a new memtable drops the last one of the list, also while the list is being created. The
list that `racs_multi_memtable_create` returns therefore has one memtable, whatever the number of
tables it was asked for.

## Main definitions

* `Racs.MemtableEntry`, `Racs.Memtable`.
* `Racs.multiMemtableCreate`, `Racs.multiMemtableMoveToHead`, `Racs.multiMemtableAppend`.

## Main results

* `Racs.multiMemtableCreate_succ` — the list that is created has one memtable.
* `Racs.multiMemtableAppend_cases` — an append to such a list.
-/

namespace Racs

/-- `racs_memtable_entry`; `key` is the stream id with the timestamp, and the block has
`block_size` bytes. -/
structure MemtableEntry where
  key : UInt64 × UInt64
  lsn : UInt64
  checksum : UInt32
  blockSize : UInt16
  flags : UInt8
  block : List UInt8
  length_block : block.length = blockSize.toNat
  deriving DecidableEq

/-- What `racs_memtable_append` stores for a frame under a timestamp when `racs_wal_lsn` is
`lsn`. -/
def Frame.entry (frame : Frame) (timestamp : Int64) (lsn : UInt64) : MemtableEntry where
  key := (frame.header.streamId, timestamp.toUInt64)
  lsn := lsn
  checksum := frame.header.checksum
  blockSize := frame.header.blockSize
  flags := frame.header.flags
  block := frame.pcmBlock
  length_block := frame.length_pcmBlock

/-- `racs_memtable`; an entry is only stored where memory was allocated for it. -/
structure Memtable where
  capacity : UInt16
  entries : List MemtableEntry
  length_le : entries.length ≤ capacity.toNat
  deriving DecidableEq

/-- `racs_memtable_create`. -/
def memtableCreate (capacity : UInt16) : Memtable := ⟨capacity, [], Nat.zero_le _⟩

/-- The memtable with one more entry. -/
def Memtable.push (mt : Memtable) (e : MemtableEntry)
    (h : mt.entries.length < mt.capacity.toNat) : Memtable :=
  ⟨mt.capacity, mt.entries ++ [e], by rw [List.length_append]; exact h⟩

/-- `racs_memtable_append`; undefined when the memtable is full. -/
def memtableAppend (mt : Memtable) (e : MemtableEntry) : Option Memtable :=
  if h : mt.entries.length < mt.capacity.toNat then some (mt.push e h) else none

/-! ### The list of memtables -/

/-- The memtables of `racs_multi_memtable`, from the head to the tail. -/
abbrev MultiMemtable := List Memtable

/-- `racs_multi_memtable_move_to_head`: unless the list is empty, its tail is unlinked. -/
def multiMemtableMoveToHead (mmt : MultiMemtable) (mt : Memtable) : MultiMemtable :=
  mt :: mmt.dropLast

/-- `racs_multi_memtable_create`. -/
def multiMemtableCreate (numTables : ℕ) (capacity : UInt16) : MultiMemtable :=
  numTables.repeat (multiMemtableMoveToHead · (memtableCreate capacity)) []

/-- `racs_memtable_append(mmt->head, …)`; undefined on an empty list. -/
def multiMemtableAppendHead (mmt : MultiMemtable) (e : MemtableEntry) : Option MultiMemtable :=
  match mmt with
  | [] => none
  | head :: rest => (memtableAppend head e).map (· :: rest)

/-- `racs_multi_memtable_append`, with the memtable that is handed to `racs_memtable_flush_async`;
undefined on an empty list. -/
def multiMemtableAppend (mmt : MultiMemtable) (e : MemtableEntry) :
    Option (MultiMemtable × Option Memtable) :=
  mmt.head?.bind fun head =>
    if head.capacity.toNat ≤ head.entries.length then
      (multiMemtableAppendHead
        (multiMemtableMoveToHead mmt (memtableCreate head.capacity)) e).map (·, mmt.getLast?)
    else (multiMemtableAppendHead mmt e).map (·, none)

/-- **The list is created with one memtable**, whatever the number of tables. -/
theorem multiMemtableCreate_succ (n : ℕ) (capacity : UInt16) :
    multiMemtableCreate (n + 1) capacity = [memtableCreate capacity] := by
  induction n with
  | zero => rfl
  | succ n ih =>
    rw [multiMemtableCreate, Nat.repeat, ← multiMemtableCreate, ih]
    rfl

theorem memtableAppend_of_lt {mt : Memtable} (e : MemtableEntry)
    (h : mt.entries.length < mt.capacity.toNat) : memtableAppend mt e = some (mt.push e h) :=
  dif_pos h

/-- An append to a memtable that is not full adds the entry to it. -/
theorem multiMemtableAppend_of_lt {mt : Memtable} (e : MemtableEntry)
    (h : mt.entries.length < mt.capacity.toNat) :
    multiMemtableAppend [mt] e = some ([mt.push e h], none) := by
  rw [multiMemtableAppend, List.head?_cons, Option.bind_some, if_neg (by omega),
    multiMemtableAppendHead, memtableAppend_of_lt e h]
  rfl

/-- An append to a full memtable hands it to a flush and starts a new one with the entry. -/
theorem multiMemtableAppend_of_full {mt : Memtable} (e : MemtableEntry)
    (h : mt.capacity.toNat ≤ mt.entries.length) (hpos : 0 < mt.capacity.toNat) :
    multiMemtableAppend [mt] e =
      some ([(memtableCreate mt.capacity).push e hpos], some mt) := by
  have happend : memtableAppend (memtableCreate mt.capacity) e =
      some ((memtableCreate mt.capacity).push e hpos) :=
    @memtableAppend_of_lt (memtableCreate mt.capacity) e hpos
  rw [multiMemtableAppend, List.head?_cons, Option.bind_some, if_pos h, multiMemtableMoveToHead,
    multiMemtableAppendHead, happend]
  rfl

/-- **An append to a list with one memtable** leaves one memtable of the same capacity, which ends
in the new entry: the old one with the entry, or, if that one was full and is handed over, a new
one. -/
theorem multiMemtableAppend_cases {mt : Memtable} (e : MemtableEntry)
    (hpos : 0 < mt.capacity.toNat) :
    ∃ mt' full, multiMemtableAppend [mt] e = some ([mt'], full) ∧ mt'.capacity = mt.capacity ∧
      (mt.entries.length < mt.capacity.toNat ∧ mt'.entries = mt.entries ++ [e] ∧ full = none ∨
        mt.entries.length = mt.capacity.toNat ∧ mt'.entries = [e] ∧ full = some mt) := by
  by_cases h : mt.entries.length < mt.capacity.toNat
  · exact ⟨_, _, multiMemtableAppend_of_lt e h, rfl, .inl ⟨h, rfl, rfl⟩⟩
  · rw [not_lt] at h
    exact ⟨_, _, multiMemtableAppend_of_full e h hpos, rfl,
      .inr ⟨le_antisymm mt.length_le h, rfl, rfl⟩⟩

end Racs
