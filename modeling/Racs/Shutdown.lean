import Racs.Flush
import Racs.MemtableList
import Racs.Foundation.Chain

/-!
# Flushing all memtables at the shutdown

`racs_multi_memtable_flush` walks along the list of memtables from the head. For each memtable it
flushes the one behind it, and goes on from there. The head is not flushed by any step, and a
memtable that was flushed is destroyed, so that going on from it reads freed memory.

## Main definitions

* `Racs.linkedMemtableFlush`, `Racs.linkedMultiMemtableFlush`.
* `Racs.FlushesAll` — every memtable with entries is written once, and no destroyed one is read.

## Main results

* `Racs.linkedMultiMemtableFlush_eq` — what the shutdown does to a list of memtables.
* `Racs.flushesAll_iff` — the lists that are flushed.
-/

namespace Racs

open LinkedList

/-- The disk and the memory of the memtables during the shutdown, and the memtables that were
written. -/
structure ShutdownState where
  disk : Disk
  memory : Memory ℕ Memtable
  written : List ℕ

/-- `racs_memtable_flush`, with `racs_memtable_destroy` at its end. -/
def linkedMemtableFlush (P : Platform) (s : ShutdownState) (mt : Option ℕ) :
    Option ShutdownState :=
  match mt with
  | none => some s
  | some a => (s.memory a).bind fun node =>
    if node.value.entries = [] then some s
    else (memtableFlush P s.disk node.value).bind fun disk =>
      (s.memory.free a).map fun memory => ⟨disk, memory, s.written ++ [a]⟩

/-- The loop of `racs_multi_memtable_flush`. -/
def linkedMultiMemtableFlushLoop (P : Platform) :
    ℕ → ShutdownState → Option ℕ → Option ShutdownState
  | _, s, none => some s
  | 0, _, some _ => none
  | n + 1, s, some mt => (s.memory mt).bind fun node =>
    (linkedMemtableFlush P s node.next).bind fun s =>
    linkedMultiMemtableFlushLoop P n s node.next

/-- `racs_multi_memtable_flush`; the list has at most as many memtables as were allocated. -/
def linkedMultiMemtableFlush (P : Platform) (d : Disk) (l : LinkedMemtables) :
    Option ShutdownState :=
  linkedMultiMemtableFlushLoop P l.allocated ⟨d, l.memory, []⟩ l.head

variable {P : Platform} {before : Option ℕ}

/-- A memtable with entries behind the first one is read after it was destroyed. -/
theorem linkedMultiMemtableFlushLoop_eq_none {s : ShutdownState} {x : ℕ × Memtable}
    {xs : List (ℕ × Memtable)} (h : Linked s.memory before none (x :: xs))
    (hentries : ∃ y ∈ xs, y.2.entries ≠ []) (n : ℕ) :
    linkedMultiMemtableFlushLoop P n s (some x.1) = none := by
  induction xs generalizing n x before with
  | nil =>
    obtain ⟨y, hy, -⟩ := hentries
    cases hy
  | cons y xs ih =>
    cases n with
    | zero => rfl
    | succ n =>
      obtain ⟨hx, hrest⟩ := h
      rw [linkedMultiMemtableFlushLoop, hx, Option.bind_some]
      simp only [List.head?_cons, Option.map_some, Option.some_or, linkedMemtableFlush, hrest.1,
        Option.bind_some]
      split_ifs with hempty
      · refine ih hrest ?_ n
        obtain ⟨z, hz, hne⟩ := hentries
        rcases List.mem_cons.mp hz with rfl | hz
        · exact absurd hempty hne
        · exact ⟨z, hz, hne⟩
      · cases memtableFlush P s.disk y.2 with
        | none => rfl
        | some disk =>
          simp only [Option.bind_some, Memory.free, hrest.1, Option.map_some]
          cases n with
          | zero => rfl
          | succ n =>
            rw [linkedMultiMemtableFlushLoop]
            simp only [Function.update_self, Option.bind_none]

/-- Where no memtable behind the first one has entries, nothing is written. -/
theorem linkedMultiMemtableFlushLoop_eq_self {s : ShutdownState} {x : ℕ × Memtable}
    {xs : List (ℕ × Memtable)} (h : Linked s.memory before none (x :: xs))
    (hempty : ∀ y ∈ xs, y.2.entries = []) {n : ℕ} (hn : (x :: xs).length ≤ n) :
    linkedMultiMemtableFlushLoop P n s (some x.1) = some s := by
  induction xs generalizing n x before with
  | nil =>
    obtain ⟨n, rfl⟩ : ∃ m, n = m + 1 := Nat.exists_eq_add_one.mpr hn
    rw [linkedMultiMemtableFlushLoop, h.1, Option.bind_some]
    simp only [List.head?_nil, Option.map_none, Option.none_or, linkedMemtableFlush,
      Option.bind_some]
    rw [linkedMultiMemtableFlushLoop]
  | cons y xs ih =>
    obtain ⟨n, rfl⟩ : ∃ m, n = m + 1 := Nat.exists_eq_add_one.mpr (by simp at hn; omega)
    obtain ⟨hx, hrest⟩ := h
    rw [linkedMultiMemtableFlushLoop, hx, Option.bind_some]
    simp only [List.head?_cons, Option.map_some, Option.some_or, linkedMemtableFlush, hrest.1,
      Option.bind_some, if_pos (hempty y List.mem_cons_self)]
    exact ih hrest (fun z hz => hempty z (List.mem_cons_of_mem _ hz)) (by simpa using hn)

/-- **What the shutdown does**: it writes nothing, and is undefined if a memtable behind the head
has entries. -/
theorem linkedMultiMemtableFlush_eq {l : LinkedMemtables} {xs : List (ℕ × Memtable)}
    (h : IsList l.memory l.head l.tail xs) (hlt : ∀ x ∈ xs, x.1 < l.allocated) (d : Disk) :
    linkedMultiMemtableFlush P d l =
      if ∀ y ∈ xs.tail, y.2.entries = [] then some ⟨d, l.memory, []⟩ else none := by
  have hlength : xs.length ≤ l.allocated := by
    rw [← List.length_map (f := Prod.fst)]
    refine Chain.length_le_of_nodup_of_lt h.nodup fun a ha => ?_
    obtain ⟨x, hx, rfl⟩ := List.mem_map.mp ha
    exact hlt x hx
  rw [linkedMultiMemtableFlush, h.head_eq]
  cases xs with
  | nil =>
    refine Eq.trans ?_ (if_pos fun y hy => absurd hy List.not_mem_nil).symm
    rw [List.head?_nil, Option.map_none, linkedMultiMemtableFlushLoop]
  | cons x xs =>
    split_ifs with hempty
    · exact linkedMultiMemtableFlushLoop_eq_self h.linked hempty hlength
    · rw [List.tail_cons] at hempty
      push Not at hempty
      exact linkedMultiMemtableFlushLoop_eq_none h.linked hempty _

/-- At the shutdown every memtable of the list that has entries is written to an SSTable, once, and
no memtable is read after it was destroyed, which would be undefined. -/
def FlushesAll (P : Platform) (d : Disk) (l : LinkedMemtables) (xs : List (ℕ × Memtable)) : Prop :=
  ∃ s, linkedMultiMemtableFlush P d l = some s ∧
    s.written.Perm ((xs.filter fun x => x.2.entries ≠ []).map Prod.fst)

/-- **Which lists are flushed**: those without any entry. -/
theorem flushesAll_iff {l : LinkedMemtables} {xs : List (ℕ × Memtable)}
    (h : IsList l.memory l.head l.tail xs) (hlt : ∀ x ∈ xs, x.1 < l.allocated) (d : Disk) :
    FlushesAll P d l xs ↔ ∀ x ∈ xs, x.2.entries = [] := by
  rw [FlushesAll, linkedMultiMemtableFlush_eq h hlt]
  constructor
  · rintro ⟨s, hflush, hperm⟩
    split_ifs at hflush
    obtain rfl := Option.some.inj hflush
    have hnil := List.map_eq_nil_iff.mp hperm.nil_eq.symm
    intro x hx
    simpa using List.filter_eq_nil_iff.mp hnil x hx
  · intro hempty
    refine ⟨_, if_pos fun y hy => hempty y (List.mem_of_mem_tail hy), ?_⟩
    rw [List.filter_eq_nil_iff.mpr fun x hx => by simpa using hempty x hx]
    exact .nil

/-- Two memtables without entries. -/
theorem flushesAll_empty : FlushesAll .rational ⟨WalDir.empty, ∅, ∅⟩
    ⟨fun a => if a = 0 then some ⟨memtableCreate 4, some 1, none⟩
      else if a = 1 then some ⟨memtableCreate 4, none, some 0⟩ else none, 2, some 0, some 1⟩
    [(0, memtableCreate 4), (1, memtableCreate 4)] := by
  refine (@flushesAll_iff .rational
    ⟨fun a => if a = 0 then some ⟨memtableCreate 4, some 1, none⟩
      else if a = 1 then some ⟨memtableCreate 4, none, some 0⟩ else none, 2, some 0, some 1⟩
    [(0, memtableCreate 4), (1, memtableCreate 4)] ?_ (by simp)
      ⟨WalDir.empty, ∅, ∅⟩).mpr (by simp [memtableCreate])
  exact ⟨rfl, rfl, ⟨rfl, rfl, trivial⟩, by simp⟩

/-- **The memtable of the server is lost**: its list has one memtable, which is the head. -/
theorem linkedMultiMemtableFlush_single {l : LinkedMemtables} {mt : Memtable} (h : l.Shows [mt])
    (d : Disk) : linkedMultiMemtableFlush P d l = some ⟨d, l.memory, []⟩ := by
  obtain ⟨xs, hlist, hlt, hxs⟩ := h
  obtain ⟨x, rfl, -⟩ := List.map_eq_singleton_iff.mp hxs
  rw [linkedMultiMemtableFlush_eq hlist hlt]
  exact if_pos fun y hy => absurd hy List.not_mem_nil

/-- One entry in the only memtable. -/
theorem not_flushesAll_one : ¬∀ (P : Platform) (d : Disk) (l : LinkedMemtables)
    (xs : List (ℕ × Memtable)), IsList l.memory l.head l.tail xs →
    (∀ x ∈ xs, x.1 < l.allocated) → FlushesAll P d l xs := by
  intro h
  let mt : Memtable := ⟨4, [⟨(0, 0), 1, 0, 0, 0, [], rfl⟩], by decide⟩
  let l : LinkedMemtables :=
    ⟨fun a => if a = 0 then some ⟨mt, none, none⟩ else none, 1, some 0, some 0⟩
  have hlist : IsList l.memory l.head l.tail [(0, mt)] := .singleton rfl
  have hlt : ∀ x ∈ [(0, mt)], x.1 < l.allocated := by
    intro x hx
    rw [List.mem_singleton.mp hx]
    exact Nat.one_pos
  obtain ⟨s, hflush, hperm⟩ := h .rational ⟨WalDir.empty, ∅, ∅⟩ l [(0, mt)] hlist hlt
  rw [linkedMultiMemtableFlush_single ⟨_, hlist, hlt, rfl⟩] at hflush
  obtain rfl := Option.some.inj hflush
  exact absurd hperm.length_eq (by decide)

end Racs
