import Racs.Memtable
import Racs.Foundation.LinkedList
import Racs.Foundation.PartialRun
import Mathlib.Data.List.ReduceOption

/-!
# The links between memtables

The memtables of `racs_multi_memtable` are a doubly linked list with a head and a tail.
`racs_multi_memtable_move_to_head` links a memtable in front of the head and, unless the list was
empty, unlinks the tail. Creating the list and rotating it are the same operation, so the list never
gets longer than one memtable.

## Main definitions

* `Racs.LinkedMemtables` — the memory with the head and the tail of the list.
* `Racs.linkedMoveToHead`, `Racs.linkedMultiMemtableCreate`, `Racs.linkedAppend`.
* `Racs.LinkedMemtables.Shows` — the memtables of the list, from the head to the tail.
* `Racs.KeepsShape` — the list keeps its length and its links, and has the blocks that were not
  handed to a flush.

## Main results

* `Racs.shows_linkedMoveToHead`, `Racs.shows_linkedAppend` — the pointers follow the list.
* `Racs.keepsShape_iff` — which lists keep their shape.
-/

namespace Racs

open LinkedList PartialRun

/-- The memory with the pointers of `racs_multi_memtable`. -/
structure LinkedMemtables where
  memory : Memory ℕ Memtable
  allocated : ℕ
  head : Option ℕ
  tail : Option ℕ

/-- `racs_memtable_create`, with the new address; the pointers of the memtable are only set when it
is linked. -/
def linkedMemtableCreate (l : LinkedMemtables) (capacity : UInt16) : LinkedMemtables × ℕ :=
  ({ l with
    memory := l.memory.write l.allocated ⟨memtableCreate capacity, none, none⟩
    allocated := l.allocated + 1 }, l.allocated)

/-- `racs_multi_memtable_move_to_head`; undefined where a pointer is null. -/
def linkedMoveToHead (l : LinkedMemtables) (mt : ℕ) : Option LinkedMemtables :=
  (l.memory.modify mt fun node => { node with prev := none, next := l.head }).bind fun memory =>
  match l.head with
  | some head =>
    (memory.modify head fun node => { node with prev := some mt }).bind fun memory =>
    (l.tail.bind memory).bind fun last => last.prev.bind fun tail =>
    (memory.modify tail fun node => { node with next := none }).map fun memory =>
      { l with memory := memory, head := some mt, tail := some tail }
  | none => some { l with memory := memory, head := some mt, tail := some mt }

/-- The loop of `racs_multi_memtable_create`. -/
def linkedCreateLoop (capacity : UInt16) : ℕ → Option LinkedMemtables
  | 0 => some ⟨fun _ => none, 0, none, none⟩
  | n + 1 => (linkedCreateLoop capacity n).bind fun l =>
    let (l, mt) := linkedMemtableCreate l capacity
    linkedMoveToHead l mt

/-- `racs_multi_memtable_create`; a memtable stores its capacity in 16 bits. -/
def linkedMultiMemtableCreate (numTables capacity : ℕ) : Option LinkedMemtables :=
  linkedCreateLoop (.ofNat capacity) numTables

/-- `racs_memtable_append(mmt->head, …)`. -/
def linkedAppendHead (l : LinkedMemtables) (e : MemtableEntry) : Option LinkedMemtables :=
  l.head.bind fun head => (l.memory head).bind fun node =>
  (memtableAppend node.value e).map fun mt =>
    { l with memory := l.memory.write head { node with value := mt } }

/-- `racs_multi_memtable_append`, with the memtable that is handed to
`racs_memtable_flush_async`. -/
def linkedAppend (l : LinkedMemtables) (e : MemtableEntry) :
    Option (LinkedMemtables × Option Memtable) :=
  (l.head.bind l.memory).bind fun head =>
    if head.value.capacity.toNat ≤ head.value.entries.length then
      (l.tail.bind l.memory).bind fun tail =>
      let (l, mt) := linkedMemtableCreate l head.value.capacity
      (linkedMoveToHead l mt).bind fun l => (linkedAppendHead l e).map (·, some tail.value)
    else (linkedAppendHead l e).map (·, none)

/-! ### The list behind the pointers -/

/-- The pointers are those of a list of allocated memtables. -/
def LinkedMemtables.Shows (l : LinkedMemtables) (mmt : MultiMemtable) : Prop :=
  ∃ xs, IsList l.memory l.head l.tail xs ∧ (∀ x ∈ xs, x.1 < l.allocated) ∧
    xs.map Prod.snd = mmt

/-- A new memtable becomes the head, and the tail is unlinked. -/
theorem shows_linkedMoveToHead {l : LinkedMemtables} {mmt : MultiMemtable} (h : l.Shows mmt)
    (capacity : UInt16) :
    ∃ l', linkedMoveToHead (linkedMemtableCreate l capacity).1
        (linkedMemtableCreate l capacity).2 = some l' ∧
      l'.Shows (multiMemtableMoveToHead mmt (memtableCreate capacity)) := by
  obtain ⟨xs, hlist, hlt, rfl⟩ := h
  have hfresh : l.allocated ∉ xs.map Prod.fst := by
    intro hmem
    obtain ⟨x, hx, heq⟩ := List.mem_map.mp hmem
    exact absurd (hlt x hx) (by omega)
  have hlist' := (hlist.write hfresh ⟨memtableCreate capacity, none, none⟩).write hfresh
    ⟨memtableCreate capacity, l.head, none⟩
  have hnew := (l.memory.write l.allocated ⟨memtableCreate capacity, none, none⟩).write_same
    l.allocated ⟨memtableCreate capacity, l.head, none⟩
  rw [linkedMoveToHead, linkedMemtableCreate, Memory.modify_of_eq (Memory.write_same ..),
    Option.bind_some]
  rcases List.eq_nil_or_concat' xs with rfl | ⟨zs, last, rfl⟩
  · have hhead : l.head = none := hlist.head_eq
    rw [hhead] at hnew ⊢
    refine ⟨_, rfl, [(l.allocated, memtableCreate capacity)], .singleton hnew, ?_, rfl⟩
    intro x hx
    obtain rfl := List.mem_singleton.mp hx
    exact Nat.lt_succ_self _
  · obtain ⟨x, xs, hxs⟩ : ∃ x xs, zs ++ [last] = x :: xs :=
      List.exists_cons_of_ne_nil (List.append_ne_nil_of_right_ne_nil _ (List.cons_ne_nil _ _))
    obtain ⟨ys, p, hys⟩ : ∃ ys p, (l.allocated, memtableCreate capacity) :: zs = ys ++ [p] :=
      ⟨_, _, (List.dropLast_append_getLast (List.cons_ne_nil _ _)).symm⟩
    have hhead : l.head = some x.1 := by rw [hlist.head_eq, hxs]; rfl
    rw [hxs] at hlist' hfresh
    rw [hhead] at hnew hlist' ⊢
    obtain ⟨memory, hlink, hlinked⟩ := hlist'.link hnew hfresh
    rw [← hxs, ← List.cons_append, hys, List.append_assoc, List.singleton_append] at hlinked
    obtain ⟨htail, ⟨node, hnode, hprev⟩, memory', hunlink, hunlinked⟩ := hlinked.unlink
    rw [← hys] at hunlinked
    refine ⟨⟨memory', l.allocated + 1, some l.allocated, some p.1⟩, ?_, _, hunlinked, ?_, ?_⟩
    · simp only [hlink, Option.bind_some]
      rw [htail, Option.bind_some, hnode, Option.bind_some, hprev, Option.bind_some, hunlink]
      rfl
    · intro x hx
      rcases List.mem_cons.mp hx with rfl | hx
      · exact Nat.lt_succ_self _
      · exact Nat.lt_succ_of_lt (hlt x (List.mem_append_left _ hx))
    · rw [multiMemtableMoveToHead, List.map_append, List.map_singleton, List.dropLast_concat]
      rfl

theorem shows_linkedCreateLoop (capacity : UInt16) (n : ℕ) :
    ∃ l, linkedCreateLoop capacity n = some l ∧ l.Shows (multiMemtableCreate n capacity) := by
  induction n with
  | zero => exact ⟨_, rfl, [], .nil _, fun x hx => absurd hx List.not_mem_nil, rfl⟩
  | succ n ih =>
    obtain ⟨l, hl, hshows⟩ := ih
    obtain ⟨l', hl', hshows'⟩ := shows_linkedMoveToHead hshows capacity
    exact ⟨l', by rw [linkedCreateLoop, hl]; exact hl', hshows'⟩

theorem shows_linkedAppendHead {l : LinkedMemtables} {mmt : MultiMemtable} (h : l.Shows mmt)
    (e : MemtableEntry) :
    Option.Rel LinkedMemtables.Shows (linkedAppendHead l e) (multiMemtableAppendHead mmt e) := by
  obtain ⟨xs, hlist, hlt, rfl⟩ := h
  cases xs with
  | nil =>
    have hhead : l.head = none := hlist.head_eq
    rw [linkedAppendHead, hhead]
    exact .none
  | cons x xs =>
    have hhead : l.head = some x.1 := hlist.head_eq
    rw [linkedAppendHead, hhead, Option.bind_some, List.map_cons, multiMemtableAppendHead]
    cases happend : memtableAppend x.2 e with
    | none =>
      obtain ⟨node, hnode, hvalue, -⟩ := hlist.modifyHead x.2
      rw [hnode, Option.bind_some, hvalue, happend]
      exact .none
    | some mt =>
      obtain ⟨node, hnode, hvalue, hlist'⟩ := hlist.modifyHead mt
      rw [hnode, Option.bind_some, hvalue, happend]
      refine .some ⟨(x.1, mt) :: xs, hhead ▸ hlist', ?_, rfl⟩
      intro y hy
      rcases List.mem_cons.mp hy with rfl | hy
      · exact hlt x List.mem_cons_self
      · exact hlt y (List.mem_cons_of_mem _ hy)

/-- **An append goes along with the list**, and hands over the same memtable. -/
theorem shows_linkedAppend {l : LinkedMemtables} {mmt : MultiMemtable} (h : l.Shows mmt)
    (e : MemtableEntry) :
    Option.Rel (fun p q => p.1.Shows q.1 ∧ p.2 = q.2) (linkedAppend l e)
      (multiMemtableAppend mmt e) := by
  obtain ⟨xs, hlist, hlt, hmmt⟩ := id h
  have rel_map : ∀ (full : Option Memtable) {x : Option LinkedMemtables}
      {y : Option MultiMemtable}, Option.Rel LinkedMemtables.Shows x y →
      Option.Rel (fun p q => p.1.Shows q.1 ∧ p.2 = q.2) (x.map (·, full)) (y.map (·, full)) := by
    intro full x y hxy
    cases hxy with
    | some hab => exact .some ⟨hab, rfl⟩
    | none => exact .none
  cases xs with
  | nil =>
    have hhead : l.head = none := hlist.head_eq
    rw [linkedAppend, hhead, ← hmmt]
    exact .none
  | cons x xs =>
    have hhead : l.head.bind l.memory = some ⟨x.2, (xs.head?.map Prod.fst).or none, none⟩ := by
      rw [hlist.head_eq]
      exact hlist.linked.1
    have hmmt' : mmt.head? = some x.2 := by rw [← hmmt]; rfl
    rw [linkedAppend, multiMemtableAppend, hhead, hmmt', Option.bind_some, Option.bind_some]
    by_cases hfull : x.2.capacity.toNat ≤ x.2.entries.length
    · obtain ⟨node, htail, hlast⟩ : ∃ node, l.tail.bind l.memory = some node ∧
          mmt.getLast? = some node.value := by
        obtain ⟨node, hnode, hvalue⟩ := hlist.tail_node (List.cons_ne_nil x xs)
        exact ⟨node, hnode, by rw [← hmmt, List.getLast?_map, hvalue]⟩
      obtain ⟨l', hl', hshows⟩ := shows_linkedMoveToHead h x.2.capacity
      rw [if_pos hfull, if_pos hfull, htail, hlast, Option.bind_some]
      simp only [hl', Option.bind_some]
      exact rel_map _ (shows_linkedAppendHead hshows e)
    · rw [if_neg hfull, if_neg hfull]
      exact rel_map none (shows_linkedAppendHead h e)

/-! ### The shape of the list -/

/-- After the list is created and after every sequence of appends, the list has `numTables`
memtables, linked both ways, none with more than `capacity` entries, and these are, from the tail to
the head, the appended ones that were not handed to a flush. -/
def KeepsShape (numTables capacity : ℕ) : Prop :=
  ∀ es : List MemtableEntry, ∃ l₀ l handed xs,
    linkedMultiMemtableCreate numTables capacity = some l₀ ∧
    exec linkedAppend l₀ es = some (l, handed) ∧
    IsList l.memory l.head l.tail xs ∧ xs.length = numTables ∧
    (∀ x ∈ xs, x.2.entries.length ≤ capacity) ∧
    handed.reduceOption.flatMap Memtable.entries ++
      xs.reverse.flatMap (fun x => x.2.entries) = es

/-- The list that is created has one memtable. -/
theorem length_eq_one_of_create {n capacity : ℕ} {l : LinkedMemtables} {xs : List (ℕ × Memtable)}
    (hl : linkedMultiMemtableCreate (n + 1) capacity = some l)
    (hxs : IsList l.memory l.head l.tail xs) : xs.length = 1 := by
  obtain ⟨l', hl', ys, hys, -, hmmt⟩ := shows_linkedCreateLoop (.ofNat capacity) (n + 1)
  obtain rfl := Option.some.inj (hl.symm.trans hl')
  rw [multiMemtableCreate_succ] at hmmt
  rw [hxs.unique hys, ← List.length_map, hmmt, List.length_singleton]

/-- With one memtable, what was handed over and the entries of the memtable are what was
appended. All of these memtables have the capacity of the first one. -/
theorem exec_multiMemtableAppend {mt : Memtable} (hpos : 0 < mt.capacity.toNat)
    (es : List MemtableEntry) :
    ∃ mt' handed, exec multiMemtableAppend [mt] es = some ([mt'], handed) ∧
      mt'.capacity = mt.capacity ∧ (∀ full, some full ∈ handed → full.capacity = mt.capacity) ∧
      handed.reduceOption.flatMap Memtable.entries ++ mt'.entries = mt.entries ++ es := by
  induction es generalizing mt with
  | nil => exact ⟨mt, [], rfl, rfl, fun _ h => absurd h List.not_mem_nil, (List.append_nil _).symm⟩
  | cons e es ih =>
    obtain ⟨mt₁, full, happend, hcapacity, hcases⟩ := multiMemtableAppend_cases e hpos
    obtain ⟨mt', handed, hrun, hcapacity', hhanded, hentries⟩ := ih (hcapacity ▸ hpos)
    refine ⟨mt', full :: handed, ?_, hcapacity'.trans hcapacity, fun mt₂ hmem => ?_, ?_⟩
    · rw [exec_cons, happend, Option.bind_some, hrun]
      rfl
    · rcases List.mem_cons.mp hmem with rfl | hmem
      · obtain ⟨-, -, hnone⟩ | ⟨-, -, hsome⟩ := hcases
        · cases hnone
        · rw [Option.some.inj hsome]
      · exact (hhanded mt₂ hmem).trans hcapacity
    · obtain ⟨-, hentries₁, rfl⟩ | ⟨-, hentries₁, rfl⟩ := hcases
      · rw [hentries₁, List.append_assoc] at hentries
        exact hentries
      · rw [hentries₁] at hentries
        rw [List.reduceOption_cons_of_some, List.flatMap_cons, List.append_assoc, hentries]
        rfl

/-- **Which lists keep their shape**: those for one memtable, unless 16 bits of the capacity are
zero. -/
theorem keepsShape_iff (numTables capacity : ℕ) :
    KeepsShape numTables capacity ↔ numTables = 1 ∧ capacity % 65536 ≠ 0 := by
  constructor
  · intro h
    let e : MemtableEntry := ⟨(0, 0), 0, 0, 0, 0, [], rfl⟩
    obtain ⟨l₀, l, handed, -, hcreate, hrun, -⟩ := h [e]
    obtain ⟨n, rfl⟩ : ∃ n, numTables = n + 1 := by
      cases numTables with
      | zero =>
        obtain rfl := Option.some.inj hcreate
        cases hrun
      | succ n => exact ⟨n, rfl⟩
    constructor
    · obtain ⟨l₁, l₁', handed', xs, hcreate', hrun', hxs, hlength, -⟩ := h []
      obtain ⟨rfl, -⟩ := Prod.mk.inj (Option.some.inj hrun')
      rw [← hlength, length_eq_one_of_create hcreate' hxs]
    · intro hcapacity
      obtain ⟨l', hl', hshows⟩ := shows_linkedCreateLoop (.ofNat capacity) (n + 1)
      obtain rfl := Option.some.inj (hcreate.symm.trans hl')
      have hzero : UInt16.ofNat capacity = 0 := by
        apply UInt16.toNat_inj.mp
        rw [UInt16.toNat_ofNat']
        exact hcapacity
      rw [multiMemtableCreate_succ, hzero] at hshows
      have happend := shows_linkedAppend hshows e
      obtain ⟨l₁, o, -, hstep, -⟩ := exec_cons_eq_some.mp hrun
      rw [hstep] at happend
      cases happend
  · rintro ⟨rfl, hcapacity⟩ es
    obtain ⟨l₀, hcreate, hshows⟩ := shows_linkedCreateLoop (.ofNat capacity) 1
    rw [multiMemtableCreate_succ] at hshows
    have htoNat : (UInt16.ofNat capacity).toNat = capacity % 65536 := UInt16.toNat_ofNat' ..
    obtain ⟨mt, handed, hrun, hmt, -, hentries⟩ :=
      @exec_multiMemtableAppend (memtableCreate (.ofNat capacity))
        (by rw [memtableCreate, htoNat]; omega) es
    have hrel := exec_rel LinkedMemtables.Shows (fun l mmt e h => shows_linkedAppend h e) hshows es
    rw [hrun] at hrel
    obtain ⟨⟨l, handed'⟩, hrun', ⟨xs, hlist, -, hxs⟩, rfl⟩ := exists_of_rel_some_right hrel
    obtain ⟨⟨a, mt'⟩, rfl⟩ : ∃ x, xs = [x] := by
      rw [← List.length_eq_one_iff, ← List.length_map, hxs, List.length_singleton]
    obtain rfl : mt' = mt := (List.cons.inj hxs).1
    refine ⟨l₀, l, handed', _, hcreate, hrun', hlist, rfl, ?_, ?_⟩
    · intro x hx
      obtain rfl := List.mem_singleton.mp hx
      have hle := mt'.length_le
      rw [hmt, memtableCreate, htoNat] at hle
      exact hle.trans (Nat.mod_le _ _)
    · rw [List.reverse_singleton, List.flatMap_singleton]
      exact hentries

/-- Two memtables of one block each are asked for, and the list has one. -/
theorem not_keepsShape_two : ¬ KeepsShape 2 1 := by
  intro h
  obtain ⟨l₀, l, handed, xs, hcreate, hrun, hxs, hlength, -⟩ := h []
  obtain ⟨rfl, -⟩ := Prod.mk.inj (Option.some.inj hrun)
  rw [length_eq_one_of_create hcreate hxs] at hlength
  cases hlength

end Racs
