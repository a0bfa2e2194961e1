import Racs.KvStoreMemory
import Mathlib.Data.Finset.Card

/-!
# The life of a hash table

`racs_kvstore_destroy` walks along the chain of every bin, passes each pair to the destructor and
frees its entry. The destructors of the tables in the server free the key and the value, so that a
pair that is destroyed twice is freed twice, and one that is not destroyed is lost.

## Main definitions

* `Racs.linkedKvDestroy` — `racs_kvstore_destroy`.
* `Racs.Ledger` — every entry that was allocated is in memory, or its pair was destroyed.

## Main results

* `Racs.linkedKvDestroy_history` — from its creation to its end, a table destroys every pair that
  was put into it once, and frees every entry.
-/

namespace Racs

open Chain PartialRun

variable {κ ν : Type}

/-- The inner loop of `racs_kvstore_destroy`, with the memory and the destroyed pairs. -/
def linkedKvDestroyLoop : ℕ → Option ℕ → Memory ℕ (κ × ν) × List (κ × ν) →
    Option (Memory ℕ (κ × ν) × List (κ × ν))
  | _, none, s => some s
  | 0, some _, _ => none
  | n + 1, some curr, s => (s.1 curr).bind fun entry => (s.1.free curr).bind fun memory =>
    linkedKvDestroyLoop n entry.next (memory, s.2 ++ [entry.value])

/-- `racs_kvstore_destroy`; undefined where an entry is not allocated. The bins are freed with the
entries, the table itself is not. -/
def linkedKvDestroy (kv : LinkedKvStore κ ν) : Option (Memory ℕ (κ × ν) × List (κ × ν)) :=
  (List.finRange kv.capacity).foldlM
    (fun s i => linkedKvDestroyLoop kv.allocated (kv.bins i).node s) (kv.memory, kv.destroyed)

/-! ### The entries in memory -/

/-- The addresses below a bound that hold an entry. -/
def heldEntries (memory : Memory ℕ (κ × ν)) (n : ℕ) : Finset ℕ :=
  (Finset.range n).filter fun a => (memory a).isSome

theorem mem_heldEntries {memory : Memory ℕ (κ × ν)} {n a : ℕ} :
    a ∈ heldEntries memory n ↔ a < n ∧ (memory a).isSome := by
  rw [heldEntries, Finset.mem_filter, Finset.mem_range]

/-- Every entry that was allocated is in memory, or its pair was destroyed. -/
structure Ledger (memory : Memory ℕ (κ × ν)) (allocated : ℕ) (destroyed : List (κ × ν)) :
    Prop where
  beyond : ∀ a, allocated ≤ a → memory a = none
  count : (heldEntries memory allocated).card + destroyed.length = allocated

namespace Ledger

variable {memory memory' : Memory ℕ (κ × ν)} {allocated : ℕ} {destroyed : List (κ × ν)}
  (h : Ledger memory allocated destroyed)
include h

/-- An entry is freed, and its pair destroyed. -/
theorem free {a : ℕ} (hfree : memory.free a = some memory') (pair : κ × ν) :
    Ledger memory' allocated (destroyed ++ [pair]) := by
  obtain ⟨cell, ha, rfl⟩ := Option.map_eq_some_iff.mp hfree
  have hlt : a < allocated := by
    by_contra hge
    rw [h.beyond a (not_lt.mp hge)] at ha
    cases ha
  have hlive : heldEntries (Function.update memory a none) allocated =
      (heldEntries memory allocated).erase a := by
    ext b
    rw [Finset.mem_erase, mem_heldEntries, mem_heldEntries]
    by_cases hb : b = a
    · simp [hb]
    · rw [Function.update_of_ne hb]
      exact ⟨fun hmem => ⟨hb, hmem⟩, And.right⟩
  refine ⟨fun b hb => ?_, ?_⟩
  · rw [Function.update_of_ne (by omega)]
    exact h.beyond b hb
  · have hmem : a ∈ heldEntries memory allocated :=
      mem_heldEntries.mpr ⟨hlt, by rw [ha]; rfl⟩
    have hcard := Finset.card_erase_add_one hmem
    have hcount := h.count
    rw [hlive, List.length_append, List.length_singleton]
    omega

/-- A pointer in an entry is changed. -/
theorem modify {a : ℕ} {f : Cell ℕ (κ × ν) → Cell ℕ (κ × ν)}
    (hmodify : memory.modify a f = some memory') : Ledger memory' allocated destroyed := by
  obtain ⟨cell, ha, rfl⟩ := Option.map_eq_some_iff.mp hmodify
  have hsome : ∀ b, (memory.write a (f cell) b).isSome = (memory b).isSome := by
    intro b
    by_cases hb : b = a
    · rw [hb, memory.write_same, ha]
      rfl
    · rw [memory.write_of_ne _ hb]
  refine ⟨fun b hb => ?_, ?_⟩
  · have hnone := hsome b
    rw [h.beyond b hb] at hnone
    exact Option.isSome_eq_false_iff.mp hnone |> Option.isNone_iff_eq_none.mp
  · have hlive :
        heldEntries (memory.write a (f cell)) allocated = heldEntries memory allocated := by
      ext b
      rw [mem_heldEntries, mem_heldEntries, hsome]
    rw [hlive]
    exact h.count

/-- An entry is allocated. -/
theorem write (cell : Cell ℕ (κ × ν)) :
    Ledger (memory.write allocated cell) (allocated + 1) destroyed := by
  have hlive : heldEntries (memory.write allocated cell) (allocated + 1) =
      insert allocated (heldEntries memory allocated) := by
    ext b
    rw [Finset.mem_insert, mem_heldEntries, mem_heldEntries]
    by_cases hb : b = allocated
    · simp [hb]
    · rw [memory.write_of_ne _ hb]
      constructor
      · exact fun hmem => .inr ⟨by omega, hmem.2⟩
      · rintro (heq | hmem)
        · exact absurd heq hb
        · exact ⟨by omega, hmem.2⟩
  refine ⟨fun b hb => ?_, ?_⟩
  · rw [memory.write_of_ne _ (by omega)]
    exact h.beyond b (by omega)
  · have hnew : allocated ∉ heldEntries memory allocated := fun hmem =>
      absurd (mem_heldEntries.mp hmem).1 (lt_irrefl _)
    have hcount := h.count
    rw [hlive, Finset.card_insert_of_notMem hnew]
    omega

/-- When as many pairs were destroyed as entries allocated, no entry is in memory. -/
theorem eq_empty (hlen : destroyed.length = allocated) : memory = fun _ => none := by
  have hcard : (heldEntries memory allocated).card = 0 := by
    have hcount := h.count
    omega
  funext a
  rcases Nat.lt_or_ge a allocated with hlt | hge
  · by_contra hne
    have hmem := mem_heldEntries.mpr ⟨hlt, Option.isSome_iff_ne_none.mpr hne⟩
    rw [Finset.card_eq_zero.mp hcard] at hmem
    exact absurd hmem (Finset.notMem_empty a)
  · exact h.beyond a hge

end Ledger

theorem linkedKvDeleteLoop_none (kv : LinkedKvStore κ ν) (key : κ) (n : ℕ) (prev : Option ℕ) :
    linkedKvDeleteLoop kv key n prev none = some kv := by
  rw [linkedKvDeleteLoop]

theorem linkedKvPutLoop_none (kv : LinkedKvStore κ ν) (key : κ) (n : ℕ) :
    linkedKvPutLoop kv key n none = some kv := by
  rw [linkedKvPutLoop]

/-- What a loop of a deletion leaves is as many entries in memory less as it destroyed pairs. -/
theorem ledger_linkedKvDeleteLoop {kv kv' : LinkedKvStore κ ν} {key : κ} {n : ℕ}
    {prev curr : Option ℕ} (h : Ledger kv.memory kv.allocated kv.destroyed)
    (hdelete : linkedKvDeleteLoop kv key n prev curr = some kv') :
    Ledger kv'.memory kv'.allocated kv'.destroyed ∧ kv'.allocated = kv.allocated := by
  induction n generalizing prev curr with
  | zero =>
    cases curr with
    | none =>
      obtain rfl := Option.some.inj ((linkedKvDeleteLoop_none ..).symm.trans hdelete)
      exact ⟨h, rfl⟩
    | some curr => simp only [linkedKvDeleteLoop, reduceCtorEq] at hdelete
  | succ n ih =>
    cases curr with
    | none =>
      obtain rfl := Option.some.inj ((linkedKvDeleteLoop_none ..).symm.trans hdelete)
      exact ⟨h, rfl⟩
    | some curr =>
      rw [linkedKvDeleteLoop] at hdelete
      obtain ⟨entry, hentry, hdelete⟩ := Option.bind_eq_some_iff.mp hdelete
      dsimp only at hdelete
      split_ifs at hdelete with hcmp
      · cases prev with
        | none =>
          obtain ⟨memory, hfree, rfl⟩ := Option.map_eq_some_iff.mp hdelete
          exact ⟨h.free hfree _, rfl⟩
        | some prev =>
          obtain ⟨memory₁, hmodify, hdelete⟩ := Option.bind_eq_some_iff.mp hdelete
          obtain ⟨memory, hfree, rfl⟩ := Option.map_eq_some_iff.mp hdelete
          exact ⟨(h.modify hmodify).free hfree _, rfl⟩
      · exact ih hdelete

theorem ledger_linkedKvPutLoop {kv kv' : LinkedKvStore κ ν} {key : κ} {n : ℕ} {curr : Option ℕ}
    (h : Ledger kv.memory kv.allocated kv.destroyed)
    (hput : linkedKvPutLoop kv key n curr = some kv') :
    Ledger kv'.memory kv'.allocated kv'.destroyed ∧ kv'.allocated = kv.allocated := by
  induction n generalizing curr with
  | zero =>
    cases curr with
    | none =>
      obtain rfl := Option.some.inj ((linkedKvPutLoop_none ..).symm.trans hput)
      exact ⟨h, rfl⟩
    | some curr => simp only [linkedKvPutLoop, reduceCtorEq] at hput
  | succ n ih =>
    cases curr with
    | none =>
      obtain rfl := Option.some.inj ((linkedKvPutLoop_none ..).symm.trans hput)
      exact ⟨h, rfl⟩
    | some curr =>
      rw [linkedKvPutLoop] at hput
      obtain ⟨entry, hentry, hput⟩ := Option.bind_eq_some_iff.mp hput
      split_ifs at hput with hcmp
      · exact ledger_linkedKvDeleteLoop h hput
      · exact ih hput

/-! ### The pairs in the lists -/

/-- A list is the first element with a property and the others. -/
theorem perm_find_eraseP {α : Type} (p : α → Bool) (l : List α) :
    l.Perm ((l.find? p).toList ++ l.eraseP p) := by
  induction l with
  | nil => exact .refl _
  | cons a l ih =>
    rw [List.find?_cons, List.eraseP_cons]
    cases p a with
    | true => exact .refl _
    | false => exact (ih.cons a).trans List.perm_middle.symm

/-- One of several lists is taken apart. -/
theorem flatMap_update_perm {ι α : Type} [DecidableEq ι] {f : ι → List α} {i : ι}
    {extra l : List α} (hl : (f i).Perm (extra ++ l)) {is : List ι} (hi : i ∈ is)
    (hnodup : is.Nodup) : (is.flatMap f).Perm (extra ++ is.flatMap (Function.update f i l)) := by
  induction is with
  | nil => cases hi
  | cons j is ih =>
    obtain ⟨hnot, hnodup⟩ := List.nodup_cons.mp hnodup
    rw [List.flatMap_cons, List.flatMap_cons]
    rcases eq_or_ne j i with rfl | hne
    · have hrest : is.flatMap (Function.update f j l) = is.flatMap f :=
        List.flatMap_congr fun k hk => Function.update_of_ne (fun heq : k = j => hnot (heq ▸ hk)) ..
      rw [Function.update_self, hrest, ← List.append_assoc]
      exact hl.append_right _
    · have hi' := (List.mem_cons.mp hi).resolve_left hne.symm
      rw [Function.update_of_ne hne]
      exact ((ih hi' hnodup).append_left _).trans (List.perm_append_comm_assoc ..)

theorem perm_entries_setBin {kv : KvStore κ ν} {i : Fin kv.capacity} {extra : List (κ × ν)}
    {bin : KvStoreBin κ ν} (hbin : (kv.bins i).node.Perm (extra ++ bin.node)) :
    (kvstoreEntries kv).Perm (extra ++ kvstoreEntries (kv.setBin i bin)) := by
  have hupdate : kvstoreEntries (kv.setBin i bin) = (List.finRange kv.capacity).flatMap
      (Function.update (fun j => (kv.bins j).node) i bin.node) := by
    refine List.flatMap_congr fun (j : Fin kv.capacity) _ => ?_
    by_cases hj : j = i
    · rw [hj, Function.update_self, kv.setBin_bins_self]
    · rw [Function.update_of_ne hj, kv.setBin_bins_of_ne hj]
  rw [hupdate]
  exact @flatMap_update_perm _ _ _ (fun j => (kv.bins j).node) i _ _ hbin _
    (List.mem_finRange i) (List.nodup_finRange _)

/-- A deletion takes the pair that it finds out of the table. -/
theorem perm_entries_delete (kv : KvStore κ ν) (key : κ) :
    (kvstoreEntries kv).Perm
      ((kvstoreFind kv key).toList ++ kvstoreEntries (kvstoreDelete kv key)) := by
  refine perm_entries_setBin ?_
  rw [kvstoreBinDelete_node]
  exact perm_find_eraseP _ _

/-- A new pair is one more in the table. -/
theorem perm_entries_append (kv : KvStore κ ν) (key : κ) (value : ν) :
    (kvstoreEntries (kvstoreAppend kv key value)).Perm ((key, value) :: kvstoreEntries kv) := by
  have hself : (kvstoreAppend kv key value).bins (kvstoreGetBin kv key) =
      kvstoreBinAppend (kv.bins (kvstoreGetBin kv key)) key value := kv.setBin_bins_self ..
  have hbin : ((kvstoreAppend kv key value).bins (kvstoreGetBin kv key)).node.Perm
      ([(key, value)] ++ (kv.bins (kvstoreGetBin kv key)).node) :=
    .of_eq (congrArg KvStoreBin.node hself)
  have hback : (kvstoreAppend kv key value).setBin (kvstoreGetBin kv key)
      (kv.bins (kvstoreGetBin kv key)) = kv :=
    (kv.setBin_setBin _ _ _).trans
      (congrArg (fun bins => { kv with bins := bins }) (Function.update_eq_self _ kv.bins))
  have hperm := perm_entries_setBin hbin
  rwa [hback] at hperm

/-! ### A life -/

/-- The pair that an operation puts into the table. -/
def KvOp.pair? : KvOp κ ν → Option (κ × ν)
  | .put key value => some (key, value)
  | .get _ => none
  | .delete _ => none

/-- The pairs that a history has put are those in the table and those that were destroyed. -/
structure KvLedger (history : List (KvOp κ ν)) (l : LinkedKvStore κ ν) (kv : KvStore κ ν) :
    Prop where
  shows : l.Shows kv
  ledger : Ledger l.memory l.allocated l.destroyed
  perm : (l.destroyed ++ kvstoreEntries kv).Perm (history.filterMap KvOp.pair?)
  allocated : l.allocated = (history.filterMap KvOp.pair?).length

/-- **One operation** keeps the ledger. -/
theorem KvLedger.step {history : List (KvOp κ ν)} {l : LinkedKvStore κ ν} {kv : KvStore κ ν}
    (h : KvLedger history l kv) (op : KvOp κ ν) :
    ∃ l' kv' reply, linkedKvStep l op = some (l', reply) ∧
      KvLedger (history ++ [op]) l' kv' := by
  obtain ⟨hshows, hledger, hperm, hallocated⟩ := h
  have hfound := fun key => (perm_entries_delete kv key).symm.append_left l.destroyed
  cases op with
  | put key value =>
    obtain ⟨l', hput, hshows', hdestroyed⟩ := shows_linkedKvPut hshows key value
    obtain ⟨l₁, hloop, rfl⟩ := Option.map_eq_some_iff.mp hput
    obtain ⟨hledger₁, hallocated₁⟩ := ledger_linkedKvPutLoop hledger hloop
    refine ⟨linkedKvBinAppend l₁ key value, kvstorePut kv key value, none,
      by rw [linkedKvStep, hput]; rfl, hshows', hledger₁.write _, ?_, ?_⟩
    · rw [hdestroyed, kvstorePut_eq_append, List.filterMap_append, List.append_assoc]
      refine (((perm_entries_append _ key value).append_left _).append_left _).trans ?_
      refine (List.Perm.append_left _ List.perm_middle).trans (List.perm_middle.trans ?_)
      refine (((hfound key).trans hperm).cons _).trans ?_
      exact (List.perm_append_singleton _ _).symm
    · rw [List.filterMap_append, List.length_append, ← hallocated, ← hallocated₁]
      rfl
  | get key =>
    refine ⟨l, kv, kvstoreGet kv key, by rw [linkedKvStep, shows_linkedKvGet hshows]; rfl, hshows,
      hledger, ?_, ?_⟩
    · rw [List.filterMap_append]
      exact hperm.trans (.of_eq (List.append_nil _).symm)
    · rw [List.filterMap_append]
      exact hallocated.trans (congrArg List.length (List.append_nil _).symm)
  | delete key =>
    obtain ⟨l', hdelete, hshows', hdestroyed⟩ := shows_linkedKvDelete hshows key
    obtain ⟨hledger', hallocated'⟩ := ledger_linkedKvDeleteLoop hledger hdelete
    refine ⟨l', kvstoreDelete kv key, none, by rw [linkedKvStep, hdelete]; rfl, hshows', hledger',
      ?_, ?_⟩
    · rw [hdestroyed, List.filterMap_append, List.append_assoc]
      exact ((hfound key).trans hperm).trans (.of_eq (List.append_nil _).symm)
    · rw [List.filterMap_append, hallocated', hallocated]
      exact congrArg List.length (List.append_nil _).symm

/-- The entries of a chain are freed, and their pairs destroyed in its order. -/
theorem linkedKvDestroyLoop_eq {n allocated : ℕ} {head : Option ℕ} {xs : List (ℕ × (κ × ν))}
    {memory : Memory ℕ (κ × ν)} {destroyed : List (κ × ν)} (hchain : IsChain memory head xs)
    (hnodup : (xs.map Prod.fst).Nodup) (hn : xs.length ≤ n)
    (hledger : Ledger memory allocated destroyed) :
    ∃ memory', linkedKvDestroyLoop n head (memory, destroyed) =
        some (memory', destroyed ++ xs.map Prod.snd) ∧
      (∀ a, a ∉ xs.map Prod.fst → memory' a = memory a) ∧
      Ledger memory' allocated (destroyed ++ xs.map Prod.snd) := by
  induction xs generalizing n head memory destroyed with
  | nil =>
    obtain rfl : head = none := hchain
    rw [List.map_nil, List.append_nil]
    exact ⟨memory, by rw [linkedKvDestroyLoop], fun _ _ => rfl, hledger⟩
  | cons x xs ih =>
    have hhead : head = some x.1 := hchain.1
    obtain ⟨n, rfl⟩ : ∃ m, n = m + 1 := Nat.exists_eq_add_one.mpr (by simp at hn; omega)
    obtain ⟨next, memory₁, hx, hfree, hoff, htail⟩ := hchain.tail hnodup
    obtain ⟨hnot, hnodup⟩ := List.nodup_cons.mp hnodup
    obtain ⟨memory', hloop, hoff', hledger'⟩ :=
      ih htail hnodup (by simpa using hn) (hledger.free hfree x.2)
    rw [List.append_assoc, List.singleton_append] at hloop hledger'
    refine ⟨memory', ?_, fun a ha => ?_, hledger'⟩
    · rw [hhead, linkedKvDestroyLoop]
      dsimp only
      rw [hx, Option.bind_some, hfree, Option.bind_some]
      exact hloop
    · rw [List.map_cons, List.mem_cons, not_or] at ha
      rw [hoff' a ha.2, hoff a ha.1]

/-- The chains of some bins are freed, one after the other. -/
theorem foldlM_linkedKvDestroyLoop {l : LinkedKvStore κ ν}
    {chains : Fin l.capacity → List (ℕ × (κ × ν))} (h : l.IsTable chains)
    {is : List (Fin l.capacity)} (hnodup : is.Nodup) {memory : Memory ℕ (κ × ν)}
    {destroyed : List (κ × ν)} (hchain : ∀ i ∈ is, IsChain memory (l.bins i).node (chains i))
    (hledger : Ledger memory l.allocated destroyed) :
    ∃ memory', is.foldlM (fun s i => linkedKvDestroyLoop l.allocated (l.bins i).node s)
        (memory, destroyed) =
          some (memory', destroyed ++ is.flatMap fun i => (chains i).map Prod.snd) ∧
      Ledger memory' l.allocated (destroyed ++ is.flatMap fun i => (chains i).map Prod.snd) := by
  induction is generalizing memory destroyed with
  | nil =>
    rw [List.flatMap_nil, List.append_nil]
    exact ⟨memory, rfl, hledger⟩
  | cons i is ih =>
    obtain ⟨hnot, hnodup⟩ := List.nodup_cons.mp hnodup
    obtain ⟨memory₁, hloop, hoff, hledger₁⟩ := linkedKvDestroyLoop_eq
      (hchain i List.mem_cons_self) (h.nodup i) (h.length_le i) hledger
    -- the other chains have entries of their own
    have hothers : ∀ j ∈ is, IsChain memory₁ (l.bins j).node (chains j) := by
      intro j hj
      refine (hchain j (List.mem_cons_of_mem i hj)).congr fun x hx => hoff _ fun hmem => ?_
      obtain ⟨y, hy, heq⟩ := List.mem_map.mp hmem
      exact h.disjoint i j (fun hij => hnot (hij ▸ hj)) y hy x hx heq
    obtain ⟨memory', hrest, hledger'⟩ := ih hnodup hothers hledger₁
    rw [List.append_assoc] at hrest hledger'
    refine ⟨memory', ?_, hledger'⟩
    rw [List.foldlM_cons, hloop]
    exact hrest

/-- **The life of a table**: whatever operations it sees, none of them nor its end touches an entry
that is not allocated; over all, every pair that was put is destroyed once, and no entry stays in
memory. -/
theorem linkedKvDestroy_history (ops : KvStoreOps κ) {capacity : ℕ} (h : 0 < capacity)
    (history : List (KvOp κ ν)) :
    ∃ l replies destroyed,
      exec linkedKvStep (linkedKvCreate capacity h ops) history = some (l, replies) ∧
      linkedKvDestroy l = some (fun _ => none, destroyed) ∧
      destroyed.Perm (history.filterMap KvOp.pair?) := by
  obtain ⟨l, replies, kv, hrun, hshows, hledger, hperm, hallocated⟩ : ∃ l replies kv,
      exec linkedKvStep (linkedKvCreate capacity h ops) history = some (l, replies) ∧
      KvLedger history l kv := by
    induction history using List.reverseRecOn with
    | nil =>
      refine ⟨_, _, _, rfl, shows_linkedKvCreate capacity h ops, ⟨fun _ _ => rfl, rfl⟩, ?_, rfl⟩
      exact .of_eq (List.flatMap_eq_nil_iff.mpr fun _ _ => rfl)
    | append_singleton history op ih =>
      obtain ⟨l, replies, kv, hrun, hinv⟩ := ih
      obtain ⟨l', kv', reply, hstep, hinv'⟩ := hinv.step op
      exact ⟨l', _, kv', exec_concat_eq_some.mpr ⟨l, _, _, hrun, hstep, rfl⟩, hinv'⟩
  obtain ⟨chains, htable, rfl⟩ := hshows
  obtain ⟨memory', hdestroy, hledger'⟩ := foldlM_linkedKvDestroyLoop htable
    (List.nodup_finRange l.capacity) (fun i _ => htable.chain i) hledger
  have hempty := hledger'.eq_empty (hperm.length_eq.trans hallocated.symm)
  subst hempty
  exact ⟨l, replies, _, hrun, hdestroy, hperm⟩

/-- One of three pairs is replaced, one is deleted, and the last one is left for the end. -/
theorem linkedKvDestroy_history_lastDigit :
    ∃ l replies destroyed, exec linkedKvStep (linkedKvCreate 2 Nat.two_pos lastDigitOps)
        [.put 1 'a', .put 3 'b', .put 11 'c', .delete 23] = some (l, replies) ∧
      linkedKvDestroy l = some (fun _ => none, destroyed) ∧
      destroyed.Perm [(1, 'a'), (3, 'b'), (11, 'c')] :=
  linkedKvDestroy_history lastDigitOps Nat.two_pos
    [.put 1 'a', .put 3 'b', .put 11 'c', .delete 23]

end Racs
