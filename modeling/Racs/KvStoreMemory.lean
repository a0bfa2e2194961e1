import Racs.KvStore
import Racs.Foundation.Chain
import Racs.Foundation.PartialRun
import Mathlib.Data.List.Induction
import Mathlib.Data.List.FinRange

/-!
# The hash table in memory

The bins of `racs_kvstore` are chains of entries. A deletion walks along a chain with a pointer to
the entry in front, unlinks the entry that it finds, passes its pair to the destructor and frees it.
A put searches the chain, deletes the entry that it finds, which ends the search, and pushes a new
one. The state records the pairs that were passed to the destructor.

## Main definitions

* `Racs.LinkedKvStore`, `Racs.linkedKvGet`, `Racs.linkedKvPut`, `Racs.linkedKvDelete`.
* `Racs.LinkedKvStore.IsTable` — the pointers of a table are those of separate chains.
* `Racs.lastPut` — the pair of a key after a history of operations.
* `Racs.LinkedKvStore.IsMapAfter` — the table is the map that a history describes.

## Main results

* `Racs.linkedKvGet_eq`, `Racs.linkedKvPut_eq`, `Racs.linkedKvDelete_eq` — the pointers follow the
  lists of `Racs.KvStore`.
* `Racs.linkedKvStore_isMapAfter` — after every history the table is the map it describes.
-/

namespace Racs

open Chain PartialRun

variable {κ ν : Type}

/-- `racs_kvstore_bin`, with the pointer to the first entry. -/
structure LinkedKvBin where
  count : ℕ
  node : Option ℕ

/-- `racs_kvstore` with the memory of its entries and the pairs that were passed to
`ops.destroy`. -/
structure LinkedKvStore (κ ν : Type) where
  ops : KvStoreOps κ
  capacity : ℕ
  capacity_pos : 0 < capacity
  bins : Fin capacity → LinkedKvBin
  memory : Memory ℕ (κ × ν)
  allocated : ℕ
  destroyed : List (κ × ν)

/-- `racs_kvstore_create`. -/
def linkedKvCreate (capacity : ℕ) (h : 0 < capacity) (ops : KvStoreOps κ) : LinkedKvStore κ ν :=
  ⟨ops, capacity, h, fun _ => ⟨0, none⟩, fun _ => none, 0, []⟩

/-- `racs_kvstore_get_bin`. -/
def linkedKvGetBin (kv : LinkedKvStore κ ν) (key : κ) : Fin kv.capacity :=
  ⟨(kv.ops.hash key).toNat % kv.capacity, Nat.mod_lt _ kv.capacity_pos⟩

/-- The loop of `racs_kvstore_get`. -/
def linkedKvGetLoop (kv : LinkedKvStore κ ν) (key : κ) : ℕ → Option ℕ → Option (Option ν)
  | _, none => some none
  | 0, some _ => none
  | n + 1, some curr => (kv.memory curr).bind fun entry =>
    if kv.ops.cmp entry.value.1 key then some (some entry.value.2)
    else linkedKvGetLoop kv key n entry.next

/-- `racs_kvstore_get`; undefined where an entry is not allocated. A chain has at most as many
entries as were ever allocated. -/
def linkedKvGet (kv : LinkedKvStore κ ν) (key : κ) : Option (Option ν) :=
  linkedKvGetLoop kv key kv.allocated (kv.bins (linkedKvGetBin kv key)).node

/-- The loop of `racs_kvstore_delete`. -/
def linkedKvDeleteLoop (kv : LinkedKvStore κ ν) (key : κ) :
    ℕ → Option ℕ → Option ℕ → Option (LinkedKvStore κ ν)
  | _, _, none => some kv
  | 0, _, some _ => none
  | n + 1, prev, some curr => (kv.memory curr).bind fun entry =>
    let i := linkedKvGetBin kv key
    let bin := kv.bins i
    if kv.ops.cmp entry.value.1 key then
      match prev with
      | some prev =>
        (kv.memory.modify prev fun cell => { cell with next := entry.next }).bind fun memory =>
        (memory.free curr).map fun memory =>
          { kv with
            memory := memory
            destroyed := kv.destroyed ++ [entry.value]
            bins := Function.update kv.bins i ⟨bin.count - 1, bin.node⟩ }
      | none =>
        (kv.memory.free curr).map fun memory =>
          { kv with
            memory := memory
            destroyed := kv.destroyed ++ [entry.value]
            bins := Function.update kv.bins i ⟨bin.count - 1, entry.next⟩ }
    else linkedKvDeleteLoop kv key n (some curr) entry.next

/-- `racs_kvstore_delete`. -/
def linkedKvDelete (kv : LinkedKvStore κ ν) (key : κ) : Option (LinkedKvStore κ ν) :=
  linkedKvDeleteLoop kv key kv.allocated none (kv.bins (linkedKvGetBin kv key)).node

/-- The loop of `racs_kvstore_put`. -/
def linkedKvPutLoop (kv : LinkedKvStore κ ν) (key : κ) :
    ℕ → Option ℕ → Option (LinkedKvStore κ ν)
  | _, none => some kv
  | 0, some _ => none
  | n + 1, some curr => (kv.memory curr).bind fun entry =>
    if kv.ops.cmp entry.value.1 key then linkedKvDelete kv key
    else linkedKvPutLoop kv key n entry.next

/-- `racs_kvstore_bin_append`, with the bin of the key. -/
def linkedKvBinAppend (kv : LinkedKvStore κ ν) (key : κ) (value : ν) : LinkedKvStore κ ν :=
  let i := linkedKvGetBin kv key
  let bin := kv.bins i
  { kv with
    memory := kv.memory.write kv.allocated ⟨(key, value), bin.node⟩
    allocated := kv.allocated + 1
    bins := Function.update kv.bins i ⟨bin.count + 1, some kv.allocated⟩ }

/-- `racs_kvstore_put`. -/
def linkedKvPut (kv : LinkedKvStore κ ν) (key : κ) (value : ν) : Option (LinkedKvStore κ ν) :=
  (linkedKvPutLoop kv key kv.allocated (kv.bins (linkedKvGetBin kv key)).node).map fun kv =>
    linkedKvBinAppend kv key value

/-! ### The chains behind the pointers -/

namespace LinkedKvStore

/-- The pointers of the bins are those of chains, which do not share entries. -/
structure IsTable (kv : LinkedKvStore κ ν) (chains : Fin kv.capacity → List (ℕ × (κ × ν))) :
    Prop where
  chain : ∀ i, IsChain kv.memory (kv.bins i).node (chains i)
  lt : ∀ i, ∀ x ∈ chains i, x.1 < kv.allocated
  nodup : ∀ i, ((chains i).map Prod.fst).Nodup
  disjoint : ∀ i j, i ≠ j → ∀ x ∈ chains i, ∀ y ∈ chains j, x.1 ≠ y.1

/-- The table with lists in place of the chains. -/
def toKvStore (kv : LinkedKvStore κ ν) (chains : Fin kv.capacity → List (ℕ × (κ × ν))) :
    KvStore κ ν :=
  ⟨kv.ops, kv.capacity, kv.capacity_pos, fun i => ⟨(kv.bins i).count, (chains i).map Prod.snd⟩⟩

variable {kv : LinkedKvStore κ ν} {chains : Fin kv.capacity → List (ℕ × (κ × ν))}

theorem IsTable.length_le (h : kv.IsTable chains) (i : Fin kv.capacity) :
    (chains i).length ≤ kv.allocated := by
  rw [← List.length_map (f := Prod.fst)]
  refine length_le_of_nodup_of_lt (h.nodup i) fun a ha => ?_
  obtain ⟨x, hx, rfl⟩ := List.mem_map.mp ha
  exact h.lt i x hx

/-- One chain is changed, in its own cells and in new ones. -/
theorem IsTable.update (h : kv.IsTable chains) (i : Fin kv.capacity) {memory : Memory ℕ (κ × ν)}
    {allocated : ℕ} {destroyed : List (κ × ν)} {bin : LinkedKvBin} {zs : List (ℕ × (κ × ν))}
    (hmemory : ∀ a < kv.allocated, a ∉ (chains i).map Prod.fst → memory a = kv.memory a)
    (hchain : IsChain memory bin.node zs) (hnodup : (zs.map Prod.fst).Nodup)
    (hzs : ∀ z ∈ zs, z.1 ∈ (chains i).map Prod.fst ∨ kv.allocated ≤ z.1)
    (hlt : ∀ z ∈ zs, z.1 < allocated) (hle : kv.allocated ≤ allocated) :
    IsTable { kv with
      memory := memory
      allocated := allocated
      destroyed := destroyed
      bins := Function.update kv.bins i bin } (Function.update chains i zs) := by
  have hne : ∀ z ∈ zs, ∀ j, j ≠ i → ∀ x ∈ chains j, z.1 ≠ x.1 := by
    intro z hz j hj x hx
    rcases hzs z hz with hmem | hfresh
    · obtain ⟨y, hy, heq⟩ := List.mem_map.mp hmem
      rw [← heq]
      exact h.disjoint i j hj.symm y hy x hx
    · have hx := h.lt j x hx
      omega
  refine ⟨fun j => ?_, fun j => ?_, fun j => ?_, fun j k hjk => ?_⟩
  · by_cases hj : j = i
    · simp only [hj, Function.update_self]
      exact hchain
    · simp only [Function.update_of_ne hj]
      refine (h.chain j).congr fun x hx => hmemory x.1 (h.lt j x hx) fun hmem => ?_
      obtain ⟨y, hy, heq⟩ := List.mem_map.mp hmem
      exact h.disjoint j i hj x hx y hy heq.symm
  · by_cases hj : j = i
    · simp only [hj, Function.update_self]
      exact hlt
    · simp only [Function.update_of_ne hj]
      exact fun x hx => (h.lt j x hx).trans_le hle
  · by_cases hj : j = i
    · simp only [hj, Function.update_self]
      exact hnodup
    · simp only [Function.update_of_ne hj]
      exact h.nodup j
  · by_cases hj : j = i
    · have hk : k ≠ i := fun hk => hjk (hj.trans hk.symm)
      simp only [hj, Function.update_self, Function.update_of_ne hk]
      exact fun z hz => hne z hz k hk
    · by_cases hk : k = i
      · simp only [hk, Function.update_self, Function.update_of_ne hj]
        exact fun x hx z hz => (hne z hz j hj x hx).symm
      · simp only [Function.update_of_ne hj, Function.update_of_ne hk]
        exact h.disjoint j k hjk

/-- The lists of the bins after a change of one chain. -/
theorem lists_update {n : ℕ} (bins : Fin n → LinkedKvBin) (chains : Fin n → List (ℕ × (κ × ν)))
    (i : Fin n) (bin : LinkedKvBin) (zs : List (ℕ × (κ × ν))) :
    (fun j => KvStoreBin.mk (Function.update bins i bin j).count
      ((Function.update chains i zs j).map Prod.snd)) =
    Function.update (fun j => ⟨(bins j).count, (chains j).map Prod.snd⟩) i
      ⟨bin.count, zs.map Prod.snd⟩ := by
  funext j
  by_cases hj : j = i
  · rw [hj, Function.update_self, Function.update_self, Function.update_self]
  · rw [Function.update_of_ne hj, Function.update_of_ne hj, Function.update_of_ne hj]

theorem toKvStore_update (i : Fin kv.capacity) {memory : Memory ℕ (κ × ν)} {allocated : ℕ}
    {destroyed : List (κ × ν)} {bin : LinkedKvBin} {zs : List (ℕ × (κ × ν))} :
    toKvStore { kv with
      memory := memory
      allocated := allocated
      destroyed := destroyed
      bins := Function.update kv.bins i bin } (Function.update chains i zs) =
    (kv.toKvStore chains).setBin i ⟨bin.count, zs.map Prod.snd⟩ :=
  congrArg (KvStore.mk kv.ops kv.capacity kv.capacity_pos) (lists_update kv.bins chains i bin zs)

end LinkedKvStore

/-! ### The pointers follow the lists -/

section Follow

variable {kv : LinkedKvStore κ ν} {chains : Fin kv.capacity → List (ℕ × (κ × ν))}
  (h : kv.IsTable chains) (key : κ)
include h

omit h in
theorem linkedKvGetLoop_eq {n : ℕ} {curr : Option ℕ} {rest : List (ℕ × (κ × ν))}
    (hchain : IsChain kv.memory curr rest) (hn : rest.length ≤ n) :
    linkedKvGetLoop kv key n curr =
      some (((rest.map Prod.snd).find? fun e => kv.ops.cmp e.1 key).map Prod.snd) := by
  induction rest generalizing n curr with
  | nil =>
    obtain rfl : curr = none := hchain
    rw [linkedKvGetLoop]
    rfl
  | cons x rest ih =>
    obtain ⟨rfl, next, hx, hrest⟩ := hchain
    obtain ⟨n, rfl⟩ : ∃ m, n = m + 1 := Nat.exists_eq_add_one.mpr (by simp at hn; omega)
    rw [linkedKvGetLoop, hx, Option.bind_some, List.map_cons, List.find?_cons]
    split_ifs with hcmp
    · rw [hcmp]
      rfl
    · rw [Bool.eq_false_of_not_eq_true hcmp]
      exact ih hrest (by simpa using hn)

/-- **The search** follows the list of the bin. -/
theorem linkedKvGet_eq : linkedKvGet kv key = some (kvstoreGet (kv.toKvStore chains) key) :=
  linkedKvGetLoop_eq key (h.chain _) (h.length_le _)

omit h

/-- What a deletion leaves: the chain of the key without the entry that was found. -/
def LinkedKvStore.Deleted (kv : LinkedKvStore κ ν)
    (chains : Fin kv.capacity → List (ℕ × (κ × ν))) (key : κ) (kv' : LinkedKvStore κ ν) : Prop :=
  ∃ memory node,
    kv' = { kv with
      memory := memory
      destroyed := kv.destroyed ++ (kvstoreFind (kv.toKvStore chains) key).toList
      bins := Function.update kv.bins (linkedKvGetBin kv key)
        ⟨(kvstoreBinDelete kv.ops ((kv.toKvStore chains).bins (linkedKvGetBin kv key)) key).count,
          node⟩ } ∧
    (∀ a, a ∉ (chains (linkedKvGetBin kv key)).map Prod.fst → memory a = kv.memory a) ∧
    IsChain memory node
      ((chains (linkedKvGetBin kv key)).eraseP fun x => kv.ops.cmp x.2.1 key)

include h

theorem deleted_self (hnone : ∀ x ∈ chains (linkedKvGetBin kv key), ¬ kv.ops.cmp x.2.1 key) :
    kv.Deleted chains key kv := by
  have hfind : kvstoreFind (kv.toKvStore chains) key = none := by
    refine List.find?_eq_none.mpr fun e he => ?_
    obtain ⟨x, hx, rfl⟩ := List.mem_map.mp he
    exact hnone x hx
  have hany : ¬ ((chains (linkedKvGetBin kv key)).map Prod.snd).any
      fun e => kv.ops.cmp e.1 key := by
    intro hany
    obtain ⟨e, he, hcmp⟩ := List.any_eq_true.mp hany
    obtain ⟨x, hx, rfl⟩ := List.mem_map.mp he
    exact hnone x hx hcmp
  refine ⟨kv.memory, (kv.bins (linkedKvGetBin kv key)).node, ?_, fun a _ => rfl, ?_⟩
  · rw [hfind, kvstoreBinDelete_of_not_any hany, Option.toList_none, List.append_nil]
    exact congrArg (fun bins => { kv with bins := bins }) (Function.update_eq_self _ kv.bins).symm
  · rw [List.eraseP_of_forall_not hnone]
    exact h.chain _

omit h

/-- The first entry of the key, in the lists. -/
theorem found_first {pre rest : List (ℕ × (κ × ν))} {x : ℕ × (κ × ν)}
    (hsplit : chains (linkedKvGetBin kv key) = pre ++ x :: rest)
    (hpre : ∀ y ∈ pre, ¬ kv.ops.cmp y.2.1 key) (hcmp : kv.ops.cmp x.2.1 key) :
    kvstoreFind (kv.toKvStore chains) key = some x.2 ∧
      (kvstoreBinDelete kv.ops ((kv.toKvStore chains).bins (linkedKvGetBin kv key)) key).count =
        (kv.bins (linkedKvGetBin kv key)).count - 1 ∧
      (chains (linkedKvGetBin kv key)).eraseP (fun x => kv.ops.cmp x.2.1 key) = pre ++ rest := by
  have hfind : ((chains (linkedKvGetBin kv key)).map Prod.snd).find?
      (fun e => kv.ops.cmp e.1 key) = some x.2 := by
    have hnone : (pre.map Prod.snd).find? (fun e => kv.ops.cmp e.1 key) = none := by
      refine List.find?_eq_none.mpr fun e he => ?_
      obtain ⟨y, hy, rfl⟩ := List.mem_map.mp he
      exact hpre y hy
    rw [hsplit, List.map_append, List.find?_append, hnone, List.map_cons, List.find?_cons, hcmp]
    rfl
  have hany : ((chains (linkedKvGetBin kv key)).map Prod.snd).any fun e => kv.ops.cmp e.1 key :=
    List.any_eq_true.mpr ⟨x.2, List.mem_of_find?_eq_some hfind, hcmp⟩
  refine ⟨hfind, congrArg KvStoreBin.count (if_pos hany), ?_⟩
  rw [hsplit, List.eraseP_append_right _ hpre, List.eraseP_cons, hcmp, cond_true]

include h

/-- The loop behind the entries that it has passed. -/
theorem linkedKvDeleteLoop_eq {n : ℕ} {prev curr : Option ℕ} {pre rest : List (ℕ × (κ × ν))}
    (hsplit : chains (linkedKvGetBin kv key) = pre ++ rest)
    (hpre : ∀ y ∈ pre, ¬ kv.ops.cmp y.2.1 key) (hprev : prev = pre.getLast?.map Prod.fst)
    (hchain : IsChain kv.memory curr rest) (hn : rest.length ≤ n) :
    ∃ kv', linkedKvDeleteLoop kv key n prev curr = some kv' ∧ kv.Deleted chains key kv' := by
  induction rest generalizing n prev curr pre with
  | nil =>
    obtain rfl : curr = none := hchain
    rw [List.append_nil] at hsplit
    exact ⟨kv, by rw [linkedKvDeleteLoop], deleted_self h key (hsplit ▸ hpre)⟩
  | cons x rest ih =>
    obtain ⟨rfl, next, hx, hrest⟩ := id hchain
    obtain ⟨n, rfl⟩ : ∃ m, n = m + 1 := Nat.exists_eq_add_one.mpr (by simp at hn; omega)
    rw [linkedKvDeleteLoop, hx, Option.bind_some]
    by_cases hcmp : kv.ops.cmp x.2.1 key = true
    · have hlist := h.chain (linkedKvGetBin kv key)
      have hnodup := h.nodup (linkedKvGetBin kv key)
      obtain ⟨hfind, hcount, herase⟩ := found_first key hsplit hpre hcmp
      simp only [if_pos hcmp]
      rcases List.eq_nil_or_concat' pre with rfl | ⟨pre, p, rfl⟩
      · rw [hsplit] at hlist hnodup
        obtain ⟨next', memory, hx', hfree, hoff, htail⟩ := IsChain.tail hlist hnodup
        obtain rfl : next' = next := Memory.next_unique hx' hx
        subst hprev
        simp only [List.getLast?_nil, Option.map_none, hfree, Option.map_some]
        refine ⟨_, rfl, memory, next', ?_, fun a ha => hoff a ?_, herase ▸ htail⟩
        · rw [hfind, hcount, Option.toList_some]
        · rw [hsplit] at ha
          exact fun heq => ha (heq ▸ List.mem_cons_self)
      · have hsplit' := hsplit
        rw [List.append_assoc, List.singleton_append] at hsplit'
        rw [hsplit'] at hlist hnodup
        obtain ⟨next', memory₁, memory, hx', hmodify, hfree, hoff, htail⟩ := hlist.unlink hnodup
        obtain rfl : next' = next := Memory.next_unique hx' hx
        rw [List.getLast?_concat, Option.map_some] at hprev
        subst hprev
        simp only [hmodify, hfree, Option.bind_some, Option.map_some]
        refine ⟨_, rfl, memory, (kv.bins (linkedKvGetBin kv key)).node, ?_,
          fun a ha => hoff a ?_ ?_, ?_⟩
        · rw [hfind, hcount, Option.toList_some]
        · rw [hsplit'] at ha
          exact fun heq => ha (heq ▸ List.mem_map_of_mem (by simp))
        · rw [hsplit'] at ha
          exact fun heq => ha (heq ▸ List.mem_map_of_mem (by simp))
        · rw [herase, List.append_assoc]
          exact htail
    · simp only [if_neg hcmp]
      refine @ih n (some x.1) next (pre ++ [x]) ?_ ?_ ?_ hrest (by simpa using hn)
      · rw [hsplit, List.append_assoc, List.singleton_append]
      · exact List.forall_mem_append.mpr ⟨hpre, List.forall_mem_singleton.mpr hcmp⟩
      · rw [List.getLast?_concat]
        rfl

theorem linkedKvDelete_deleted :
    ∃ kv', linkedKvDelete kv key = some kv' ∧ kv.Deleted chains key kv' :=
  linkedKvDeleteLoop_eq h key rfl (fun _ hy => absurd hy List.not_mem_nil) rfl (h.chain _)
    (h.length_le _)

/-- The loop of a put deletes the entry of the key, if there is one. -/
theorem linkedKvPutLoop_deleted {n : ℕ} {curr : Option ℕ} {pre rest : List (ℕ × (κ × ν))}
    (hsplit : chains (linkedKvGetBin kv key) = pre ++ rest)
    (hpre : ∀ y ∈ pre, ¬ kv.ops.cmp y.2.1 key) (hchain : IsChain kv.memory curr rest)
    (hn : rest.length ≤ n) :
    ∃ kv', linkedKvPutLoop kv key n curr = some kv' ∧ kv.Deleted chains key kv' := by
  induction rest generalizing n curr pre with
  | nil =>
    obtain rfl : curr = none := hchain
    rw [List.append_nil] at hsplit
    exact ⟨kv, by rw [linkedKvPutLoop], deleted_self h key (hsplit ▸ hpre)⟩
  | cons x rest ih =>
    obtain ⟨rfl, next, hx, hrest⟩ := hchain
    obtain ⟨n, rfl⟩ : ∃ m, n = m + 1 := Nat.exists_eq_add_one.mpr (by simp at hn; omega)
    rw [linkedKvPutLoop, hx, Option.bind_some]
    split_ifs with hcmp
    · exact linkedKvDelete_deleted h key
    · refine @ih n next (pre ++ [x]) ?_ ?_ hrest (by simpa using hn)
      · rw [hsplit, List.append_assoc, List.singleton_append]
      · exact List.forall_mem_append.mpr ⟨hpre, List.forall_mem_singleton.mpr hcmp⟩

/-- The chains after a deletion. -/
theorem LinkedKvStore.Deleted.isTable {kv' : LinkedKvStore κ ν} (hkv' : kv.Deleted chains key kv') :
    ∃ chains', kv'.IsTable chains' ∧
      kv'.toKvStore chains' = kvstoreDelete (kv.toKvStore chains) key := by
  obtain ⟨memory, node, rfl, hmemory, hchain⟩ := hkv'
  have hsub : ((chains (linkedKvGetBin kv key)).eraseP fun x => kv.ops.cmp x.2.1 key).Sublist
      (chains (linkedKvGetBin kv key)) := List.eraseP_sublist
  refine ⟨Function.update chains (linkedKvGetBin kv key) _, h.update _ (fun a _ ha => hmemory a ha)
    hchain ((h.nodup _).sublist (hsub.map _)) ?_ ?_ le_rfl, ?_⟩
  · exact fun z hz => .inl (List.mem_map_of_mem (hsub.subset hz))
  · exact fun z hz => h.lt _ z (hsub.subset hz)
  · refine (kv.toKvStore_update _).trans ?_
    have hnode := kvstoreBinDelete_node kv.ops
      ((kv.toKvStore chains).bins (linkedKvGetBin kv key)) key
    refine congrArg ((kv.toKvStore chains).setBin (linkedKvGetBin kv key))
      (KvStoreBin.mk.injEq .. ▸ ⟨rfl, ?_⟩)
    exact (hnode.trans List.eraseP_map).symm

/-- The chains after an entry was added. -/
theorem isTable_linkedKvBinAppend (value : ν) :
    ∃ chains', (linkedKvBinAppend kv key value).IsTable chains' ∧
      (linkedKvBinAppend kv key value).toKvStore chains' =
        kvstoreAppend (kv.toKvStore chains) key value := by
  have hfresh : kv.allocated ∉ (chains (linkedKvGetBin kv key)).map Prod.fst := by
    intro hmem
    obtain ⟨x, hx, heq⟩ := List.mem_map.mp hmem
    exact absurd (h.lt _ x hx) (by omega)
  refine ⟨Function.update chains (linkedKvGetBin kv key)
    ((kv.allocated, key, value) :: chains (linkedKvGetBin kv key)), h.update _
      (fun a ha _ => kv.memory.write_of_ne _ ha.ne) ((h.chain _).push hfresh _)
      (List.nodup_cons.mpr ⟨hfresh, h.nodup _⟩) ?_ ?_ (Nat.le_succ _), kv.toKvStore_update _⟩
  · intro z hz
    rcases List.mem_cons.mp hz with rfl | hz
    · exact .inr le_rfl
    · exact .inl (List.mem_map_of_mem hz)
  · intro z hz
    rcases List.mem_cons.mp hz with rfl | hz
    · exact Nat.lt_succ_self _
    · exact Nat.lt_succ_of_lt (h.lt _ z hz)

end Follow

/-- The table is one of chains with the lists of `kv`. -/
def LinkedKvStore.Shows (l : LinkedKvStore κ ν) (kv : KvStore κ ν) : Prop :=
  ∃ chains, l.IsTable chains ∧ l.toKvStore chains = kv

theorem shows_linkedKvCreate (capacity : ℕ) (h : 0 < capacity) (ops : KvStoreOps κ) :
    (linkedKvCreate capacity h ops : LinkedKvStore κ ν).Shows (kvstoreCreate capacity h ops) := by
  refine ⟨fun _ => [], ⟨fun _ => rfl, ?_, fun _ => List.nodup_nil, ?_⟩, rfl⟩
  · exact fun _ x hx => absurd hx List.not_mem_nil
  · exact fun _ _ _ x hx => absurd hx List.not_mem_nil

section Shows

variable {l : LinkedKvStore κ ν} {kv : KvStore κ ν} (h : l.Shows kv) (key : κ)
include h

/-- **The search** follows the list of the bin. -/
theorem shows_linkedKvGet : linkedKvGet l key = some (kvstoreGet kv key) := by
  obtain ⟨chains, htable, rfl⟩ := h
  exact linkedKvGet_eq htable key

/-- **A deletion** follows the list of the bin, and destroys the pair that it unlinks. -/
theorem shows_linkedKvDelete :
    ∃ l', linkedKvDelete l key = some l' ∧ l'.Shows (kvstoreDelete kv key) ∧
      l'.destroyed = l.destroyed ++ (kvstoreFind kv key).toList := by
  obtain ⟨chains, htable, rfl⟩ := h
  obtain ⟨l', hl', hdeleted⟩ := linkedKvDelete_deleted htable key
  refine ⟨l', hl', hdeleted.isTable htable, ?_⟩
  obtain ⟨memory, node, rfl, -⟩ := hdeleted
  rfl

/-- **A put** follows the list of the bin, and destroys the pair that it replaces. -/
theorem shows_linkedKvPut (value : ν) :
    ∃ l', linkedKvPut l key value = some l' ∧ l'.Shows (kvstorePut kv key value) ∧
      l'.destroyed = l.destroyed ++ (kvstoreFind kv key).toList := by
  obtain ⟨chains, htable, rfl⟩ := h
  obtain ⟨l₁, hl₁, hdeleted⟩ := linkedKvPutLoop_deleted htable key rfl
    (fun _ hy => absurd hy List.not_mem_nil) (htable.chain _) (htable.length_le _)
  obtain ⟨chains₁, htable₁, hlists₁⟩ := hdeleted.isTable htable
  obtain ⟨chains', htable', hlists'⟩ := isTable_linkedKvBinAppend htable₁ key value
  refine ⟨linkedKvBinAppend l₁ key value, by rw [linkedKvPut, hl₁, Option.map_some],
    ⟨chains', htable', ?_⟩, ?_⟩
  · rw [hlists', hlists₁, kvstorePut_eq_append]
  · obtain ⟨memory, node, rfl, -⟩ := hdeleted
    rfl

end Shows

/-! ### Well-formed bins -/

/-- Every bin counts its entries, has the entries of its own keys and no two with equivalent
keys. -/
structure KvStore.WellFormed (kv : KvStore κ ν) : Prop where
  count_eq : ∀ i, (kv.bins i).count = (kv.bins i).node.length
  bin_eq : ∀ i, ∀ e ∈ (kv.bins i).node, kvstoreGetBin kv e.1 = i
  distinct : ∀ i, (kv.bins i).node.Pairwise fun e e' => ¬ kv.ops.cmp e.1 e'.1

theorem wellFormed_create (capacity : ℕ) (h : 0 < capacity) (ops : KvStoreOps κ) :
    (kvstoreCreate capacity h ops : KvStore κ ν).WellFormed :=
  ⟨fun _ => rfl, fun _ _ he => absurd he List.not_mem_nil, fun _ => List.Pairwise.nil⟩

/-- The entries of all bins. -/
def kvstoreEntries (kv : KvStore κ ν) : List (κ × ν) :=
  (List.finRange kv.capacity).flatMap fun i => (kv.bins i).node

namespace KvStore.WellFormed

variable {kv : KvStore κ ν} (h : kv.WellFormed)
include h

theorem setBin (i : Fin kv.capacity) {bin : KvStoreBin κ ν} (hcount : bin.count = bin.node.length)
    (hbin : ∀ e ∈ bin.node, kvstoreGetBin kv e.1 = i)
    (hdistinct : bin.node.Pairwise fun e e' => ¬ kv.ops.cmp e.1 e'.1) :
    (kv.setBin i bin).WellFormed := by
  refine ⟨fun (j : Fin kv.capacity) => ?_, fun (j : Fin kv.capacity) => ?_,
    fun (j : Fin kv.capacity) => ?_⟩ <;> by_cases hj : j = i
  · rw [hj, kv.setBin_bins_self]
    exact hcount
  · rw [kv.setBin_bins_of_ne hj]
    exact h.count_eq j
  · rw [hj, kv.setBin_bins_self]
    exact hbin
  · rw [kv.setBin_bins_of_ne hj]
    exact h.bin_eq j
  · rw [hj, kv.setBin_bins_self]
    exact hdistinct
  · rw [kv.setBin_bins_of_ne hj]
    exact h.distinct j

theorem delete (key : κ) : (kvstoreDelete kv key).WellFormed := by
  have hsub : (kvstoreBinDelete kv.ops (kv.bins (kvstoreGetBin kv key)) key).node.Sublist
      (kv.bins (kvstoreGetBin kv key)).node := by
    rw [kvstoreBinDelete_node]
    exact List.eraseP_sublist
  refine h.setBin _ ?_ (fun e he => h.bin_eq _ e (hsub.subset he)) ((h.distinct _).sublist hsub)
  rw [kvstoreBinDelete]
  split_ifs with hany
  · obtain ⟨e, he, hcmp⟩ := List.any_eq_true.mp hany
    rw [List.length_eraseP_of_mem he hcmp, h.count_eq]
  · exact h.count_eq _

theorem append {key : κ} (hnone : ∀ e ∈ (kv.bins (kvstoreGetBin kv key)).node,
      ¬ kv.ops.cmp key e.1) (value : ν) : (kvstoreAppend kv key value).WellFormed := by
  refine h.setBin _ ?_ ?_ (List.pairwise_cons.mpr ⟨hnone, h.distinct _⟩)
  · rw [kvstoreBinAppend, h.count_eq, List.length_cons]
  · intro e he
    rcases List.mem_cons.mp he with rfl | he
    · rfl
    · exact h.bin_eq _ e he

/-- A put keeps the bins well formed: no entry with an equivalent key is left when the new one is
added. -/
theorem put (hops : kv.ops.Lawful) (key : κ) (value : ν) :
    (kvstorePut kv key value).WellFormed := by
  rw [kvstorePut_eq_append]
  refine (h.delete key).append (fun e he hcmp => ?_) value
  have hbin : (kvstoreDelete kv key).bins (kvstoreGetBin kv key) =
      kvstoreBinDelete kv.ops (kv.bins (kvstoreGetBin kv key)) key := kv.setBin_bins_self ..
  replace he : e ∈ ((kvstoreDelete kv key).bins (kvstoreGetBin kv key)).node := he
  rw [hbin, kvstoreBinDelete_node] at he
  exact not_cmp_of_mem_eraseP hops (h.distinct _) e he (hops.symm _ _ hcmp)

theorem mem_bins_iff (hops : kv.ops.Exact) {key : κ} {value : ν} :
    (∃ i, (key, value) ∈ (kv.bins i).node) ↔ kvstoreGet kv key = some value := by
  rw [kvstoreGet_eq_map, Option.map_eq_some_iff]
  constructor
  · rintro ⟨i, hmem⟩
    obtain rfl : kvstoreGetBin kv key = i := h.bin_eq i _ hmem
    have hinj := List.inj_on_of_nodup_map
      ((hops.pairwise_iff _).mp (h.distinct (kvstoreGetBin kv key)))
    cases hfind : kvstoreFind kv key with
    | none => exact absurd ((hops _ _).mpr rfl) (List.find?_eq_none.mp hfind _ hmem)
    | some e =>
      have hkey : e.1 = key := (hops _ _).mp (cmp_of_kvstoreFind hfind)
      exact ⟨e, rfl, by rw [hinj (mem_of_kvstoreFind hfind) hmem hkey]⟩
  · rintro ⟨e, hfind, rfl⟩
    obtain rfl : e.1 = key := (hops _ _).mp (cmp_of_kvstoreFind hfind)
    exact ⟨_, mem_of_kvstoreFind hfind⟩

theorem nodup_entries (hops : kv.ops.Exact) : (kvstoreEntries kv).Nodup := by
  refine List.nodup_flatMap.mpr ⟨fun i _ => ?_, ?_⟩
  · exact List.Nodup.of_map Prod.fst ((hops.pairwise_iff _).mp (h.distinct i))
  · refine (List.nodup_finRange _).imp fun hij e hi hj => hij ?_
    rw [← h.bin_eq _ e hi, ← h.bin_eq _ e hj]

end KvStore.WellFormed

/-- A key has at most one entry in the whole table. -/
theorem eq_of_cmp {l : LinkedKvStore κ ν} {chains : Fin l.capacity → List (ℕ × (κ × ν))}
    (h : (l.toKvStore chains).WellFormed) (hops : l.ops.Lawful) {i j : Fin l.capacity}
    {x y : ℕ × (κ × ν)} (hx : x ∈ chains i) (hy : y ∈ chains j)
    (hcmp : l.ops.cmp x.2.1 y.2.1) : x = y := by
  have hi : linkedKvGetBin l x.2.1 = i := h.bin_eq i x.2 (List.mem_map_of_mem hx)
  have hj : linkedKvGetBin l y.2.1 = j := h.bin_eq j y.2 (List.mem_map_of_mem hy)
  have hij : i = j := by
    rw [← hi, ← hj]
    exact @KvStoreOps.Lawful.getBin_eq _ _ (l.toKvStore chains) hops _ _ hcmp
  subst hij
  by_contra hne
  have hsymm : Std.Symm fun x y : ℕ × (κ × ν) => ¬ l.ops.cmp x.2.1 y.2.1 :=
    ⟨fun x y hxy hyx => hxy (hops.symm _ _ hyx)⟩
  have hdistinct : (chains i).Pairwise fun x y => ¬ l.ops.cmp x.2.1 y.2.1 :=
    List.pairwise_map.mp (h.distinct i)
  exact hdistinct.forall hx hy hne hcmp

/-! ### The table as a map -/

/-- An operation on a table. -/
inductive KvOp (κ ν : Type)
  | put (key : κ) (value : ν)
  | get (key : κ)
  | delete (key : κ)

/-- An operation, with what a search found. -/
def linkedKvStep (l : LinkedKvStore κ ν) : KvOp κ ν → Option (LinkedKvStore κ ν × Option ν)
  | .put key value => (linkedKvPut l key value).map (·, none)
  | .get key => (linkedKvGet l key).map (l, ·)
  | .delete key => (linkedKvDelete l key).map (·, none)

/-- The pair of a key after an operation, from the one before. -/
def KvOp.after (ops : KvStoreOps κ) (key : κ) (pair : Option (κ × ν)) : KvOp κ ν → Option (κ × ν)
  | .put key' value => if ops.cmp key' key then some (key', value) else pair
  | .get _ => pair
  | .delete key' => if ops.cmp key' key then none else pair

/-- The pair of the most recent put of an equivalent key, if it was not deleted since. -/
def lastPut (ops : KvStoreOps κ) (history : List (KvOp κ ν)) (key : κ) : Option (κ × ν) :=
  history.foldl (KvOp.after ops key) none

/-- What an operation finds, after the operations before it. -/
def KvOp.reply (ops : KvStoreOps κ) (past : List (KvOp κ ν)) : KvOp κ ν → Option ν
  | .put _ _ => none
  | .get key => (lastPut ops past key).map Prod.snd
  | .delete _ => none

/-- The pair that an operation replaces or deletes, after the operations before it. -/
def KvOp.drops (ops : KvStoreOps κ) (past : List (KvOp κ ν)) : KvOp κ ν → List (κ × ν)
  | .put key _ => (lastPut ops past key).toList
  | .get _ => []
  | .delete key => (lastPut ops past key).toList

/-- **The map after a history**: every search finds the value of the last put of an equivalent key,
the bins are chains with as many entries as they count, each entry in the bin of its key, and
equivalent keys have one entry. -/
structure LinkedKvStore.IsMapAfter (l : LinkedKvStore κ ν) (history : List (KvOp κ ν)) : Prop where
  get_eq : ∀ key, linkedKvGet l key = some ((lastPut l.ops history key).map Prod.snd)
  chains : ∃ chains : Fin l.capacity → List (ℕ × (κ × ν)),
    (∀ i, IsChain l.memory (l.bins i).node (chains i)) ∧
    (∀ i, (l.bins i).count = (chains i).length) ∧
    (∀ i, ∀ x ∈ chains i, linkedKvGetBin l x.2.1 = i) ∧
    ∀ i j, ∀ x ∈ chains i, ∀ y ∈ chains j, l.ops.cmp x.2.1 y.2.1 → x = y

/-- What holds of a table and the lists of its bins after a history. -/
structure KvInv (ops : KvStoreOps κ) (history : List (KvOp κ ν)) (l : LinkedKvStore κ ν)
    (kv : KvStore κ ν) : Prop where
  ops_eq : kv.ops = ops
  shows : l.Shows kv
  wellFormed : kv.WellFormed
  find_eq : ∀ key, kvstoreFind kv key = lastPut ops history key

theorem lastPut_concat (ops : KvStoreOps κ) (history : List (KvOp κ ν)) (op : KvOp κ ν) (key : κ) :
    lastPut ops (history ++ [op]) key = op.after ops key (lastPut ops history key) := by
  rw [lastPut, List.foldl_append]
  rfl

/-- **One operation** finds, destroys and leaves what the history says. -/
theorem KvInv.step {ops : KvStoreOps κ} (hops : ops.Lawful) {history : List (KvOp κ ν)}
    {l : LinkedKvStore κ ν} {kv : KvStore κ ν} (h : KvInv ops history l kv) (op : KvOp κ ν) :
    ∃ l' kv', linkedKvStep l op = some (l', op.reply ops history) ∧
      l'.destroyed = l.destroyed ++ op.drops ops history ∧ KvInv ops (history ++ [op]) l' kv' := by
  obtain ⟨rfl, hshows, hwf, hfind⟩ := h
  cases op with
  | put key value =>
    obtain ⟨l', hput, hshows', hdestroyed⟩ := shows_linkedKvPut hshows key value
    refine ⟨l', kvstorePut kv key value, by rw [linkedKvStep, hput]; rfl, ?_, rfl, hshows',
      hwf.put hops key value, fun key' => ?_⟩
    · rw [hdestroyed, hfind]
      rfl
    · rw [kvstoreFind_put hops, lastPut_concat, KvOp.after, hfind]
  | get key =>
    refine ⟨l, kv, ?_, (List.append_nil _).symm, rfl, hshows, hwf, fun key' => ?_⟩
    · rw [linkedKvStep, shows_linkedKvGet hshows, kvstoreGet_eq_map, hfind]
      rfl
    · rw [hfind, lastPut_concat, KvOp.after]
  | delete key =>
    obtain ⟨l', hdelete, hshows', hdestroyed⟩ := shows_linkedKvDelete hshows key
    refine ⟨l', kvstoreDelete kv key, by rw [linkedKvStep, hdelete]; rfl, ?_, rfl, hshows',
      hwf.delete key, fun key' => ?_⟩
    · rw [hdestroyed, hfind]
      rfl
    · rw [kvstoreFind_delete hops _ _ (hwf.distinct _), lastPut_concat, KvOp.after, hfind]

theorem KvInv.isMapAfter {ops : KvStoreOps κ} (hops : ops.Lawful) {history : List (KvOp κ ν)}
    {l : LinkedKvStore κ ν} {kv : KvStore κ ν} (h : KvInv ops history l kv) :
    l.IsMapAfter history := by
  obtain ⟨rfl, hshows, hwf, hfind⟩ := h
  have hget := fun key => shows_linkedKvGet hshows key
  obtain ⟨chains, htable, rfl⟩ := hshows
  refine ⟨fun key => ?_, chains, htable.chain, fun i => ?_, fun i x hx => ?_, ?_⟩
  · rw [hget, kvstoreGet_eq_map, hfind]
    rfl
  · exact (hwf.count_eq i).trans (List.length_map _)
  · exact hwf.bin_eq i x.2 (List.mem_map_of_mem hx)
  · exact fun i j x hx y hy hcmp => eq_of_cmp hwf hops hx hy hcmp

/-- **A table is a finite map**: whatever the history, every search finds what the last put left,
the pairs that were replaced or deleted were destroyed once each, in this order, and the bins are
well formed. -/
theorem linkedKvStore_isMapAfter {ops : KvStoreOps κ} (hops : ops.Lawful) {capacity : ℕ}
    (h : 0 < capacity) (history : List (KvOp κ ν)) :
    ∃ l replies, exec linkedKvStep (linkedKvCreate capacity h ops) history = some (l, replies) ∧
      replies = along (fun past op => op.reply ops past) [] history ∧
      l.destroyed = (along (fun past op => op.drops ops past) [] history).flatten ∧
      l.IsMapAfter history := by
  suffices hinv : ∃ l replies kv,
      exec linkedKvStep (linkedKvCreate capacity h ops) history = some (l, replies) ∧
      replies = along (fun past op => op.reply ops past) [] history ∧
      l.destroyed = (along (fun past op => op.drops ops past) [] history).flatten ∧
      KvInv ops history l kv by
    obtain ⟨l, replies, kv, hrun, hreplies, hdestroyed, hinv⟩ := hinv
    exact ⟨l, replies, hrun, hreplies, hdestroyed, hinv.isMapAfter hops⟩
  induction history using List.reverseRecOn with
  | nil =>
    exact ⟨_, _, _, rfl, rfl, rfl, rfl, shows_linkedKvCreate capacity h ops,
      wellFormed_create capacity h ops, fun _ => rfl⟩
  | append_singleton history op ih =>
    obtain ⟨l, replies, kv, hrun, rfl, hdestroyed, hinv⟩ := ih
    obtain ⟨l', kv', hstep, hdestroyed', hinv'⟩ := hinv.step hops op
    refine ⟨l', _, kv', exec_concat_eq_some.mpr ⟨l, _, _, hrun, hstep, rfl⟩, ?_, ?_, hinv'⟩
    · rw [along_concat, List.nil_append]
    · rw [hdestroyed', hdestroyed, along_concat, List.flatten_append, List.nil_append,
        List.flatten_singleton]

/-- Numbers with the same last digit are equivalent keys; a table of two bins has one for the even
and one for the odd numbers. -/
def lastDigitOps : KvStoreOps ℕ where
  hash x := if x % 2 = 0 then 0 else 1
  cmp x y := x % 10 = y % 10

theorem lastDigitOps_lawful : lastDigitOps.Lawful where
  refl x := by simp [lastDigitOps]
  symm x y h := by simp only [lastDigitOps, decide_eq_true_eq] at h ⊢; omega
  trans x y z h h' := by simp only [lastDigitOps, decide_eq_true_eq] at h h' ⊢; omega
  hash_eq x y h := by
    simp only [lastDigitOps, decide_eq_true_eq] at h ⊢
    rw [show x % 2 = y % 2 by omega]

/-- Three keys in one bin: one is replaced, one is deleted. -/
theorem linkedKvStore_isMapAfter_lastDigit :
    ∃ l replies, exec linkedKvStep (linkedKvCreate 2 Nat.two_pos lastDigitOps)
        [.put 1 'a', .put 3 'b', .put 11 'c', .delete 23, .get 21, .get 3] = some (l, replies) ∧
      replies = [none, none, none, none, some 'c', none] ∧
      l.destroyed = [(1, 'a'), (3, 'b')] :=
  let ⟨l, replies, hrun, hreplies, hdestroyed, _⟩ :=
    linkedKvStore_isMapAfter lastDigitOps_lawful Nat.two_pos
      [.put 1 'a', .put 3 'b', .put 11 'c', .delete 23, .get 21, .get 3]
  ⟨l, replies, hrun, hreplies.trans (by decide), hdestroyed.trans (by decide)⟩

end Racs
