import Racs.Hash
import Racs.Bytes
import Mathlib.Data.List.Basic
import Mathlib.Logic.Function.Basic

/-!
# The hash table

The table of `kvstore.c`: an array of bins, each a list of entries, with the newest first. A bin is
chosen by the hash of a key modulo the capacity and searched with the comparison callback. Memory
is always allocated; the destructor callback only frees memory and is not part of the model.

## Main definitions

* `Racs.KvStore`, `Racs.kvstoreGet`, `Racs.kvstorePut`, `Racs.kvstoreDelete`.
* `Racs.streamIdOps` — the callbacks of the tables whose keys are stream ids.

## Main results

* `Racs.kvstoreGet_put`, `Racs.kvstoreGet_delete` — under a comparison that is equality, the table
  is a map.
-/

namespace Racs

/-- `racs_kvstore_ops`, without the destructor. -/
structure KvStoreOps (κ : Type) where
  hash : κ → UInt64
  cmp : κ → κ → Bool

/-- `racs_kvstore_bin`. -/
structure KvStoreBin (κ ν : Type) where
  count : ℕ
  node : List (κ × ν)

/-- `racs_kvstore`; a capacity of zero would make every access divide by zero. -/
structure KvStore (κ ν : Type) where
  ops : KvStoreOps κ
  capacity : ℕ
  capacity_pos : 0 < capacity
  bins : Fin capacity → KvStoreBin κ ν

variable {κ ν : Type}

/-- `racs_kvstore_create`. -/
def kvstoreCreate (capacity : ℕ) (h : 0 < capacity) (ops : KvStoreOps κ) : KvStore κ ν :=
  ⟨ops, capacity, h, fun _ => ⟨0, []⟩⟩

/-- `racs_kvstore_get_bin`. -/
def kvstoreGetBin (kv : KvStore κ ν) (key : κ) : Fin kv.capacity :=
  ⟨(kv.ops.hash key).toNat % kv.capacity, Nat.mod_lt _ kv.capacity_pos⟩

/-- The table with another content of one bin. -/
def KvStore.setBin (kv : KvStore κ ν) (i : Fin kv.capacity) (bin : KvStoreBin κ ν) :
    KvStore κ ν :=
  { kv with bins := Function.update kv.bins i bin }

/-- The search of `racs_kvstore_get` in one bin. -/
def kvstoreBinGet (ops : KvStoreOps κ) (bin : KvStoreBin κ ν) (key : κ) : Option ν :=
  (bin.node.find? fun e => ops.cmp e.1 key).map Prod.snd

/-- `racs_kvstore_get`. -/
def kvstoreGet (kv : KvStore κ ν) (key : κ) : Option ν :=
  kvstoreBinGet kv.ops (kv.bins (kvstoreGetBin kv key)) key

/-- What `racs_kvstore_delete` does to the bin of the key: the first entry with an equal key is
unlinked. -/
def kvstoreBinDelete (ops : KvStoreOps κ) (bin : KvStoreBin κ ν) (key : κ) : KvStoreBin κ ν :=
  if bin.node.any fun e => ops.cmp e.1 key then
    ⟨bin.count - 1, bin.node.eraseP fun e => ops.cmp e.1 key⟩
  else bin

/-- `racs_kvstore_delete`. -/
def kvstoreDelete (kv : KvStore κ ν) (key : κ) : KvStore κ ν :=
  kv.setBin (kvstoreGetBin kv key) (kvstoreBinDelete kv.ops (kv.bins (kvstoreGetBin kv key)) key)

/-- `racs_kvstore_bin_append`. -/
def kvstoreBinAppend (bin : KvStoreBin κ ν) (key : κ) (value : ν) : KvStoreBin κ ν :=
  ⟨bin.count + 1, (key, value) :: bin.node⟩

/-- `racs_kvstore_put`: an entry with an equal key is deleted, then the new one is added. -/
def kvstorePut (kv : KvStore κ ν) (key : κ) (value : ν) : KvStore κ ν :=
  let bin := kv.bins (kvstoreGetBin kv key)
  let bin :=
    if bin.node.any fun e => kv.ops.cmp e.1 key then kvstoreBinDelete kv.ops bin key else bin
  kv.setBin (kvstoreGetBin kv key) (kvstoreBinAppend bin key value)

/-- The callbacks of the tables with the key `{ stream_id, 0 }`: `racs_offsets_hash` and
`racs_offsets_cmp`, or `racs_streamkv_hash` and `racs_streamkv_cmp`. -/
def streamIdOps : KvStoreOps UInt64 where
  hash id := murmur3X64128 (writeUint64 id ++ writeUint64 0)
  cmp x y := x = y

/-! ### Lawful callbacks -/

/-- The comparison callback is an equivalence, and equivalent keys have the same hash. -/
structure KvStoreOps.Lawful (ops : KvStoreOps κ) : Prop where
  refl : ∀ x, ops.cmp x x
  symm : ∀ x y, ops.cmp x y → ops.cmp y x
  trans : ∀ x y z, ops.cmp x y → ops.cmp y z → ops.cmp x z
  hash_eq : ∀ x y, ops.cmp x y → ops.hash x = ops.hash y

/-- The comparison callback is equality of keys. -/
def KvStoreOps.Exact (ops : KvStoreOps κ) : Prop := ∀ x y, ops.cmp x y = true ↔ x = y

theorem KvStoreOps.Exact.lawful {ops : KvStoreOps κ} (h : ops.Exact) : ops.Lawful where
  refl x := (h x x).mpr rfl
  symm x y hxy := (h y x).mpr ((h x y).mp hxy).symm
  trans x y z hxy hyz := (h x z).mpr (((h x y).mp hxy).trans ((h y z).mp hyz))
  hash_eq x y hxy := congrArg ops.hash ((h x y).mp hxy)

theorem streamIdOps_exact : streamIdOps.Exact := fun _ _ => decide_eq_true_iff

/-- Keys that are equivalent to one key are equivalent to each other. -/
theorem KvStoreOps.Lawful.cmp_of_cmp {ops : KvStoreOps κ} (h : ops.Lawful) {x y z : κ}
    (hx : ops.cmp x z) (hy : ops.cmp y z) : ops.cmp x y :=
  h.trans _ _ _ hx (h.symm _ _ hy)

theorem KvStoreOps.Lawful.getBin_eq {kv : KvStore κ ν} (h : kv.ops.Lawful) {x y : κ}
    (hxy : kv.ops.cmp x y) : kvstoreGetBin kv x = kvstoreGetBin kv y := by
  simp only [kvstoreGetBin, h.hash_eq x y hxy]

/-! ### The entry of a key -/

/-- The entry where the search for a key in its bin stops. -/
def kvstoreFind (kv : KvStore κ ν) (key : κ) : Option (κ × ν) :=
  (kv.bins (kvstoreGetBin kv key)).node.find? fun e => kv.ops.cmp e.1 key

theorem kvstoreGet_eq_map (kv : KvStore κ ν) (key : κ) :
    kvstoreGet kv key = (kvstoreFind kv key).map Prod.snd := rfl

theorem cmp_of_kvstoreFind {kv : KvStore κ ν} {key : κ} {e : κ × ν}
    (h : kvstoreFind kv key = some e) : kv.ops.cmp e.1 key := by
  have hcmp := List.find?_some h
  exact hcmp

theorem mem_of_kvstoreFind {kv : KvStore κ ν} {key : κ} {e : κ × ν}
    (h : kvstoreFind kv key = some e) : e ∈ (kv.bins (kvstoreGetBin kv key)).node :=
  List.mem_of_find?_eq_some h

@[simp] theorem KvStore.setBin_bins_self (kv : KvStore κ ν) (i : Fin kv.capacity)
    (bin : KvStoreBin κ ν) : (kv.setBin i bin).bins i = bin := Function.update_self ..

theorem KvStore.setBin_bins_of_ne (kv : KvStore κ ν) {i j : Fin kv.capacity} (h : j ≠ i)
    (bin : KvStoreBin κ ν) : (kv.setBin i bin).bins j = kv.bins j := Function.update_of_ne h ..

theorem kvstoreFind_setBin_of_eq (kv : KvStore κ ν) {key key' : κ}
    (h : kvstoreGetBin kv key' = kvstoreGetBin kv key) (bin : KvStoreBin κ ν) :
    kvstoreFind (kv.setBin (kvstoreGetBin kv key) bin) key' =
      bin.node.find? fun e => kv.ops.cmp e.1 key' := by
  refine congrArg (fun b : KvStoreBin κ ν => b.node.find? fun e => kv.ops.cmp e.1 key') ?_
  exact (congrArg (kv.setBin (kvstoreGetBin kv key) bin).bins h).trans (kv.setBin_bins_self _ bin)

theorem kvstoreFind_setBin_of_ne (kv : KvStore κ ν) {key key' : κ}
    (h : kvstoreGetBin kv key' ≠ kvstoreGetBin kv key) (bin : KvStoreBin κ ν) :
    kvstoreFind (kv.setBin (kvstoreGetBin kv key) bin) key' = kvstoreFind kv key' :=
  congrArg (fun b : KvStoreBin κ ν => b.node.find? fun e : κ × ν => kv.ops.cmp e.1 key')
    (kv.setBin_bins_of_ne h bin)

theorem find_eraseP {α : Type} {p q : α → Bool} (h : ∀ a, p a = true → ¬ q a = true)
    (l : List α) : (l.eraseP p).find? q = l.find? q := by
  induction l with
  | nil => rfl
  | cons a l ih =>
    by_cases ha : p a = true
    · rw [List.eraseP_cons_of_pos ha, List.find?_cons_of_neg (h a ha)]
    · rw [List.eraseP_cons_of_neg ha, List.find?_cons, List.find?_cons, ih]

/-- Unlinking the first entry is `List.eraseP`, whether there is one or not. -/
theorem kvstoreBinDelete_node (ops : KvStoreOps κ) (bin : KvStoreBin κ ν) (key : κ) :
    (kvstoreBinDelete ops bin key).node = bin.node.eraseP fun e => ops.cmp e.1 key := by
  rw [kvstoreBinDelete]
  split_ifs with hany
  · rfl
  · refine (List.eraseP_of_forall_not fun e he hcmp => hany ?_).symm
    exact List.any_eq_true.mpr ⟨e, he, hcmp⟩

theorem kvstoreBinDelete_of_not_any {ops : KvStoreOps κ} {bin : KvStoreBin κ ν} {key : κ}
    (h : ¬ bin.node.any fun e => ops.cmp e.1 key) : kvstoreBinDelete ops bin key = bin := if_neg h

/-- A put deletes and adds, whether the key has an entry or not. -/
theorem kvstorePut_eq (kv : KvStore κ ν) (key : κ) (value : ν) :
    kvstorePut kv key value = kv.setBin (kvstoreGetBin kv key) (kvstoreBinAppend
      (kvstoreBinDelete kv.ops (kv.bins (kvstoreGetBin kv key)) key) key value) := by
  rw [kvstorePut]
  split_ifs with hany
  · rfl
  · rw [kvstoreBinDelete_of_not_any hany]

theorem KvStore.setBin_setBin (kv : KvStore κ ν) (i : Fin kv.capacity) (bin bin' : KvStoreBin κ ν) :
    (kv.setBin i bin).setBin i bin' = kv.setBin i bin' :=
  congrArg (KvStore.mk kv.ops kv.capacity kv.capacity_pos) (Function.update_idem ..)

/-- `racs_kvstore_bin_append`, with the bin of the key. -/
def kvstoreAppend (kv : KvStore κ ν) (key : κ) (value : ν) : KvStore κ ν :=
  kv.setBin (kvstoreGetBin kv key) (kvstoreBinAppend (kv.bins (kvstoreGetBin kv key)) key value)

theorem kvstorePut_eq_append (kv : KvStore κ ν) (key : κ) (value : ν) :
    kvstorePut kv key value = kvstoreAppend (kvstoreDelete kv key) key value := by
  have hbins : (kvstoreDelete kv key).bins (kvstoreGetBin kv key) =
      kvstoreBinDelete kv.ops (kv.bins (kvstoreGetBin kv key)) key := kv.setBin_bins_self ..
  rw [kvstorePut_eq, ← hbins]
  exact (kv.setBin_setBin ..).symm

/-- Of a list without two equivalent keys, unlinking the first entry of a key leaves none. -/
theorem not_cmp_of_mem_eraseP {ops : KvStoreOps κ} (hops : ops.Lawful) {key : κ}
    {l : List (κ × ν)} (h : l.Pairwise fun e e' => ¬ ops.cmp e.1 e'.1) :
    ∀ e ∈ l.eraseP (fun e => ops.cmp e.1 key), ¬ ops.cmp e.1 key := by
  induction l with
  | nil => exact fun e he => absurd he List.not_mem_nil
  | cons a l ih =>
    obtain ⟨ha, hl⟩ := List.pairwise_cons.mp h
    intro e he hcmp
    rw [List.eraseP_cons] at he
    by_cases hacmp : ops.cmp a.1 key = true
    · rw [hacmp, cond_true] at he
      exact ha e he (hops.cmp_of_cmp hacmp hcmp)
    · rw [Bool.eq_false_of_not_eq_true hacmp, cond_false] at he
      rcases List.mem_cons.mp he with rfl | he
      · exact hacmp hcmp
      · exact ih hl e he hcmp

section Lawful

variable {kv : KvStore κ ν} (hops : kv.ops.Lawful)
include hops

/-- After a put, the keys equivalent to the new one have the new entry, and others have theirs. -/
theorem kvstoreFind_put (key key' : κ) (value : ν) :
    kvstoreFind (kvstorePut kv key value) key' =
      if kv.ops.cmp key key' then some (key, value) else kvstoreFind kv key' := by
  rw [kvstorePut_eq]
  by_cases hbin : kvstoreGetBin kv key' = kvstoreGetBin kv key
  · rw [kvstoreFind_setBin_of_eq kv hbin, kvstoreBinAppend, List.find?_cons]
    split_ifs with hcmp
    · rw [hcmp]
    · rw [Bool.not_eq_true] at hcmp
      simp only [hcmp, kvstoreBinDelete_node]
      rw [find_eraseP (fun e he he' => ?_), kvstoreFind, hbin]
      have hkey := hops.trans _ _ _ (hops.symm _ _ he) he'
      rw [hcmp] at hkey
      cases hkey
  · rw [kvstoreFind_setBin_of_ne kv hbin, if_neg fun hcmp => hbin (hops.getBin_eq hcmp).symm]

/-- After a deletion, the keys equivalent to the deleted one have no entry, and others have
theirs. -/
theorem kvstoreFind_delete (key key' : κ) (h : (kv.bins (kvstoreGetBin kv key)).node.Pairwise
      fun e e' => ¬ kv.ops.cmp e.1 e'.1) :
    kvstoreFind (kvstoreDelete kv key) key' =
      if kv.ops.cmp key key' then none else kvstoreFind kv key' := by
  rw [kvstoreDelete]
  by_cases hbin : kvstoreGetBin kv key' = kvstoreGetBin kv key
  · rw [kvstoreFind_setBin_of_eq kv hbin, kvstoreBinDelete_node]
    split_ifs with hcmp
    · rw [List.find?_eq_none]
      intro e he hcmp'
      exact not_cmp_of_mem_eraseP hops h e he (hops.cmp_of_cmp hcmp' hcmp)
    · rw [find_eraseP (fun e he he' => ?_), kvstoreFind, hbin]
      exact hcmp (hops.trans _ _ _ (hops.symm _ _ he) he')
  · rw [kvstoreFind_setBin_of_ne kv hbin, if_neg fun hcmp => hbin (hops.getBin_eq hcmp).symm]

end Lawful

/-! ### Tables whose keys are compared for equality -/

/-- **The table is a map**: after a put, the key has the value and other keys have theirs. -/
theorem kvstoreGet_put [DecidableEq κ] {kv : KvStore κ ν} (hops : kv.ops.Exact) (key key' : κ)
    (value : ν) :
    kvstoreGet (kvstorePut kv key value) key' =
      if key' = key then some value else kvstoreGet kv key' := by
  rw [kvstoreGet_eq_map, kvstoreFind_put hops.lawful]
  by_cases h : key' = key
  · rw [if_pos h, if_pos ((hops _ _).mpr h.symm)]
    rfl
  · rw [if_neg h, if_neg fun hcmp => h ((hops _ _).mp hcmp).symm]
    rfl

/-- No bin holds two entries with one key. -/
def KvStore.KeysDistinct (kv : KvStore κ ν) : Prop :=
  ∀ i, ((kv.bins i).node.map Prod.fst).Nodup

theorem keysDistinct_create (capacity : ℕ) (h : 0 < capacity) (ops : KvStoreOps κ) :
    (kvstoreCreate capacity h ops : KvStore κ ν).KeysDistinct := fun _ => List.nodup_nil

theorem KvStoreOps.Exact.pairwise_iff {ops : KvStoreOps κ} (hops : ops.Exact)
    (l : List (κ × ν)) :
    (l.Pairwise fun e e' => ¬ ops.cmp e.1 e'.1) ↔ (l.map Prod.fst).Nodup := by
  rw [List.Nodup, List.pairwise_map]
  simp only [hops _ _, ne_eq]

theorem KvStore.KeysDistinct.setBin {kv : KvStore κ ν} (h : kv.KeysDistinct) (i : Fin kv.capacity)
    {bin : KvStoreBin κ ν} (hbin : (bin.node.map Prod.fst).Nodup) :
    (kv.setBin i bin).KeysDistinct := by
  intro (j : Fin kv.capacity)
  by_cases hj : j = i
  · rw [hj, kv.setBin_bins_self]
    exact hbin
  · rw [kv.setBin_bins_of_ne hj]
    exact h j

section Distinct

variable {kv : KvStore κ ν} (hops : kv.ops.Exact) (h : kv.KeysDistinct)
include h

theorem nodup_delete (i : Fin kv.capacity) (key : κ) :
    ((kvstoreBinDelete kv.ops (kv.bins i) key).node.map Prod.fst).Nodup := by
  rw [kvstoreBinDelete_node]
  exact (h i).sublist (List.eraseP_sublist.map _)

theorem keysDistinct_delete (key : κ) : (kvstoreDelete kv key).KeysDistinct :=
  h.setBin _ (nodup_delete h _ key)

include hops

theorem keysDistinct_put (key : κ) (value : ν) : (kvstorePut kv key value).KeysDistinct := by
  rw [kvstorePut_eq]
  refine h.setBin _ ?_
  rw [kvstoreBinAppend, List.map_cons, List.nodup_cons]
  refine ⟨fun hmem => ?_, nodup_delete h _ key⟩
  rw [kvstoreBinDelete_node] at hmem
  obtain ⟨e, he, hkey⟩ := List.mem_map.mp hmem
  exact not_cmp_of_mem_eraseP hops.lawful ((hops.pairwise_iff _).mpr (h _)) e he
    ((hops _ _).mpr hkey)

/-- **Deletion**: after it the key has no value, and other keys have theirs. -/
theorem kvstoreGet_delete [DecidableEq κ] (key key' : κ) :
    kvstoreGet (kvstoreDelete kv key) key' = if key' = key then none else kvstoreGet kv key' := by
  rw [kvstoreGet_eq_map, kvstoreFind_delete hops.lawful _ _ ((hops.pairwise_iff _).mpr (h _))]
  by_cases heq : key' = key
  · rw [if_pos heq, if_pos ((hops _ _).mpr heq.symm)]
    rfl
  · rw [if_neg heq, if_neg fun hcmp => heq ((hops _ _).mp hcmp).symm]
    rfl

end Distinct

end Racs
