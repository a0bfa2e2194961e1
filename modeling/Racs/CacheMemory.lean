import Racs.Cache
import Racs.KvStoreMemory
import Racs.Foundation.LinkedList
import Racs.Foundation.RecentlyUsed

/-!
# The cache in memory

The nodes of a cache are in a hash table by key and in a doubly linked list, the one that was used
last at the head. Using a node moves it to the head, wherever it is in the list. An eviction deletes
the key of the tail from the table, which frees the node, and then repairs the tail, but never the
head: with one node in the list, the head is a dangling pointer afterwards.

## Main definitions

* `Racs.LinkedCache`, `Racs.linkedCacheMoveToHead`, `Racs.linkedCacheEvict`, `Racs.linkedCachePut`,
  `Racs.linkedCacheGet`.
* `Racs.LinkedCache.IsCache` — the list and the table have the same nodes.
* `Racs.Cache.Lists` — the cache without its memory holds the entries of a bounded map.
* `Racs.KeepsLru` — the cache is the bounded map that a history describes.

## Main results

* `Racs.LinkedCache.IsCache.step` — where there is room or a second node, a call follows the bounded
  map, as `Racs.Cache.Lists.get` and `Racs.Cache.Lists.put` do without the memory.
* `Racs.keepsLru_iff` — the histories for which a cache is the bounded map.
-/

namespace Racs

open LinkedList PartialRun

/-- `racs_cache`, with the memory of its nodes; the capacity is that of the table. -/
structure LinkedCache where
  memory : Memory ℕ (CacheKey × List UInt8)
  allocated : ℕ
  head : Option ℕ
  tail : Option ℕ
  size : ℕ
  kv : KvStore CacheKey ℕ

/-- `racs_scache_create`. -/
def linkedScacheCreate (capacity : ℕ) (h : 0 < capacity) : LinkedCache :=
  ⟨fun _ => none, 0, none, none, 0, kvstoreCreate capacity h cacheOps⟩

/-- `racs_cache_node_create`, with the new address. -/
def linkedCacheNodeCreate (c : LinkedCache) (key : CacheKey) (value : List UInt8) :
    LinkedCache × ℕ :=
  ({ c with
    memory := c.memory.write c.allocated ⟨(key, value), none, none⟩
    allocated := c.allocated + 1 }, c.allocated)

/-- `racs_cache_move_to_head`; undefined where a pointer is to no node. -/
def linkedCacheMoveToHead (c : LinkedCache) (node : ℕ) : Option LinkedCache :=
  match c.head with
  | none =>
    (c.memory.modify node fun n => { n with prev := none, next := none }).map fun memory =>
      { c with memory := memory, head := some node, tail := some node }
  | some head =>
    if head = node then some c
    else
      (if c.tail = some node then
        (c.memory node).bind fun n =>
        (c.memory.modifyIf n.prev fun last => { last with next := none }).map fun memory =>
          { c with memory := memory, tail := n.prev }
      else some c).bind fun c =>
      (c.memory node).bind fun n =>
      (c.memory.modifyIf n.prev fun p => { p with next := n.next }).bind fun memory =>
      (memory.modifyIf n.next fun q => { q with prev := n.prev }).bind fun memory =>
      (memory.modify node fun n => { n with prev := none, next := some head }).bind fun memory =>
      (memory.modify head fun n => { n with prev := some node }).map fun memory =>
        { c with memory := memory, head := some node }

/-- `racs_scache_destroy`, of the node of the entry that is deleted from the table. -/
def scacheDestroy (memory : Memory ℕ (CacheKey × List UInt8)) :
    Option (CacheKey × ℕ) → Option (Memory ℕ (CacheKey × List UInt8))
  | none => some memory
  | some (_, node) => memory.free node

/-- `racs_cache_evict`. -/
def linkedCacheEvict (c : LinkedCache) : Option LinkedCache :=
  c.tail.bind fun tail => (c.memory tail).bind fun node =>
  (scacheDestroy c.memory (kvstoreFind c.kv node.value.1)).bind fun memory =>
  (memory.modifyIf node.prev fun n => { n with next := none }).map fun memory =>
    { c with
      memory := memory
      tail := node.prev
      size := c.size - 1
      kv := kvstoreDelete c.kv node.value.1 }

/-- The part of `racs_cache_put` behind the eviction. -/
def linkedCacheAdd (c : LinkedCache) (key : CacheKey) (value : List UInt8) : Option LinkedCache :=
  let (c, node) := linkedCacheNodeCreate c key value
  (linkedCacheMoveToHead c node).bind fun c =>
  (scacheDestroy c.memory (kvstoreFind c.kv key)).map fun memory =>
    { c with memory := memory, size := c.size + 1, kv := kvstorePut c.kv key node }

/-- `racs_cache_put`. -/
def linkedCachePut (c : LinkedCache) (key : CacheKey) (value : List UInt8) : Option LinkedCache :=
  match kvstoreGet c.kv key with
  | some node => linkedCacheMoveToHead c node
  | none =>
    (if c.kv.capacity ≤ c.size then linkedCacheEvict c else some c).bind fun c =>
    linkedCacheAdd c key value

/-- `racs_cache_get`. -/
def linkedCacheGet (c : LinkedCache) (key : CacheKey) :
    Option (LinkedCache × Option (List UInt8)) :=
  match kvstoreGet c.kv key with
  | none => some (c, none)
  | some node =>
    (linkedCacheMoveToHead c node).bind fun c =>
    (c.memory node).map fun n => (c, some n.value.2)

/-- A call of `racs_cache_get` or `racs_cache_put`. -/
def linkedCacheStep (c : LinkedCache) :
    RecentlyUsed.Op CacheKey (List UInt8) → Option (LinkedCache × Option (List UInt8))
  | .get key => linkedCacheGet c key
  | .put key value => (linkedCachePut c key value).map (·, none)

/-! ### Moving a node to the head -/

section MoveToHead

variable {c : LinkedCache} {xs ys zs : List (ℕ × (CacheKey × List UInt8))}

/-- A node outside the list, whose pointers are null, becomes the head. -/
theorem moveToHead_new (h : IsList c.memory c.head c.tail xs) {a : ℕ}
    {v : CacheKey × List UInt8} (hnode : c.memory a = some ⟨v, none, none⟩)
    (ha : a ∉ xs.map Prod.fst) :
    ∃ memory tail, linkedCacheMoveToHead c a =
        some { c with memory := memory, head := some a, tail := tail } ∧
      IsList memory (some a) tail ((a, v) :: xs) := by
  cases xs with
  | nil =>
    have hhead : c.head = none := h.head_eq
    refine ⟨c.memory.write a ⟨v, none, none⟩, some a, ?_, .singleton (Memory.write_same ..)⟩
    rw [linkedCacheMoveToHead, hhead, Memory.modify_of_eq hnode]
    rfl
  | cons x xs =>
    have hhead : c.head = some x.1 := h.head_eq
    have hne : x.1 ≠ a := fun heq => ha (heq ▸ List.mem_cons_self)
    have htail : c.tail ≠ some a := by
      intro heq
      obtain ⟨y, hy, hya⟩ := Option.map_eq_some_iff.mp (h.tail_eq.symm.trans heq)
      exact ha (hya ▸ List.mem_map_of_mem (List.mem_of_getLast? hy))
    obtain ⟨memory₁, memory', hmodify, hlink, hlist⟩ := h.pushFront hnode ha
    refine ⟨memory', c.tail, ?_, hlist⟩
    simp only [linkedCacheMoveToHead, hhead, if_neg hne, if_neg htail, Option.bind_some, hnode,
      Memory.modifyIf, hmodify, hlink, Option.map_some]

/-- The last node becomes the head: the node in front of it becomes the tail first. -/
theorem moveToHead_tail {us : List (ℕ × (CacheKey × List UInt8))}
    {p x : ℕ × (CacheKey × List UInt8)} (h : IsList c.memory c.head c.tail (us ++ [p, x]))
    (hx : x.1 ∉ (us ++ [p]).map Prod.fst) :
    ∃ memory tail, linkedCacheMoveToHead c x.1 =
        some { c with memory := memory, head := some x.1, tail := tail } ∧
      IsList memory (some x.1) tail (x :: (us ++ [p])) := by
  obtain ⟨y, vs, hys⟩ : ∃ y vs, us ++ [p] = y :: vs :=
    List.exists_cons_of_ne_nil (List.append_ne_nil_of_right_ne_nil _ (List.cons_ne_nil _ _))
  have hhead : c.head = some y.1 := by rw [h.head_eq, List.append_cons, hys]; rfl
  have hne : y.1 ≠ x.1 := fun heq => hx (heq ▸ by rw [hys]; exact List.mem_cons_self)
  obtain ⟨-, hp, hlinked, -⟩ := (linked_append c.memory none none us [p, x]).mp h.linked
  have hnode : c.memory x.1 = some ⟨x.2, none, some p.1⟩ := hlinked
  obtain ⟨htail, -, memory, hunlink, hlist⟩ := h.unlink
  rw [hys, hhead] at hlist
  have hxp : x.1 ≠ p.1 := fun heq => hx (heq ▸ List.mem_map_of_mem (by simp))
  have hwrite := hunlink.symm.trans (Memory.modify_of_eq hp _)
  have hsame : memory x.1 = c.memory x.1 := by
    rw [Option.some.inj hwrite, c.memory.write_of_ne _ hxp]
  have hagain : memory.modify p.1 (fun n => { n with next := none }) = some memory := by
    have hmemory : memory p.1 = some ⟨p.2, none, (us.getLast?.map Prod.fst).or none⟩ := by
      rw [Option.some.inj hwrite, Memory.write_same]
    rw [Memory.modify_of_eq hmemory, Memory.write_eq_self hmemory]
  rw [hys] at hx ⊢
  obtain ⟨memory₂, memory', hfront, hlink, hlist'⟩ := hlist.pushFront (hsame.trans hnode) hx
  refine ⟨memory', some p.1, ?_, hlist'⟩
  simp only [linkedCacheMoveToHead, hhead, if_neg hne, if_pos htail]
  rw [hnode]
  simp only [Option.bind_some, Memory.modifyIf, hunlink, Option.map_some, hsame]
  rw [hnode]
  simp only [Option.bind_some, hagain, hfront, hlink, Option.map_some]

/-- A node between two others becomes the head. -/
theorem moveToHead_between {us : List (ℕ × (CacheKey × List UInt8))}
    {p x z : ℕ × (CacheKey × List UInt8)}
    (h : IsList c.memory c.head c.tail (us ++ p :: x :: z :: zs))
    (hx : x.1 ∉ (us ++ [p] ++ z :: zs).map Prod.fst) :
    ∃ memory tail, linkedCacheMoveToHead c x.1 =
        some { c with memory := memory, head := some x.1, tail := tail } ∧
      IsList memory (some x.1) tail (x :: (us ++ [p] ++ z :: zs)) := by
  obtain ⟨y, vs, hys⟩ : ∃ y vs, us ++ [p] = y :: vs :=
    List.exists_cons_of_ne_nil (List.append_ne_nil_of_right_ne_nil _ (List.cons_ne_nil _ _))
  have hhead : c.head = some y.1 := by rw [h.head_eq, List.append_cons, hys]; rfl
  have hne : y.1 ≠ x.1 := fun heq => hx (heq ▸ by rw [hys]; exact List.mem_cons_self)
  have htail : c.tail ≠ some x.1 := by
    intro heq
    obtain ⟨w, hw, hwx⟩ := Option.map_eq_some_iff.mp (h.tail_eq.symm.trans heq)
    rw [List.append_cons, List.append_cons,
      List.getLast?_append_of_ne_nil _ (List.cons_ne_nil z zs)] at hw
    refine hx (hwx ▸ List.mem_map_of_mem (List.mem_append_right _ ?_))
    exact List.mem_of_getLast? hw
  obtain ⟨hnode, memory₁, memory, hmodify₁, hmodify, hsame, hlist⟩ := h.bypass
  rw [List.append_cons, hys, List.cons_append, hhead] at hlist
  rw [← hsame] at hnode
  rw [hys, List.cons_append] at hx ⊢
  obtain ⟨memory₂, memory', hfront, hlink, hlist'⟩ := hlist.pushFront hnode hx
  refine ⟨memory', c.tail, ?_, hlist'⟩
  simp only [linkedCacheMoveToHead, hhead, if_neg hne, if_neg htail, Option.bind_some]
  rw [← hsame, hnode]
  simp only [Option.bind_some, Memory.modifyIf, hmodify₁, hmodify, hfront, hlink, Option.map_some]

/-- A node of the list becomes the head. -/
theorem moveToHead_mem {x : ℕ × (CacheKey × List UInt8)}
    (h : IsList c.memory c.head c.tail (ys ++ x :: zs)) :
    ∃ memory tail, linkedCacheMoveToHead c x.1 =
        some { c with memory := memory, head := some x.1, tail := tail } ∧
      IsList memory (some x.1) tail (x :: (ys ++ zs)) := by
  have hx : x.1 ∉ (ys ++ zs).map Prod.fst := by
    have hnodup := h.nodup
    rw [List.map_append, List.map_cons, List.nodup_middle, List.nodup_cons, ← List.map_append]
      at hnodup
    exact hnodup.1
  rcases List.eq_nil_or_concat' ys with rfl | ⟨us, p, rfl⟩
  · have hhead : c.head = some x.1 := h.head_eq
    refine ⟨c.memory, c.tail, ?_, hhead ▸ h⟩
    simp only [linkedCacheMoveToHead, hhead]
    rw [if_pos trivial, ← hhead]
  · rw [List.append_assoc, List.singleton_append] at h
    cases zs with
    | nil =>
      rw [List.append_nil] at hx ⊢
      exact moveToHead_tail h hx
    | cons z zs => exact moveToHead_between h hx

end MoveToHead

/-! ### The list and the table -/

/-- The list and the table have the same nodes, each with a key of its own. -/
structure LinkedCache.IsCache (c : LinkedCache) (xs : List (ℕ × (CacheKey × List UInt8))) :
    Prop where
  list : IsList c.memory c.head c.tail xs
  lt : ∀ x ∈ xs, x.1 < c.allocated
  distinct : ((xs.map Prod.snd).map Prod.fst).Nodup
  size_eq : c.size = xs.length
  ops_eq : c.kv.ops = cacheOps
  wellFormed : c.kv.WellFormed
  get_iff : ∀ key a, kvstoreGet c.kv key = some a ↔ ∃ value, (a, key, value) ∈ xs

theorem exists_append_two {α : Type} {l : List α} (h : 2 ≤ l.length) :
    ∃ us x y, l = us ++ [x, y] := by
  rcases List.eq_nil_or_concat' l with rfl | ⟨l, y, rfl⟩
  · cases h
  · rcases List.eq_nil_or_concat' l with rfl | ⟨us, x, rfl⟩
    · simp at h
    · exact ⟨us, x, y, by rw [List.append_assoc, List.singleton_append]⟩

namespace LinkedCache.IsCache

variable {c : LinkedCache} {xs ys : List (ℕ × (CacheKey × List UInt8))} (h : c.IsCache xs)
include h

theorem exact : c.kv.ops.Exact := h.ops_eq ▸ cacheOps_exact

theorem keysDistinct : c.kv.KeysDistinct := fun i =>
  (h.exact.pairwise_iff _).mp (h.wellFormed.distinct i)

/-- The nodes are linked in another order. -/
theorem relink (hperm : ys.Perm xs) {memory : Memory ℕ (CacheKey × List UInt8)}
    {head tail : Option ℕ} (hlist : IsList memory head tail ys) :
    IsCache { c with memory := memory, head := head, tail := tail } ys where
  list := hlist
  lt x hx := h.lt x (hperm.subset hx)
  distinct := ((hperm.map Prod.snd).map Prod.fst).nodup_iff.mpr h.distinct
  size_eq := h.size_eq.trans hperm.length_eq.symm
  ops_eq := h.ops_eq
  wellFormed := h.wellFormed
  get_iff key a := (h.get_iff key a).trans (exists_congr fun _ => hperm.mem_iff.symm)

theorem get_eq_some {key : CacheKey} {a : ℕ} (hget : kvstoreGet c.kv key = some a) :
    ∃ ys value zs, xs = ys ++ (a, key, value) :: zs ∧
      RecentlyUsed.entry (xs.map Prod.snd) key = some (key, value) := by
  obtain ⟨value, hmem⟩ := (h.get_iff key a).mp hget
  obtain ⟨ys, zs, hxs⟩ := List.append_of_mem hmem
  refine ⟨ys, value, zs, hxs, (RecentlyUsed.entry_eq_some_iff h.distinct).mpr ⟨?_, rfl⟩⟩
  exact List.mem_map_of_mem hmem

theorem get_eq_none {key : CacheKey} :
    kvstoreGet c.kv key = none ↔ RecentlyUsed.entry (xs.map Prod.snd) key = none := by
  rw [RecentlyUsed.entry_eq_none_iff]
  constructor
  · intro hget hmem
    obtain ⟨e, he, rfl⟩ := List.mem_map.mp hmem
    obtain ⟨x, hx, rfl⟩ := List.mem_map.mp he
    rw [(h.get_iff x.2.1 x.1).mpr ⟨x.2.2, hx⟩] at hget
    cases hget
  · intro hnot
    cases hget : kvstoreGet c.kv key with
    | none => rfl
    | some a =>
      obtain ⟨value, hmem⟩ := (h.get_iff key a).mp hget
      exact absurd (List.mem_map_of_mem (List.mem_map_of_mem hmem)) hnot

/-- Using a node moves it to the head. -/
theorem use {key : CacheKey} {a : ℕ} (hget : kvstoreGet c.kv key = some a) :
    ∃ c' xs', linkedCacheMoveToHead c a = some c' ∧ c'.IsCache xs' ∧ c'.kv = c.kv ∧
      xs'.map Prod.snd = RecentlyUsed.refresh (xs.map Prod.snd) key ∧
      ∃ value node, RecentlyUsed.entry (xs.map Prod.snd) key = some (key, value) ∧
        c'.memory a = some node ∧ node.value.2 = value := by
  obtain ⟨ys, value, zs, rfl, hentry⟩ := h.get_eq_some hget
  obtain ⟨memory, tail, hmove, hlist⟩ := moveToHead_mem h.list
  refine ⟨_, _, hmove, h.relink List.perm_middle.symm hlist, rfl, ?_, value, _, hentry,
    hlist.linked.1, rfl⟩
  have hdistinct := h.distinct
  rw [List.map_append, List.map_cons] at hdistinct
  simp only [List.map_append, List.map_cons]
  exact (RecentlyUsed.refresh_append_cons hdistinct).symm

/-- A new node for a key that is not in the table. -/
theorem add {key : CacheKey} (hget : kvstoreGet c.kv key = none) (value : List UInt8) :
    ∃ c' a, linkedCacheAdd c key value = some c' ∧ c'.IsCache ((a, key, value) :: xs) ∧
      c'.kv.capacity = c.kv.capacity := by
  have hfresh : c.allocated ∉ xs.map Prod.fst := by
    intro hmem
    obtain ⟨x, hx, heq⟩ := List.mem_map.mp hmem
    exact absurd (h.lt x hx) (by omega)
  have hfind : kvstoreFind c.kv key = none := Option.map_eq_none_iff.mp hget
  have hkey := RecentlyUsed.entry_eq_none_iff.mp (h.get_eq_none.mp hget)
  obtain ⟨memory, tail, hmove, hlist⟩ :=
    @moveToHead_new (linkedCacheNodeCreate c key value).1 _ (h.list.write hfresh _) c.allocated _
      (Memory.write_same ..) hfresh
  refine ⟨{ c with
    memory := memory
    allocated := c.allocated + 1
    head := some c.allocated
    tail := tail
    size := c.size + 1
    kv := kvstorePut c.kv key c.allocated }, c.allocated, ?_, ⟨hlist, ?_, ?_, ?_, h.ops_eq, ?_, ?_⟩,
    rfl⟩
  · simp only [linkedCacheAdd]
    have hmove' : linkedCacheMoveToHead (linkedCacheNodeCreate c key value).1
      (linkedCacheNodeCreate c key value).2 = _ := hmove
    rw [hmove', Option.bind_some]
    simp only [linkedCacheNodeCreate, hfind, scacheDestroy, Option.map_some]
  · intro x hx
    rcases List.mem_cons.mp hx with rfl | hx
    · exact Nat.lt_succ_self _
    · exact Nat.lt_succ_of_lt (h.lt x hx)
  · exact List.nodup_cons.mpr ⟨hkey, h.distinct⟩
  · exact congrArg (· + 1) h.size_eq
  · exact h.wellFormed.put h.exact.lawful key _
  · intro key' a
    rw [kvstoreGet_put h.exact]
    split_ifs with heq
    · subst heq
      constructor
      · rintro ⟨⟩
        exact ⟨value, List.mem_cons_self⟩
      · rintro ⟨value', hmem⟩
        rcases List.mem_cons.mp hmem with hnew | hold
        · rw [(Prod.mk.inj hnew).1]
        · exact absurd (List.mem_map_of_mem (List.mem_map_of_mem hold)) hkey
    · refine (h.get_iff key' a).trans (exists_congr fun value' => ?_)
      refine (List.mem_cons.trans (or_iff_right fun hnew => heq ?_)).symm
      exact (Prod.mk.inj (Prod.mk.inj hnew).2).1

/-- An eviction drops the last node, if there is another one. -/
theorem evict {us : List (ℕ × (CacheKey × List UInt8))} {x y : ℕ × (CacheKey × List UInt8)}
    (hxs : xs = us ++ [x, y]) :
    ∃ c', linkedCacheEvict c = some c' ∧ c'.IsCache (us ++ [x]) ∧
      c'.kv.capacity = c.kv.capacity := by
  subst hxs
  have hlast : y ∈ us ++ [x, y] := by simp
  have hsub : (us ++ [x]).Sublist (us ++ [x, y]) :=
    .append_left (.cons_cons x (List.nil_sublist _)) us
  obtain ⟨-, -, hy, -⟩ := (linked_append c.memory none none us [x, y]).mp h.list.linked
  have hnode : c.memory y.1 = some ⟨y.2, none, some x.1⟩ := hy
  obtain ⟨htail, -⟩ := h.list.unlink
  obtain ⟨memory₁, memory, hfree, hmodify, hlist⟩ := h.list.freeTail
  have hdestroy : scacheDestroy c.memory (kvstoreFind c.kv y.2.1) = some memory₁ := by
    have hget := (h.get_iff y.2.1 y.1).mpr ⟨y.2.2, hlast⟩
    rw [kvstoreGet_eq_map, Option.map_eq_some_iff] at hget
    obtain ⟨⟨key, a⟩, hfind, rfl⟩ := hget
    rw [hfind]
    exact hfree
  refine ⟨{ c with
    memory := memory
    tail := some x.1
    size := c.size - 1
    kv := kvstoreDelete c.kv y.2.1 }, ?_, ⟨hlist, ?_, ?_, ?_, h.ops_eq, ?_, ?_⟩, rfl⟩
  · rw [linkedCacheEvict, htail, Option.bind_some, hnode, Option.bind_some, hdestroy]
    simp only [Option.bind_some, Memory.modifyIf, hmodify, Option.map_some]
  · exact fun z hz => h.lt z (hsub.subset hz)
  · exact h.distinct.sublist ((hsub.map _).map _)
  · have hsize := h.size_eq
    simp only [List.length_append, List.length_cons, List.length_nil] at hsize ⊢
    omega
  · exact h.wellFormed.delete _
  · intro key a
    have hdistinct := h.distinct
    rw [List.append_cons, List.map_append, List.map_append, List.nodup_append] at hdistinct
    have hne : ∀ z ∈ us ++ [x], z.2.1 ≠ y.2.1 := fun z hz =>
      hdistinct.2.2 _ (List.mem_map_of_mem (List.mem_map_of_mem hz)) _ List.mem_cons_self
    rw [kvstoreGet_delete h.exact h.keysDistinct]
    split_ifs with heq
    · refine iff_of_false (fun hnone => by cases hnone) ?_
      rintro ⟨value, hmem⟩
      exact hne _ hmem heq
    · refine (h.get_iff key a).trans (exists_congr fun value => ?_)
      rw [List.append_cons us x [y], List.mem_append, or_iff_left]
      intro hmem
      have hpair := List.mem_singleton.mp hmem
      exact heq (congrArg (fun z : ℕ × (CacheKey × List UInt8) => z.2.1) hpair)

/-- The nodes of the list are those of the table. -/
theorem entries_perm : (kvstoreEntries c.kv).Perm (xs.map fun x => (x.2.1, x.1)) := by
  refine (List.perm_ext_iff_of_nodup (h.wellFormed.nodup_entries h.exact) ?_).mpr ?_
  · refine List.Nodup.of_map Prod.fst ?_
    have hdistinct := h.distinct
    rw [List.map_map] at hdistinct ⊢
    exact hdistinct
  · rintro ⟨key, a⟩
    rw [kvstoreEntries, List.mem_flatMap, List.mem_map]
    simp only [List.mem_finRange, true_and]
    rw [h.wellFormed.mem_bins_iff h.exact, h.get_iff]
    constructor
    · rintro ⟨value, hmem⟩
      exact ⟨_, hmem, rfl⟩
    · rintro ⟨x, hmem, hx⟩
      obtain ⟨rfl, rfl⟩ := Prod.mk.inj hx
      exact ⟨x.2.2, hmem⟩

/-- **A call follows the bounded map**, if an eviction finds a second node in the list. -/
theorem step {capacity : ℕ} (hcapacity : c.kv.capacity = capacity)
    (op : RecentlyUsed.Op CacheKey (List UInt8))
    (hroom : ∀ key value, op = .put key value →
      RecentlyUsed.entry (xs.map Prod.snd) key = none → xs.length < capacity ∨ 2 ≤ xs.length) :
    ∃ c' xs', linkedCacheStep c op = some (c', op.reply (xs.map Prod.snd)) ∧ c'.IsCache xs' ∧
      c'.kv.capacity = capacity ∧
      xs'.map Prod.snd = RecentlyUsed.step capacity (xs.map Prod.snd) op := by
  cases op with
  | get key =>
    rw [linkedCacheStep, linkedCacheGet, RecentlyUsed.Op.reply, RecentlyUsed.step]
    cases hget : kvstoreGet c.kv key with
    | none =>
      have hentry := h.get_eq_none.mp hget
      refine ⟨c, xs, ?_, h, hcapacity, (RecentlyUsed.refresh_of_none hentry).symm⟩
      rw [hentry]
      rfl
    | some a =>
      obtain ⟨c', xs', hmove, hcache, hkv, hxs', value, node, hentry, hnode, rfl⟩ := h.use hget
      refine ⟨c', xs', ?_, hcache, hkv ▸ hcapacity, hxs'⟩
      simp only [hmove, Option.bind_some, hnode, Option.map_some, hentry]
  | put key value =>
    rw [linkedCacheStep, linkedCachePut, RecentlyUsed.Op.reply, RecentlyUsed.step]
    cases hget : kvstoreGet c.kv key with
    | some a =>
      obtain ⟨c', xs', hmove, hcache, hkv, hxs', value, node, hentry, -⟩ := h.use hget
      refine ⟨c', xs', by simp only [hmove, Option.map_some], hcache, hkv ▸ hcapacity, ?_⟩
      rw [hxs', hentry]
      rfl
    | none =>
      have hentry := h.get_eq_none.mp hget
      simp only [hentry, h.size_eq, hcapacity, List.length_map, Option.isSome_none,
        Bool.false_eq_true, if_false]
      split_ifs with hfull
      · have htwo := (hroom key value rfl hentry).resolve_left (by omega)
        obtain ⟨us, x, y, rfl⟩ := exists_append_two htwo
        obtain ⟨c₁, hevict, hcache₁, hcapacity₁⟩ := h.evict rfl
        have hget₁ : kvstoreGet c₁.kv key = none := by
          rw [RecentlyUsed.entry_eq_none_iff, List.append_cons, List.map_append, List.map_append,
            List.mem_append, not_or] at hentry
          exact hcache₁.get_eq_none.mpr (RecentlyUsed.entry_eq_none_iff.mpr hentry.1)
        obtain ⟨c', a, hadd, hcache', hcapacity'⟩ := hcache₁.add hget₁ value
        refine ⟨c', _, ?_, hcache', hcapacity'.trans (hcapacity₁.trans hcapacity), ?_⟩
        · simp only [hevict, Option.bind_some, hadd, Option.map_some]
        · have hdrop : ((us ++ [x, y]).map Prod.snd).dropLast = (us ++ [x]).map Prod.snd := by
            rw [List.append_cons, List.map_append, List.map_singleton, List.dropLast_concat]
          rw [hdrop, List.map_cons]
      · obtain ⟨c', a, hadd, hcache', hcapacity'⟩ := h.add hget value
        refine ⟨c', _, ?_, hcache', hcapacity'.trans hcapacity, rfl⟩
        simp only [Option.bind_some, hadd, Option.map_some]

end LinkedCache.IsCache

theorem isCache_create (capacity : ℕ) (h : 0 < capacity) :
    (linkedScacheCreate capacity h).IsCache [] where
  list := .nil _
  lt _ hx := absurd hx List.not_mem_nil
  distinct := List.nodup_nil
  size_eq := rfl
  ops_eq := rfl
  wellFormed := wellFormed_create capacity h cacheOps
  get_iff _ _ := iff_of_false (fun hget => by cases hget)
    fun ⟨_, hmem⟩ => absurd hmem List.not_mem_nil

/-! ### Histories -/

/-- All puts are of one key. -/
def OneKey (history : List (RecentlyUsed.Op CacheKey (List UInt8))) : Prop :=
  ∀ key value key' value', .put key value ∈ history → .put key' value' ∈ history → key = key'

/-- **Runs**: with room for two nodes, or with one key, a cache follows the bounded map. -/
theorem exists_isCache {capacity : ℕ} (h : 0 < capacity)
    {history : List (RecentlyUsed.Op CacheKey (List UInt8))}
    (hroom : 2 ≤ capacity ∨ OneKey history) :
    ∃ c xs, exec linkedCacheStep (linkedScacheCreate capacity h) history =
        some (c, RecentlyUsed.replies capacity history) ∧ c.IsCache xs ∧
      c.kv.capacity = capacity ∧ xs.map Prod.snd = RecentlyUsed.contents capacity history := by
  induction history using List.reverseRecOn with
  | nil => exact ⟨_, [], rfl, isCache_create capacity h, rfl, rfl⟩
  | append_singleton history op ih =>
    have hsub : ∀ i ∈ history, i ∈ history ++ [op] := fun i hi => List.mem_append_left _ hi
    obtain ⟨c, xs, hrun, hcache, hcapacity, hxs⟩ := ih <| hroom.imp_right
      fun hone key value key' value' hput hput' =>
        hone key value key' value' (hsub _ hput) (hsub _ hput')
    obtain ⟨c', xs', hstep, hcache', hcapacity', hxs'⟩ := hcache.step hcapacity op <| by
      rintro key value rfl hentry
      rcases hroom with htwo | hone
      · omega
      · left
        cases xs with
        | nil => exact h
        | cons x xs =>
          have hmem : x.2 ∈ RecentlyUsed.contents capacity history := hxs ▸ List.mem_cons_self
          have hkey : x.2.1 = key := hone _ _ _ _ (hsub _ (RecentlyUsed.mem_contents hmem))
            List.mem_concat_self
          exact absurd (hkey ▸ List.mem_cons_self) (RecentlyUsed.entry_eq_none_iff.mp hentry)
    refine ⟨c', xs', ?_, hcache', hcapacity', ?_⟩
    · rw [RecentlyUsed.replies_concat, ← hxs]
      exact exec_concat_eq_some.mpr ⟨c, _, _, hrun, hstep, rfl⟩
    · rw [hxs', hxs, RecentlyUsed.contents_concat]

/-! ### The cache without its memory -/

/-- The cache holds these entries, in this order. -/
structure Cache.Lists (cache : Cache) (entries : List (CacheKey × List UInt8)) : Prop where
  valid : cache.Valid
  order_eq : cache.order = entries.map Prod.fst
  distinct : (entries.map Prod.fst).Nodup
  get_eq : ∀ key, kvstoreGet cache.kv key = (RecentlyUsed.entry entries key).map Prod.snd

namespace Cache.Lists

variable {cache cache' : Cache} {entries : List (CacheKey × List UInt8)} (h : cache.Lists entries)
include h

theorem use {key : CacheKey} {e : CacheKey × List UInt8}
    (hentry : RecentlyUsed.entry entries key = some e) :
    (cacheMoveToHead cache key).Lists (RecentlyUsed.refresh entries key) where
  valid := ⟨h.valid.ops, h.valid.distinct⟩
  order_eq := by
    have hdistinct := h.distinct
    obtain ⟨hmem, rfl⟩ := (RecentlyUsed.entry_eq_some_iff h.distinct).mp hentry
    obtain ⟨ys, zs, rfl⟩ := List.append_of_mem hmem
    rw [RecentlyUsed.refresh_append_cons hdistinct, cacheMoveToHead, h.order_eq]
    rw [List.map_append, List.map_cons, List.nodup_middle, List.nodup_cons, List.mem_append, not_or]
      at hdistinct
    rw [List.map_append, List.map_cons, List.erase_append_right _ hdistinct.1.1,
      List.erase_cons_head, List.map_cons, List.map_append]
  distinct := ((RecentlyUsed.refresh_perm h.distinct key).map Prod.fst).nodup_iff.mpr h.distinct
  get_eq key' := by
    rw [RecentlyUsed.entry_refresh h.distinct]
    exact h.get_eq key'

theorem evict (hevict : cacheEvict cache = some cache') : cache'.Lists entries.dropLast := by
  have hvalid := h.valid.evict hevict
  rw [cacheEvict] at hevict
  rcases List.eq_nil_or_concat' entries with rfl | ⟨es, e, rfl⟩
  · rw [h.order_eq] at hevict
    cases hevict
  · have horder : cache.order = es.map Prod.fst ++ [e.1] := by
      rw [h.order_eq, List.map_append, List.map_singleton]
    simp only [horder, List.getLast?_concat, List.dropLast_concat] at hevict ⊢
    split_ifs at hevict
    obtain rfl := Option.some.inj hevict
    have hsub : es.Sublist (es ++ [e]) := List.sublist_append_left es [e]
    refine ⟨hvalid, rfl, h.distinct.sublist (hsub.map _), fun key => ?_⟩
    rw [kvstoreGet_delete h.valid.exact h.valid.distinct, h.get_eq,
      RecentlyUsed.entry_dropLast h.distinct]
    split_ifs <;> rfl

theorem add {key : CacheKey} (hentry : RecentlyUsed.entry entries key = none)
    (value : List UInt8) :
    Lists ⟨kvstorePut cache.kv key value, key :: cache.order⟩ ((key, value) :: entries) where
  valid := ⟨h.valid.ops, keysDistinct_put h.valid.exact h.valid.distinct key value⟩
  order_eq := by rw [h.order_eq, List.map_cons]
  distinct := List.nodup_cons.mpr ⟨RecentlyUsed.entry_eq_none_iff.mp hentry, h.distinct⟩
  get_eq key' := by
    rw [kvstoreGet_put h.valid.exact, RecentlyUsed.entry_cons, h.get_eq]
    by_cases heq : key' = key
    · rw [if_pos heq, if_pos heq.symm, Option.map_some]
    · rw [if_neg heq, if_neg (Ne.symm heq)]

/-- A search in the cache without its memory follows the same map. -/
theorem get (capacity : ℕ) (key : CacheKey) :
    (cacheGet cache key).1 = RecentlyUsed.Op.reply entries (.get key) ∧
      (cacheGet cache key).2.Lists (RecentlyUsed.step capacity entries (.get key)) := by
  rw [RecentlyUsed.step, RecentlyUsed.Op.reply, cacheGet_fst, h.get_eq]
  refine ⟨rfl, ?_⟩
  have hget := h.get_eq key
  rw [cacheGet]
  cases hentry : RecentlyUsed.entry entries key with
  | none =>
    rw [hentry] at hget
    rw [hget, RecentlyUsed.refresh_of_none hentry]
    exact h
  | some e =>
    rw [hentry] at hget
    rw [hget]
    exact h.use hentry

/-- A put in the cache without its memory follows the same map. -/
theorem put {key : CacheKey} {value : List UInt8} (hput : cachePut cache key value = some cache') :
    cache'.Lists (RecentlyUsed.step cache.kv.capacity entries (.put key value)) := by
  have hget := h.get_eq key
  have hlength : cache.order.length = entries.length := by rw [h.order_eq, List.length_map]
  rw [cachePut] at hput
  rw [RecentlyUsed.step]
  cases hentry : RecentlyUsed.entry entries key with
  | some e =>
    rw [hentry] at hget
    rw [hget] at hput
    obtain rfl := Option.some.inj hput
    exact h.use hentry
  | none =>
    rw [hentry] at hget
    simp only [hget, Option.map_none, hlength] at hput
    simp only [Option.isSome_none, Bool.false_eq_true, if_false]
    split_ifs at hput ⊢ with hfull
    · obtain ⟨cache₁, hevict, rfl⟩ := Option.map_eq_some_iff.mp hput
      refine (h.evict hevict).add (RecentlyUsed.entry_eq_none_iff.mpr fun hmem => ?_) value
      exact RecentlyUsed.entry_eq_none_iff.mp hentry
        (((List.dropLast_sublist entries).map Prod.fst).subset hmem)
    · obtain rfl := Option.some.inj hput
      exact h.add hentry value

end Cache.Lists

/-- A new key in a full cache with one node: the head is freed and then used. -/
theorem linkedCachePut_eq_none {c : LinkedCache} {x : ℕ × (CacheKey × List UInt8)}
    (h : c.IsCache [x]) (hcapacity : c.kv.capacity = 1) {key : CacheKey} (hkey : key ≠ x.2.1)
    (value : List UInt8) : linkedCachePut c key value = none := by
  have hget : kvstoreGet c.kv key = none := by
    refine h.get_eq_none.mpr (RecentlyUsed.entry_eq_none_iff.mpr fun hmem => hkey ?_)
    exact List.mem_singleton.mp hmem
  have hhead : c.head = some x.1 := h.list.head_eq
  have htail : c.tail = some x.1 := h.list.tail_eq
  have hnode : c.memory x.1 = some ⟨x.2, none, none⟩ := h.list.linked.1
  have hne : x.1 ≠ c.allocated := (h.lt x List.mem_cons_self).ne
  have hdestroy : scacheDestroy c.memory (kvstoreFind c.kv x.2.1) =
      some (Function.update c.memory x.1 none) := by
    have hx := (h.get_iff x.2.1 x.1).mpr ⟨x.2.2, List.mem_cons_self⟩
    rw [kvstoreGet_eq_map, Option.map_eq_some_iff] at hx
    obtain ⟨⟨key', a⟩, hfind, rfl⟩ := hx
    rw [hfind, scacheDestroy, Memory.free, hnode]
    rfl
  have hevict : linkedCacheEvict c = some { c with
      memory := Function.update c.memory x.1 none
      tail := none
      size := c.size - 1
      kv := kvstoreDelete c.kv x.2.1 } := by
    rw [linkedCacheEvict, htail, Option.bind_some, hnode, Option.bind_some, hdestroy]
    rfl
  have hfull : c.kv.capacity ≤ c.size := (hcapacity.trans h.size_eq.symm).le
  rw [linkedCachePut]
  simp only [hget, if_pos hfull, hevict, Option.bind_some, linkedCacheAdd, linkedCacheNodeCreate,
    linkedCacheMoveToHead, hhead, if_neg hne, reduceCtorEq, if_false, Memory.write_same,
    Memory.modifyIf]
  rw [Memory.modify_of_eq (Memory.write_same ..), Option.bind_some, Memory.modify,
    Memory.write_of_ne _ _ hne, Memory.write_of_ne _ _ hne, Function.update_self]
  rfl

/-- **The bounded map after a history**: the run is defined and finds what the map says; the list
has the entries of the map, in the order of their last use, each key once, and the same nodes as the
table; and the size is their number, at most the capacity. -/
def KeepsLru (capacity : ℕ) (h : 0 < capacity)
    (history : List (RecentlyUsed.Op CacheKey (List UInt8))) : Prop :=
  ∃ c xs, exec linkedCacheStep (linkedScacheCreate capacity h) history =
      some (c, RecentlyUsed.replies capacity history) ∧
    IsList c.memory c.head c.tail xs ∧
    xs.map Prod.snd = RecentlyUsed.contents capacity history ∧
    RecentlyUsed.Ordered (RecentlyUsed.usedKeys capacity history) (xs.map Prod.snd) ∧
    ((xs.map Prod.snd).map Prod.fst).Nodup ∧
    (kvstoreEntries c.kv).Perm (xs.map fun x => (x.2.1, x.1)) ∧
    c.size = xs.length ∧ xs.length ≤ capacity

theorem keepsLru_of_room {capacity : ℕ} (h : 0 < capacity)
    {history : List (RecentlyUsed.Op CacheKey (List UInt8))}
    (hroom : 2 ≤ capacity ∨ OneKey history) : KeepsLru capacity h history := by
  obtain ⟨c, xs, hrun, hcache, -, hxs⟩ := exists_isCache h hroom
  refine ⟨c, xs, hrun, hcache.list, hxs, ?_, hcache.distinct, hcache.entries_perm,
    hcache.size_eq, ?_⟩
  · rw [hxs]
    exact RecentlyUsed.pairwise_contents history
  · rw [← List.length_map, hxs]
    exact RecentlyUsed.length_contents_le h history

/-- A cache for one node only ever gets one key. -/
theorem oneKey_of_exec {history : List (RecentlyUsed.Op CacheKey (List UInt8))}
    {c : LinkedCache} {replies : List (Option (List UInt8))}
    (hrun : exec linkedCacheStep (linkedScacheCreate 1 Nat.one_pos) history = some (c, replies)) :
    OneKey history := by
  induction history using List.reverseRecOn generalizing c replies with
  | nil => exact fun _ _ _ _ hput => absurd hput List.not_mem_nil
  | append_singleton history op ih =>
    obtain ⟨c₁, replies₁, reply, hrun₁, hstep, -⟩ := exec_concat_eq_some.mp hrun
    have hone := ih hrun₁
    obtain ⟨c₂, xs, hrun₂, hcache, hcapacity, hxs⟩ := exists_isCache Nat.one_pos (.inr hone)
    obtain rfl : c₂ = c₁ := congrArg Prod.fst (Option.some.inj (hrun₂.symm.trans hrun₁))
    have hlast : ∀ key value key' value', .put key value ∈ history → op = .put key' value' →
        key = key' := by
      rintro key value key' value' hput rfl
      obtain ⟨x, rfl⟩ : ∃ x, xs = [x] := by
        rw [← List.length_eq_one_iff]
        have hle := RecentlyUsed.length_contents_le Nat.one_pos history
        have hne : 0 < (RecentlyUsed.contents 1 history).length :=
          List.length_pos_iff.mpr (RecentlyUsed.contents_ne_nil hput)
        rw [← hxs, List.length_map] at hle hne
        omega
      have hmem : x.2 ∈ RecentlyUsed.contents 1 history := hxs ▸ List.mem_cons_self
      have hkey : key = x.2.1 := hone _ _ _ _ hput (RecentlyUsed.mem_contents hmem)
      by_contra hne
      rw [linkedCacheStep, linkedCachePut_eq_none hcache hcapacity
        (fun heq => hne (hkey.trans heq.symm))] at hstep
      cases hstep
    intro key value key' value' hput hput'
    rcases List.mem_append.mp hput with hput | hput <;>
      rcases List.mem_append.mp hput' with hput' | hput'
    · exact hone _ _ _ _ hput hput'
    · exact hlast _ _ _ _ hput (List.mem_singleton.mp hput').symm
    · exact (hlast _ _ _ _ hput' (List.mem_singleton.mp hput).symm).symm
    · have heq := (List.mem_singleton.mp hput).trans (List.mem_singleton.mp hput').symm
      exact (RecentlyUsed.Op.put.inj heq).1

/-- **Which histories keep a cache the bounded map**: all of them with room for two nodes, and those
with one key otherwise. -/
theorem keepsLru_iff {capacity : ℕ} (h : 0 < capacity)
    (history : List (RecentlyUsed.Op CacheKey (List UInt8))) :
    KeepsLru capacity h history ↔ 2 ≤ capacity ∨ OneKey history := by
  constructor
  · rintro ⟨c, xs, hrun, -⟩
    rcases Nat.lt_or_ge capacity 2 with hlt | htwo
    · obtain rfl : capacity = 1 := by omega
      exact .inr (oneKey_of_exec hrun)
    · exact .inl htwo
  · exact keepsLru_of_room h

/-- Two nodes: the second key is the one that was not used last when the third comes. -/
theorem keepsLru_two : KeepsLru 2 Nat.two_pos
    [.put (1, 0) [1], .put (2, 0) [2], .get (1, 0), .put (3, 0) [3], .get (2, 0)] :=
  (keepsLru_iff Nat.two_pos _).mpr (.inl le_rfl)

/-- A cache for one node, and two keys. -/
theorem not_keepsLru_one : ¬ KeepsLru 1 Nat.one_pos [.put (1, 0) [1], .put (2, 0) [2]] := by
  rintro ⟨c, xs, hrun, -⟩
  have hone := oneKey_of_exec hrun (1, 0) [1] (2, 0) [2] (by simp) (by simp)
  exact absurd (congrArg Prod.fst hone) (by decide)

end Racs
