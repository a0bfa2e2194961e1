import Mathlib.Data.List.Basic
import Mathlib.Data.List.Nodup
import Mathlib.Logic.Function.Basic

/-!
# Doubly linked lists in memory

A memory holds nodes at addresses, each with a value and pointers to the next and the previous node.
`IsList` says that two pointers are the head and the tail of a list of such nodes. Changes of a few
pointers, as an imperative program makes them, are followed through `IsList`: linking a node in
front of the head, unlinking or freeing the tail, unlinking a node between two others, and changing
the value of the head.

## Main definitions

* `LinkedList.Node`, `LinkedList.Memory`, `LinkedList.Memory.modify`.
* `LinkedList.Linked` — a part of a list, between what is before it and what is behind it.
* `LinkedList.IsList` — a list with its head and its tail.

## Main results

* `LinkedList.linked_append` — two parts next to each other.
* `LinkedList.IsList.link`, `LinkedList.IsList.pushFront`, `LinkedList.IsList.unlink`,
  `LinkedList.IsList.bypass`, `LinkedList.IsList.freeTail`, `LinkedList.IsList.modifyHead`.
* `LinkedList.IsList.unique` — the pointers determine the list.
-/

namespace LinkedList

variable {α β : Type*}

/-- A node in memory. -/
structure Node (α β : Type*) where
  value : β
  next : Option α
  prev : Option α

/-- The nodes that are allocated. -/
abbrev Memory (α β : Type*) := α → Option (Node α β)

/-! ### Parts of a list -/

/-- The nodes `xs`, addresses with values, are linked to each other, the first one back to `before`
and the last one to `behind`. -/
def Linked (memory : Memory α β) (before behind : Option α) : List (α × β) → Prop
  | [] => True
  | x :: xs => memory x.1 = some ⟨x.2, (xs.head?.map Prod.fst).or behind, before⟩ ∧
      Linked memory (some x.1) behind xs

theorem linked_singleton (memory : Memory α β) (before behind : Option α) (x : α × β) :
    Linked memory before behind [x] ↔ memory x.1 = some ⟨x.2, behind, before⟩ :=
  ⟨And.left, fun h => ⟨h, trivial⟩⟩

/-- Two parts of a list next to each other. -/
theorem linked_append (memory : Memory α β) (before behind : Option α) (xs ys : List (α × β)) :
    Linked memory before behind (xs ++ ys) ↔
      Linked memory before ((ys.head?.map Prod.fst).or behind) xs ∧
        Linked memory ((xs.getLast?.map Prod.fst).or before) behind ys := by
  induction xs generalizing before with
  | nil => exact ⟨fun h => ⟨trivial, h⟩, And.right⟩
  | cons x xs ih =>
    have hhead : (((xs ++ ys).head?.map Prod.fst).or behind) =
        (xs.head?.map Prod.fst).or ((ys.head?.map Prod.fst).or behind) := by
      cases xs <;> rfl
    have hlast : ((x :: xs).getLast?.map Prod.fst).or before =
        (xs.getLast?.map Prod.fst).or (some x.1) := by
      cases xs with
      | nil => rfl
      | cons y ys => rw [List.getLast?_cons_cons, List.getLast?_cons]; rfl
    rw [List.cons_append, Linked, Linked, ih, hhead, hlast, and_assoc]

/-- A part only depends on its nodes. -/
theorem Linked.congr {memory memory' : Memory α β} {before behind : Option α} {xs : List (α × β)}
    (h : Linked memory before behind xs) (heq : ∀ x ∈ xs, memory' x.1 = memory x.1) :
    Linked memory' before behind xs := by
  induction xs generalizing before with
  | nil => trivial
  | cons x xs ih =>
    exact ⟨(heq x List.mem_cons_self).trans h.1,
      ih h.2 fun y hy => heq y (List.mem_cons_of_mem x hy)⟩

/-- The pointers determine a part that ends the list. -/
theorem Linked.unique {memory : Memory α β} {before before' : Option α} {xs ys : List (α × β)}
    (hxs : Linked memory before none xs) (hys : Linked memory before' none ys)
    (h : xs.head?.map Prod.fst = ys.head?.map Prod.fst) : xs = ys := by
  induction xs generalizing before before' ys with
  | nil =>
    cases ys with
    | nil => rfl
    | cons y ys => cases h
  | cons x xs ih =>
    cases ys with
    | nil => cases h
    | cons y ys =>
      have haddress : x.1 = y.1 := Option.some.inj h
      have hnode := hxs.1.symm.trans (haddress ▸ hys.1)
      simp only [Option.some.injEq, Node.mk.injEq, Option.or_none] at hnode
      rw [ih hxs.2 hys.2 hnode.2.1, Prod.ext haddress hnode.1]

/-! ### Lists -/

/-- The pointers `head` and `tail` are those of a list with the nodes `xs`. -/
structure IsList (memory : Memory α β) (head tail : Option α) (xs : List (α × β)) : Prop where
  head_eq : head = xs.head?.map Prod.fst
  tail_eq : tail = xs.getLast?.map Prod.fst
  linked : Linked memory none none xs
  nodup : (xs.map Prod.fst).Nodup

namespace IsList

variable {memory : Memory α β} {head tail : Option α} {xs ys : List (α × β)}

theorem nil (memory : Memory α β) : IsList memory none none [] :=
  ⟨rfl, rfl, trivial, List.nodup_nil⟩

/-- A list only depends on its nodes. -/
theorem congr {memory' : Memory α β} (h : IsList memory head tail xs)
    (heq : ∀ x ∈ xs, memory' x.1 = memory x.1) : IsList memory' head tail xs :=
  ⟨h.head_eq, h.tail_eq, h.linked.congr heq, h.nodup⟩

theorem unique (hxs : IsList memory head tail xs) (hys : IsList memory head tail ys) : xs = ys :=
  hxs.linked.unique hys.linked (hxs.head_eq.symm.trans hys.head_eq)

/-- The only node of a list. -/
theorem singleton {a : α} {v : β} (h : memory a = some ⟨v, none, none⟩) :
    IsList memory (some a) (some a) [(a, v)] :=
  ⟨rfl, rfl, (linked_singleton ..).mpr h, List.nodup_singleton a⟩

/-- The tail of a list is a node with the last value. -/
theorem tail_node (h : IsList memory head tail xs) (hxs : xs ≠ []) :
    ∃ node, tail.bind memory = some node ∧ xs.getLast?.map Prod.snd = some node.value := by
  obtain ⟨zs, x, rfl⟩ := (List.eq_nil_or_concat' xs).resolve_left hxs
  obtain ⟨-, hx, -⟩ := (linked_append memory none none zs [x]).mp h.linked
  exact ⟨_, by rw [h.tail_eq, List.getLast?_concat]; exact hx, by rw [List.getLast?_concat]; rfl⟩

end IsList

/-! ### Changes -/

variable [DecidableEq α]

/-- The memory with another node at an address. -/
def Memory.write (memory : Memory α β) (a : α) (node : Node α β) : Memory α β :=
  Function.update memory a (some node)

/-- Changes the node at an address; undefined when no node is there. -/
def Memory.modify (memory : Memory α β) (a : α) (f : Node α β → Node α β) :
    Option (Memory α β) :=
  (memory a).map fun node => memory.write a (f node)

/-- Frees the node at an address; undefined when no node is there. -/
def Memory.free (memory : Memory α β) (a : α) : Option (Memory α β) :=
  (memory a).map fun _ => Function.update memory a none

/-- Changes the node behind a pointer, unless it is null. -/
def Memory.modifyIf (memory : Memory α β) (pointer : Option α) (f : Node α β → Node α β) :
    Option (Memory α β) :=
  match pointer with
  | none => some memory
  | some a => memory.modify a f

@[simp]
theorem Memory.write_same (memory : Memory α β) (a : α) (node : Node α β) :
    memory.write a node a = some node := Function.update_self ..

theorem Memory.write_of_ne (memory : Memory α β) {a b : α} (node : Node α β) (h : b ≠ a) :
    memory.write a node b = memory b := Function.update_of_ne h ..

/-- Writing a node that is there changes nothing. -/
theorem Memory.write_eq_self {memory : Memory α β} {a : α} {node : Node α β}
    (h : memory a = some node) : memory.write a node = memory :=
  Function.update_eq_iff.mpr ⟨h.symm, fun _ _ => rfl⟩

theorem Memory.modify_of_eq {memory : Memory α β} {a : α} {node : Node α β}
    (h : memory a = some node) (f : Node α β → Node α β) :
    memory.modify a f = some (memory.write a (f node)) := by
  rw [modify, h, Option.map_some]

/-- A change of a node that is not in the part. -/
theorem Linked.write {memory : Memory α β} {before behind : Option α} {xs : List (α × β)}
    (h : Linked memory before behind xs) {a : α} (ha : a ∉ xs.map Prod.fst)
    (node : Node α β) : Linked (memory.write a node) before behind xs :=
  h.congr fun _ hx => memory.write_of_ne node fun heq => ha (heq ▸ List.mem_map_of_mem hx)

namespace IsList

variable {memory : Memory α β} {head tail : Option α} {xs : List (α × β)}

/-- A change of a node that is not in the list. -/
theorem write (h : IsList memory head tail xs) {a : α} (ha : a ∉ xs.map Prod.fst)
    (node : Node α β) : IsList (memory.write a node) head tail xs :=
  ⟨h.head_eq, h.tail_eq, h.linked.write ha node, h.nodup⟩

/-- A node is linked in front of the head: it points to the head, and the head back to it. -/
theorem link {x : α × β} (h : IsList memory head tail (x :: xs)) {a : α} {v : β}
    (hnode : memory a = some ⟨v, some x.1, none⟩) (ha : a ∉ (x :: xs).map Prod.fst) :
    ∃ memory', memory.modify x.1 (fun node => { node with prev := some a }) = some memory' ∧
      IsList memory' (some a) tail ((a, v) :: x :: xs) := by
  have hx : x.1 ∉ xs.map Prod.fst := (List.nodup_cons.mp h.nodup).1
  have hxa : a ≠ x.1 := fun hax => ha (hax ▸ List.mem_cons_self)
  refine ⟨_, Memory.modify_of_eq h.linked.1 _, rfl, ?_, ?_, ?_⟩
  · rw [h.tail_eq, List.getLast?_cons_cons]
  · refine ⟨?_, ?_, h.linked.2.write hx _⟩
    · rw [memory.write_of_ne _ hxa, hnode]
      rfl
    · exact memory.write_same _ _
  · exact List.nodup_cons.mpr ⟨ha, h.nodup⟩

/-- A node that is somewhere in memory becomes the head. -/
theorem pushFront {x : α × β} (h : IsList memory head tail (x :: xs)) {a : α} {node : Node α β}
    (hnode : memory a = some node) (ha : a ∉ (x :: xs).map Prod.fst) :
    ∃ memory₁ memory',
      memory.modify a (fun node => { node with prev := none, next := some x.1 }) = some memory₁ ∧
      memory₁.modify x.1 (fun node => { node with prev := some a }) = some memory' ∧
      IsList memory' (some a) tail ((a, node.value) :: x :: xs) := by
  obtain ⟨memory', hlink, hlist⟩ := (h.write ha _).link
    (memory.write_same a ⟨node.value, some x.1, none⟩) ha
  exact ⟨_, memory', Memory.modify_of_eq hnode _, hlink, hlist⟩

/-- The tail is unlinked: the node in front of it becomes the tail, and points to no other. -/
theorem unlink {x y : α × β} (h : IsList memory head tail (xs ++ [x, y])) :
    tail = some y.1 ∧ (∃ node, memory y.1 = some node ∧ node.prev = some x.1) ∧
      ∃ memory', memory.modify x.1 (fun node => { node with next := none }) = some memory' ∧
        IsList memory' head (some x.1) (xs ++ [x]) := by
  obtain ⟨hxs, hx, hy, -⟩ := (linked_append memory none none xs [x, y]).mp h.linked
  have hnodup : ((xs ++ [x]).map Prod.fst).Nodup := by
    refine List.Nodup.sublist (List.Sublist.map _ ?_) h.nodup
    exact List.Sublist.append_left (List.Sublist.cons_cons x (List.nil_sublist _)) xs
  have hnotin : x.1 ∉ xs.map Prod.fst := by
    rw [List.map_append, List.nodup_append] at hnodup
    exact fun hmem => hnodup.2.2 _ hmem _ List.mem_cons_self rfl
  refine ⟨?_, ⟨_, hy, rfl⟩, _, Memory.modify_of_eq hx _, ?_, ?_, ?_, hnodup⟩
  · rw [h.tail_eq]
    simp
  · rw [h.head_eq]
    cases xs <;> rfl
  · simp
  · refine (linked_append ..).mpr ⟨hxs.write hnotin _, (linked_singleton ..).mpr ?_⟩
    exact memory.write_same _ _

/-- A node between two others is unlinked: these point to each other. -/
theorem bypass {p x z : α × β} {ys zs : List (α × β)}
    (h : IsList memory head tail (ys ++ p :: x :: z :: zs)) :
    memory x.1 = some ⟨x.2, some z.1, some p.1⟩ ∧
      ∃ memory₁ memory', memory.modify p.1 (fun node => { node with next := some z.1 }) =
          some memory₁ ∧
        memory₁.modify z.1 (fun node => { node with prev := some p.1 }) = some memory' ∧
        memory' x.1 = memory x.1 ∧ IsList memory' head tail (ys ++ p :: z :: zs) := by
  obtain ⟨hys, hp, hx, hz, hzs⟩ := (linked_append memory none none ys _).mp h.linked
  have hnodup := h.nodup
  rw [List.map_append, List.nodup_append] at hnodup
  obtain ⟨-, hrest, hne⟩ := hnodup
  have hpne : p.1 ≠ x.1 ∧ p.1 ≠ z.1 ∧ p.1 ∉ zs.map Prod.fst := by
    simpa [List.nodup_cons] using (List.nodup_cons.mp hrest).1
  have hxne : x.1 ≠ z.1 := by
    have hx := (List.nodup_cons.mp (List.nodup_cons.mp hrest).2).1
    exact fun heq => hx (heq ▸ List.mem_cons_self)
  have hzne : z.1 ∉ zs.map Prod.fst :=
    (List.nodup_cons.mp (List.nodup_cons.mp (List.nodup_cons.mp hrest).2).2).1
  have hsub : (ys ++ p :: z :: zs).Sublist (ys ++ p :: x :: z :: zs) :=
    .append_left (.cons_cons p (List.sublist_cons_self x _)) ys
  have hpys : p.1 ∉ ys.map Prod.fst := fun hmem => hne _ hmem _ List.mem_cons_self rfl
  have hzys : z.1 ∉ ys.map Prod.fst := fun hmem => hne _ hmem z.1 (by simp) rfl
  let node : Node α β := ⟨p.2, some z.1, (ys.getLast?.map Prod.fst).or none⟩
  refine ⟨hx, memory.write p.1 node, (memory.write p.1 node).write z.1
    ⟨z.2, (zs.head?.map Prod.fst).or none, some p.1⟩, Memory.modify_of_eq hp _,
    ?_, ?_, ?_, ?_, ?_, ?_⟩
  · exact Memory.modify_of_eq ((memory.write_of_ne _ hpne.2.1.symm).trans hz) _
  · rw [Memory.write_of_ne _ _ hxne, memory.write_of_ne _ hpne.1.symm]
  · rw [h.head_eq]
    cases ys <;> rfl
  · rw [h.tail_eq]
    simp
  · refine (linked_append ..).mpr ⟨(hys.write hpys _).write hzys _, ?_, ?_, ?_⟩
    · rw [Memory.write_of_ne _ _ hpne.2.1, Memory.write_same]
      rfl
    · exact Memory.write_same ..
    · exact (hzs.write hpne.2.2 _).write hzne _
  · exact h.nodup.sublist (hsub.map _)

/-- The tail is freed, and the node in front of it becomes the tail. -/
theorem freeTail {x y : α × β} (h : IsList memory head tail (xs ++ [x, y])) :
    ∃ memory₁ memory', memory.free y.1 = some memory₁ ∧
      memory₁.modify x.1 (fun node => { node with next := none }) = some memory' ∧
      IsList memory' head (some x.1) (xs ++ [x]) := by
  obtain ⟨-, ⟨node, hy, -⟩, memory', hmodify, hlist⟩ := h.unlink
  have hyx : y.1 ∉ (xs ++ [x]).map Prod.fst := by
    have hnodup := h.nodup
    rw [List.append_cons, List.map_append, List.nodup_append] at hnodup
    exact fun hmem => hnodup.2.2 _ hmem _ List.mem_cons_self rfl
  have hne : y.1 ≠ x.1 := fun heq => hyx (heq ▸ List.mem_map_of_mem (by simp))
  obtain ⟨nodex, hx, rfl⟩ := Option.map_eq_some_iff.mp hmodify
  refine ⟨Function.update memory y.1 none, _, by rw [Memory.free, hy]; rfl,
    Memory.modify_of_eq ((Function.update_of_ne hne.symm ..).trans hx) _, ?_⟩
  rw [Memory.write, Function.update_comm hne]
  refine hlist.congr fun w hw => Function.update_of_ne (fun heq => hyx ?_) ..
  exact heq ▸ List.mem_map_of_mem hw

/-- The value of the head is changed. -/
theorem modifyHead {x : α × β} (h : IsList memory head tail (x :: xs)) (w : β) :
    ∃ node, memory x.1 = some node ∧ node.value = x.2 ∧
      IsList (memory.write x.1 { node with value := w }) head tail ((x.1, w) :: xs) := by
  have hx : x.1 ∉ xs.map Prod.fst := (List.nodup_cons.mp h.nodup).1
  refine ⟨_, h.linked.1, rfl, h.head_eq, ?_, ⟨memory.write_same _ _, h.linked.2.write hx _⟩,
    h.nodup⟩
  rw [h.tail_eq]
  cases xs with
  | nil => rfl
  | cons y ys => rfl

end IsList

end LinkedList
