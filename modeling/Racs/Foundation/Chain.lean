import Mathlib.Data.List.Basic
import Mathlib.Data.List.Nodup
import Mathlib.Data.List.Range
import Mathlib.Logic.Function.Basic

/-!
# Chains in memory

A memory holds cells at addresses, each with a value and a pointer to the next cell. `Segment` says
that the cells from one pointer to another are those of a list, and a chain is a segment that ends
with the null pointer. Changes of a pointer and freed cells are followed through segments.

## Main definitions

* `Chain.Cell`, `Chain.Memory`, `Chain.Memory.modify`, `Chain.Memory.free`.
* `Chain.Segment`, `Chain.IsChain`.

## Main results

* `Chain.segment_append` — two segments, one behind the other.
* `Chain.Segment.congr` — a segment only depends on its cells.
* `Chain.IsChain.unlink`, `Chain.IsChain.tail` — a cell behind another one, or the first one, is
  unlinked and freed.
-/

namespace Chain

variable {α β : Type*}

/-- A cell in memory. -/
structure Cell (α β : Type*) where
  value : β
  next : Option α

/-- The cells that are allocated. -/
abbrev Memory (α β : Type*) := α → Option (Cell α β)

/-- A cell has one next cell. -/
theorem Memory.next_unique {m : Memory α β} {a : α} {v v' : β} {n n' : Option α}
    (h : m a = some ⟨v, n⟩) (h' : m a = some ⟨v', n'⟩) : n = n' :=
  congrArg Cell.next (Option.some.inj (h.symm.trans h'))

/-- From the pointer `head` to the pointer `behind` there are the cells `xs`, addresses with
values. -/
def Segment (memory : Memory α β) (behind : Option α) : Option α → List (α × β) → Prop
  | head, [] => head = behind
  | head, x :: xs => head = some x.1 ∧
      ∃ next, memory x.1 = some ⟨x.2, next⟩ ∧ Segment memory behind next xs

/-- A segment up to the null pointer. -/
abbrev IsChain (memory : Memory α β) (head : Option α) (xs : List (α × β)) : Prop :=
  Segment memory none head xs

variable {memory memory' : Memory α β} {head behind : Option α} {xs ys : List (α × β)}

/-- Two segments, one behind the other. -/
theorem segment_append :
    Segment memory behind head (xs ++ ys) ↔
      ∃ between, Segment memory between head xs ∧ Segment memory behind between ys := by
  induction xs generalizing head with
  | nil => simp [Segment]
  | cons x xs ih =>
    simp only [List.cons_append, Segment, ih]
    constructor
    · rintro ⟨hhead, next, hx, between, hxs, hys⟩
      exact ⟨between, ⟨hhead, next, hx, hxs⟩, hys⟩
    · rintro ⟨between, ⟨hhead, next, hx, hxs⟩, hys⟩
      exact ⟨hhead, next, hx, between, hxs, hys⟩

/-- A segment only depends on its cells. -/
theorem Segment.congr (h : Segment memory behind head xs)
    (heq : ∀ x ∈ xs, memory' x.1 = memory x.1) : Segment memory' behind head xs := by
  induction xs generalizing head with
  | nil => exact h
  | cons x xs ih =>
    obtain ⟨hhead, next, hx, hxs⟩ := h
    refine ⟨hhead, next, (heq x List.mem_cons_self).trans hx, ih hxs fun y hy => ?_⟩
    exact heq y (List.mem_cons_of_mem x hy)

/-- A list of distinct numbers below a bound is not longer than the bound. -/
theorem length_le_of_nodup_of_lt {n : ℕ} {l : List ℕ} (hnodup : l.Nodup) (hlt : ∀ a ∈ l, a < n) :
    l.length ≤ n := by
  have hsub : l ⊆ List.range n := fun a ha => List.mem_range.mpr (hlt a ha)
  exact (hnodup.length_le_of_subset hsub).trans_eq List.length_range

/-! ### Changes -/

variable [DecidableEq α]

/-- The memory with another cell at an address. -/
def Memory.write (memory : Memory α β) (a : α) (cell : Cell α β) : Memory α β :=
  Function.update memory a (some cell)

/-- Changes the cell at an address; undefined when no cell is there. -/
def Memory.modify (memory : Memory α β) (a : α) (f : Cell α β → Cell α β) : Option (Memory α β) :=
  (memory a).map fun cell => memory.write a (f cell)

/-- Frees the cell at an address; undefined when no cell is there. -/
def Memory.free (memory : Memory α β) (a : α) : Option (Memory α β) :=
  (memory a).map fun _ => Function.update memory a none

@[simp]
theorem Memory.write_same (memory : Memory α β) (a : α) (cell : Cell α β) :
    memory.write a cell a = some cell := Function.update_self ..

theorem Memory.write_of_ne (memory : Memory α β) {a b : α} (cell : Cell α β) (h : b ≠ a) :
    memory.write a cell b = memory b := Function.update_of_ne h ..

/-- A new cell in front of a chain. -/
theorem IsChain.push (h : IsChain memory head xs) {a : α} (ha : a ∉ xs.map Prod.fst) (v : β) :
    IsChain (memory.write a ⟨v, head⟩) (some a) ((a, v) :: xs) := by
  refine ⟨rfl, head, memory.write_same .., h.congr fun x hx => memory.write_of_ne _ ?_⟩
  exact fun heq => ha (heq ▸ List.mem_map_of_mem hx)

/-- The first cell is unlinked and freed. -/
theorem IsChain.tail {x : α × β} (h : IsChain memory head (x :: xs))
    (hnodup : ((x :: xs).map Prod.fst).Nodup) :
    ∃ next memory', memory x.1 = some ⟨x.2, next⟩ ∧ memory.free x.1 = some memory' ∧
      (∀ a, a ≠ x.1 → memory' a = memory a) ∧ IsChain memory' next xs := by
  obtain ⟨-, next, hx, hxs⟩ := h
  refine ⟨next, _, hx, by rw [Memory.free, hx]; rfl, fun a ha => Function.update_of_ne ha .., ?_⟩
  refine hxs.congr fun y hy => Function.update_of_ne (fun heq => ?_) ..
  exact (List.nodup_cons.mp hnodup).1 (heq ▸ List.mem_map_of_mem hy)

/-- A cell behind another one is unlinked and freed. -/
theorem IsChain.unlink {x y : α × β} (h : IsChain memory head (xs ++ x :: y :: ys))
    (hnodup : ((xs ++ x :: y :: ys).map Prod.fst).Nodup) :
    ∃ next memory₁ memory', memory y.1 = some ⟨y.2, next⟩ ∧
      memory.modify x.1 (fun cell => { cell with next := next }) = some memory₁ ∧
      memory₁.free y.1 = some memory' ∧
      (∀ a, a ≠ x.1 → a ≠ y.1 → memory' a = memory a) ∧
      IsChain memory' head (xs ++ x :: ys) := by
  obtain ⟨between, hxs, hbetween, nextx, hx, -, next, hy, hys⟩ := segment_append.mp h
  rw [List.map_append, List.nodup_append] at hnodup
  obtain ⟨-, hnodup, hne⟩ := hnodup
  obtain ⟨hxnot, hnodup⟩ := List.nodup_cons.mp hnodup
  have hynot : y.1 ∉ ys.map Prod.fst := (List.nodup_cons.mp hnodup).1
  have hyx : y.1 ≠ x.1 := fun heq => hxnot (heq ▸ List.mem_cons_self)
  have hoff : ∀ a, a ≠ x.1 → a ≠ y.1 →
      Function.update (memory.write x.1 ⟨x.2, next⟩) y.1 none a = memory a := fun a hax hay =>
    (Function.update_of_ne hay ..).trans (memory.write_of_ne _ hax)
  refine ⟨next, memory.write x.1 ⟨x.2, next⟩,
    Function.update (memory.write x.1 ⟨x.2, next⟩) y.1 none, hy,
    by rw [Memory.modify, hx]; rfl, ?_, hoff, ?_⟩
  · rw [Memory.free, memory.write_of_ne _ hyx, hy]
    rfl
  · refine segment_append.mpr ⟨between, hxs.congr fun z hz => hoff _ ?_ ?_, hbetween, next, ?_, ?_⟩
    · exact hne _ (List.mem_map_of_mem hz) _ List.mem_cons_self
    · exact hne _ (List.mem_map_of_mem hz) _ (List.mem_cons_of_mem _ List.mem_cons_self)
    · rw [Function.update_of_ne hyx.symm, memory.write_same]
    · refine hys.congr fun z hz => hoff _ (fun heq => hxnot ?_) (fun heq => hynot ?_)
      · exact List.mem_cons_of_mem _ (heq ▸ List.mem_map_of_mem hz)
      · exact heq ▸ List.mem_map_of_mem hz

end Chain
