import Mathlib.Algebra.Ring.Nat
import Mathlib.Data.List.Basic

/-!
# Arrays that double

An array is allocated in slots and has two counters, the number of elements and the number of slots
that it is taken to have. An element that is added to a full array first doubles the second counter,
and then reallocates the slots. If there is no memory, the counter stays doubled.

Counters are numbers below a limit. Behind the limit they wrap around, or the arithmetic is
undefined. The number of bytes of the slots is a 64-bit number.

## Main definitions

* `Growable.Realloc`, `Growable.reallocated` — a reallocation.
* `Growable.Counter`, `Growable.Slots` — counters and arrays.
* `Growable.reserve`, `Growable.store`, `Growable.add` — adding an element.
* `Growable.Holds` — the elements of an array whose second counter is right.

## Main results

* `Growable.Holds.add` — an element is added to an array that has room or can grow.
* `Growable.Holds.not_of_not_canGrow` — after any other add the counter is wrong.
-/

namespace Growable

variable {β : Type*}

/-! ### Reallocation -/

/-- What comes of a reallocation: nothing when it fails, and otherwise what is found in the new part
of the memory. -/
abbrev Realloc (β : Type*) := Option (ℕ → β)

/-- Memory that was reallocated to `n` elements. -/
def reallocated (data : List β) (fresh : ℕ → β) (n : ℕ) : List β :=
  data.take n ++ (List.range (n - data.length)).map fresh

@[simp] theorem length_reallocated (data : List β) (fresh : ℕ → β) (n : ℕ) :
    (reallocated data fresh n).length = n := by
  rw [reallocated, List.length_append, List.length_take, List.length_map, List.length_range]
  omega

theorem prefix_reallocated {data : List β} {fresh : ℕ → β} {n : ℕ} (h : data.length ≤ n) :
    data <+: reallocated data fresh n := by
  rw [reallocated, List.take_of_length_le h]
  exact List.prefix_append _ _

/-! ### Arrays -/

/-- The type of a counter: its numbers are below the limit, and it may wrap around. -/
structure Counter where
  limit : ℕ
  wraps : Bool

/-- The result of an operation, as a counter. -/
def Counter.eval (c : Counter) (n : ℕ) : Option ℕ :=
  if n < c.limit then some n else if c.wraps then some (n % c.limit) else none

theorem Counter.eval_of_lt {c : Counter} {n : ℕ} (h : n < c.limit) : c.eval n = some n := if_pos h

/-- An array: its memory, the number of elements and the number of slots that is recorded. -/
structure Slots (β : Type*) where
  slots : List β
  num : ℕ
  max : ℕ

/-- The size of a slot in bytes. -/
def slotSize : ℕ := 8

/-- Room for one element, and whether there is; `full` compares the counters. A reallocation to no
bytes is undefined. -/
def reserve (c : Counter) (full : ℕ → ℕ → Bool) (t : Slots β) (realloc : Realloc β) :
    Option (Slots β × Bool) :=
  if full t.num t.max then
    (c.eval (2 * t.max)).bind fun max =>
    let size := max * slotSize % 2 ^ 64
    if size = 0 then none
    else match realloc with
      | none => some ({ t with max := max }, false)
      | some fresh =>
        some ({ t with max := max, slots := reallocated t.slots fresh (size / slotSize) }, true)
  else some (t, true)

/-- An element is written behind the others; undefined behind the slots. -/
def store (c : Counter) (t : Slots β) (x : β) : Option (Slots β) :=
  if t.num < t.slots.length then
    (c.eval (t.num + 1)).map fun num => { t with slots := t.slots.set t.num x, num := num }
  else none

/-- An element is added, and whether it was. -/
def add (c : Counter) (full : ℕ → ℕ → Bool) (t : Slots β) (realloc : Realloc β) (x : β) :
    Option (Slots β × Bool) :=
  (reserve c full t realloc).bind fun (t, ok) =>
    if ok then (store c t x).map (·, true) else some (t, false)

/-- The array has as many slots as are recorded, and the first of them hold the elements `xs`. -/
structure Holds (c : Counter) (xs : List β) (t : Slots β) : Prop where
  max_eq : t.max = t.slots.length
  max_pos : 0 < t.max
  max_lt : t.max < c.limit
  num_eq : t.num = xs.length
  num_le : t.num ≤ t.max
  stored : t.slots.take t.num = xs

/-- A full array can be doubled. -/
structure CanGrow (c : Counter) (t : Slots β) (realloc : Realloc β) : Prop where
  isSome : realloc.isSome
  counter : 2 * t.max < c.limit
  bytes : 2 * t.max * slotSize < 2 ^ 64

/-! ### Adding an element -/

variable {c : Counter} {full : ℕ → ℕ → Bool} {t t' : Slots β} {xs : List β} {realloc : Realloc β}
  {x : β}

theorem Holds.store (h : Holds c xs t) (hroom : t.num < t.max) :
    ∃ t', store c t x = some t' ∧ Holds c (xs ++ [x]) t' := by
  have hlt : t.num < t.slots.length := h.max_eq ▸ hroom
  refine ⟨{ t with slots := t.slots.set t.num x, num := t.num + 1 }, ?_, ?_⟩
  · rw [Growable.store, if_pos hlt, Counter.eval_of_lt (Nat.lt_of_le_of_lt hroom h.max_lt),
      Option.map_some]
  · refine ⟨?_, h.max_pos, h.max_lt, ?_, hroom, ?_⟩
    · rw [List.length_set, h.max_eq]
    · rw [List.length_append, List.length_singleton, h.num_eq]
    · dsimp only
      rw [List.take_add_one, List.take_set_of_le (Nat.le_refl _), h.stored,
        List.getElem?_set_self hlt, Option.toList_some]

/-- An element is written into the slots that there are. -/
theorem of_store (h : store c t x = some t') :
    t.num < t.slots.length ∧ t'.max = t.max ∧ t'.slots.length = t.slots.length := by
  rw [Growable.store] at h
  split_ifs at h with hinside
  obtain ⟨num, -, rfl⟩ := Option.map_eq_some_iff.mp h
  exact ⟨hinside, rfl, List.length_set⟩

theorem Holds.reserve (h : Holds c xs t) (hfull : full t.num t.max ↔ t.num = t.max)
    (hgrow : t.num = t.max → CanGrow c t realloc) :
    ∃ t', reserve c full t realloc = some (t', true) ∧ Holds c xs t' ∧ t'.num < t'.max := by
  rw [Growable.reserve]
  have hpos := h.max_pos
  have hnum := h.num_le
  split_ifs with hcase
  · have hgrow := hgrow (hfull.mp hcase)
    obtain ⟨fresh, rfl⟩ := Option.isSome_iff_exists.mp hgrow.isSome
    have hslots : t.slots.length ≤ 2 * t.max := by
      rw [← h.max_eq]
      omega
    rw [Counter.eval_of_lt hgrow.counter, Option.bind_some]
    dsimp only
    rw [Nat.mod_eq_of_lt hgrow.bytes, if_neg (by rw [slotSize]; omega),
      Nat.mul_div_cancel _ (by decide)]
    refine ⟨_, rfl, ⟨(length_reallocated ..).symm, ?_, hgrow.counter, h.num_eq, ?_, ?_⟩, ?_⟩
    · dsimp only
      omega
    · dsimp only
      omega
    · dsimp only
      obtain ⟨rest, hrest⟩ := @prefix_reallocated _ t.slots fresh _ hslots
      rw [← hrest, List.take_append_of_le_length (h.max_eq ▸ h.num_le), h.stored]
    · dsimp only
      omega
  · have hne : t.num ≠ t.max := fun heq => hcase (hfull.mpr heq)
    exact ⟨t, rfl, h, by omega⟩

/-- **An element is added** to an array that has room or can grow. -/
theorem Holds.add (h : Holds c xs t) (hfull : full t.num t.max ↔ t.num = t.max)
    (hgrow : t.num = t.max → CanGrow c t realloc) :
    ∃ t', add c full t realloc x = some (t', true) ∧ Holds c (xs ++ [x]) t' := by
  obtain ⟨t₁, hreserve, h₁, hroom⟩ := h.reserve hfull hgrow
  obtain ⟨t', hstore, h'⟩ := h₁.store hroom
  refine ⟨t', ?_, h'⟩
  rw [Growable.add, hreserve, Option.bind_some]
  dsimp only
  rw [if_pos rfl, hstore, Option.map_some]

/-- A counter that is doubled below its limit, or becomes smaller. -/
theorem Counter.eval_double {n k : ℕ} (hn : n < c.limit) (h : c.eval (2 * n) = some k) :
    k = 2 * n ∧ 2 * n < c.limit ∨ k < n := by
  rw [Counter.eval] at h
  split_ifs at h with hlt hwraps
  · exact .inl ⟨(Option.some.inj h).symm, hlt⟩
  · obtain rfl := Option.some.inj h
    refine .inr ?_
    rw [Nat.mod_eq_sub_mod (Nat.not_lt.mp hlt), Nat.mod_eq_of_lt (by omega)]
    omega

/-- **A full array that cannot grow** has a wrong counter afterwards. -/
theorem Holds.not_of_not_canGrow (h : Holds c xs t) (hfull : full t.num t.max)
    (hnum : t.num = t.max) (hgrow : ¬ CanGrow c t realloc) {ok : Bool}
    (hadd : Growable.add c full t realloc x = some (t', ok)) (ys : List β) : ¬ Holds c ys t' := by
  intro h'
  have hpos := h.max_pos
  have hmax' := h'.max_eq
  obtain ⟨⟨t₁, ok₁⟩, hreserve, hstore⟩ := Option.bind_eq_some_iff.mp hadd
  rw [Growable.reserve, if_pos hfull] at hreserve
  obtain ⟨max, heval, hreserve⟩ := Option.bind_eq_some_iff.mp hreserve
  have hdouble := Counter.eval_double h.max_lt heval
  dsimp only at hreserve
  split_ifs at hreserve with hsize
  cases realloc with
  | none =>
    -- the counter was doubled, and the slots are those from before
    obtain ⟨rfl, rfl⟩ := Prod.mk.inj (Option.some.inj hreserve)
    obtain ⟨rfl, -⟩ := Prod.mk.inj (Option.some.inj hstore)
    dsimp only at hmax'
    rw [← h.max_eq] at hmax'
    omega
  | some fresh =>
    obtain ⟨rfl, rfl⟩ := Prod.mk.inj (Option.some.inj hreserve)
    dsimp only at hstore
    rw [if_pos rfl] at hstore
    obtain ⟨t₂, hstored, heq⟩ := Option.map_eq_some_iff.mp hstore
    obtain ⟨rfl, -⟩ := Prod.mk.inj heq
    obtain ⟨hinside, hmax, hslots⟩ := of_store hstored
    rw [hslots, hmax] at hmax'
    dsimp only at hmax' hinside
    rw [length_reallocated] at hmax' hinside
    rw [← hmax', hnum] at hinside
    rw [slotSize] at hmax'
    obtain ⟨rfl, hlimit⟩ := hdouble.resolve_right (by omega)
    exact hgrow ⟨rfl, hlimit, by rw [slotSize]; omega⟩

end Growable
