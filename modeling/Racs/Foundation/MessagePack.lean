import Mathlib.Algebra.Ring.Nat
import Mathlib.Data.List.Basic

/-!
# Streams of MessagePack items

A MessagePack stream is a list of items: the header of an array, with the number of the elements
that follow, or a scalar. Arrays are not nested. The header of a binary holds the length in 32 bits,
so the header of a longer one does not announce all of its bytes, and the others stand in the stream
as they are.

## Main definitions

* `MessagePack.Item`, `MessagePack.binItems`.
* `MessagePack.unpackNext` — the object at the start of a stream.
* `MessagePack.OneObject` — a stream holds one object and nothing else.

## Main results

* `MessagePack.unpackNext_array`, `MessagePack.not_oneObject_append_array`.
-/

namespace MessagePack

variable {δ : Type*}

/-- An item of a stream, with floating-point numbers of the type `δ`. -/
inductive Item (δ : Type*)
  | array (n : ℕ)
  | str (s : List UInt8)
  | int (z : Int64)
  | float (x : δ)
  | bool (b : Bool)
  | bin (data : List UInt8)
  /-- Bytes that no header announces. -/
  | raw (data : List UInt8)
  deriving DecidableEq

/-- The item is an object by itself. -/
def Item.isScalar : Item δ → Bool
  | .array _ => false
  | .raw _ => false
  | _ => true

/-- The types that an unpacked integer, float or string can have. -/
inductive ObjectType
  | str
  | positiveInteger
  | negativeInteger
  | float64
  | other
  deriving DecidableEq

/-- The type of an unpacked item. -/
def Item.type : Item δ → ObjectType
  | .str _ => .str
  | .int z => if 0 ≤ z then .positiveInteger else .negativeInteger
  | .float _ => .float64
  | _ => .other

theorem Item.exists_str {i : Item δ} (h : i.type = .str) : ∃ s, i = .str s := by
  cases i
  case str s => exact ⟨s, rfl⟩
  all_goals (unfold type at h; grind)

theorem Item.exists_float {i : Item δ} (h : i.type = .float64) : ∃ x, i = .float x := by
  cases i
  case float x => exact ⟨x, rfl⟩
  all_goals (unfold type at h; grind)

theorem Item.exists_int {i : Item δ} (h : i.type = .positiveInteger ∨ i.type = .negativeInteger) :
    ∃ z, i = .int z := by
  cases i
  case int z => exact ⟨z, rfl⟩
  all_goals rcases h with h | h <;> cases h

/-- A packed binary. -/
def binItems (data : List UInt8) : List (Item δ) :=
  if data.length < 2 ^ 32 then [.bin data]
  else [.bin (data.take (data.length % 2 ^ 32)), .raw (data.drop (data.length % 2 ^ 32))]

/-- An unpacked object. -/
inductive Object (δ : Type*)
  | nil
  | scalar (i : Item δ)
  | array (items : List (Item δ))

/-- The object at the start of a stream, nil when no complete object is there. -/
def unpackNext : List (Item δ) → Object δ
  | [] => .nil
  | .array n :: rest => if n ≤ rest.length then .array (rest.take n) else .nil
  | i :: _ => .scalar i

/-- The stream is one object. -/
def OneObject : List (Item δ) → Prop
  | .array n :: items => items.length = n ∧ ∀ i ∈ items, i.isScalar = true
  | i :: items => i.isScalar = true ∧ items = []
  | [] => False

theorem oneObject_array {items : List (Item δ)} (h : ∀ i ∈ items, i.isScalar = true) :
    OneObject (.array items.length :: items) := ⟨rfl, h⟩

theorem unpackNext_array (items rest : List (Item δ)) :
    unpackNext (.array items.length :: (items ++ rest)) = .array items := by
  rw [unpackNext, if_pos (by simp), List.take_left]

/-- Behind the first item of an object there are only scalars. -/
theorem OneObject.isScalar_of_mem {i j : Item δ} {items : List (Item δ)}
    (h : OneObject (i :: items)) (hj : j ∈ items) : j.isScalar = true := by
  cases i
  case array n => exact h.2 j hj
  all_goals
    obtain ⟨-, rfl⟩ := h
    cases hj

/-- What stands in front of an array is not part of one object with it. -/
theorem not_oneObject_append_array {items : List (Item δ)} (h : items ≠ []) (n : ℕ)
    (rest : List (Item δ)) : ¬ OneObject (items ++ .array n :: rest) := by
  obtain ⟨i, items, rfl⟩ := List.exists_cons_of_ne_nil h
  intro hone
  have hmem : Item.array n ∈ items ++ .array n :: rest :=
    List.mem_append_right _ List.mem_cons_self
  exact absurd (hone.isScalar_of_mem hmem) Bool.false_ne_true

theorem binItems_of_lt {data : List UInt8} (h : data.length < 2 ^ 32) :
    (binItems data : List (Item δ)) = [.bin data] := if_pos h

/-- The items of a binary start with one, however long it is. -/
theorem exists_binItems (data : List UInt8) :
    ∃ data' rest, (binItems data : List (Item δ)) = .bin data' :: rest := by
  unfold binItems
  split_ifs
  · exact ⟨data, [], rfl⟩
  · exact ⟨_, _, rfl⟩

/-- A binary whose length does not fit into its header is not part of one object. -/
theorem not_oneObject_binItems {i j : Item δ} {data : List UInt8} (h : ¬ data.length < 2 ^ 32) :
    ¬ OneObject (i :: j :: binItems data) := by
  intro hone
  have hmem : Item.raw (data.drop (data.length % 2 ^ 32)) ∈ j :: binItems data := by
    rw [binItems, if_neg h]
    simp
  exact absurd (hone.isScalar_of_mem hmem) Bool.false_ne_true

end MessagePack
