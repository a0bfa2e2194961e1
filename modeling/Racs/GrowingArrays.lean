import Racs.Foundation.Growable
import Racs.Foundation.PartialRun
import Racs.Exec

/-!
# Arrays of pointers that grow

Lists of files (`filelist.c`), lists of streams (`metadata.c`), the arguments of a command and the
commands of a plan (`exec.c`) are arrays of pointers that double when they are full. The counters of
the first two are `size_t`, those of the other two are `int`.

The functions that add to them double the number of slots before they reallocate the array, and
leave it doubled if there is no memory. The next element is then written behind the array.

## Main definitions

* `Racs.GrowingArray` — the four arrays, with the functions that create them and add to them.
* `Racs.GrowingArray.Survives` — an array holds what was added, whatever comes of `realloc`.

## Main results

* `Racs.GrowingArray.survives_iff` — the sequences of adds in which it does.
* `Racs.GrowingArray.commandAddArg_holds` — an argument is added to the list of arguments.
-/

namespace Racs

open Growable PartialRun

/-- `size_t`. -/
def sizeT : Counter := ⟨2 ^ 64, true⟩

/-- `int`, from zero on. -/
def intCounter : Counter := ⟨2 ^ 31, false⟩

/-- The arrays. -/
inductive GrowingArray
  | filelist
  | streams
  | args
  | plan
  deriving DecidableEq

namespace GrowingArray

variable {β : Type*}

/-! ### Creating an array -/

/-- An array for so many elements; `fresh` is what is found in its memory. -/
def create (fresh : ℕ → Option β) (max : ℕ) : Slots (Option β) := ⟨reallocated [] fresh max, 0, max⟩

/-- `racs_filelist_create`. -/
def filelistCreate (fresh : ℕ → Option β) : Slots (Option β) := create fresh 2

/-- `racs_streams_init`. -/
def streamsInit (fresh : ℕ → Option β) : Slots (Option β) := create fresh 2

/-- The array in `racs_command_create`. -/
def commandCreate (fresh : ℕ → Option β) : Slots (Option β) := create fresh 4

/-- `racs_exec_plan_init`. -/
def execPlanInit (fresh : ℕ → Option β) : Slots (Option β) := create fresh 4

/-! ### Adding a pointer -/

/-- The pointer that `strdup` returned is added, also if it is null. -/
def addCopy (t : Slots (Option β)) (realloc : Realloc (Option β)) (copy : Option β) :
    Option (Slots (Option β) × Bool) := add sizeT (fun num max => num == max) t realloc copy

/-- A pointer is added unless it is null. -/
def addPointer (t : Slots (Option β)) (realloc : Realloc (Option β)) (p : Option β) :
    Option (Slots (Option β) × Bool) :=
  match p with
  | none => some (t, false)
  | some x => add intCounter (fun num max => decide (num ≥ max)) t realloc (some x)

/-- `racs_filelist_add`. -/
def filelistAdd : Slots (Option β) → Realloc (Option β) → Option β →
    Option (Slots (Option β) × Bool) := addCopy

/-- `racs_streams_add`. -/
def streamsAdd : Slots (Option β) → Realloc (Option β) → Option β →
    Option (Slots (Option β) × Bool) := addCopy

/-- `racs_command_add_arg`. -/
def commandAddArg : Slots (Option β) → Realloc (Option β) → Option β →
    Option (Slots (Option β) × Bool) := addPointer

/-- `racs_exec_plan_add_command`. -/
def execPlanAddCommand : Slots (Option β) → Realloc (Option β) → Option β →
    Option (Slots (Option β) × Bool) := addPointer

/-- A call of one of these functions, with what comes of its `realloc`. -/
structure Call (β : Type*) where
  realloc : Realloc (Option β)
  pointer : Option β

/-- The type of the counters. -/
def counter : GrowingArray → Counter
  | filelist | streams => sizeT
  | args | plan => intCounter

/-- The array at the beginning. -/
def init (fresh : ℕ → Option β) : GrowingArray → Slots (Option β)
  | filelist => filelistCreate fresh
  | streams => streamsInit fresh
  | args => commandCreate fresh
  | plan => execPlanInit fresh

/-- One call, and whether it has added its pointer. -/
def call (a : GrowingArray) (t : Slots (Option β)) (w : Call β) :
    Option (Slots (Option β) × Bool) :=
  match a with
  | filelist => filelistAdd t w.realloc w.pointer
  | streams => streamsAdd t w.realloc w.pointer
  | args => commandAddArg t w.realloc w.pointer
  | plan => execPlanAddCommand t w.realloc w.pointer

/-- The pointers that were added. -/
def added (calls : List (Call β)) (oks : List Bool) : List (Option β) :=
  collect (fun w ok => if ok then [w.pointer] else []) calls oks

/-- After each call the array has as many slots as are recorded, with the pointers that were added;
a call that adds nothing changes nothing. -/
def Survives (a : GrowingArray) (fresh : ℕ → Option β) (calls : List (Call β)) : Prop :=
  Throughout a.call (fun past oks => Holds a.counter (added past oks)) (a.init fresh) calls ∧
    EveryStep a.call (fun t w => ∀ t', a.call t w = some (t', false) → t' = t) (a.init fresh) calls

/-- A call that adds its pointer, if there is memory. -/
def Adds (a : GrowingArray) (w : Call β) : Prop := w.pointer = none → a = filelist ∨ a = streams

/-- A call that finds the array full can double it. -/
def HasRoom (a : GrowingArray) (t : Slots (Option β)) (w : Call β) : Prop :=
  a.Adds w → t.num = t.max → CanGrow a.counter t w.realloc

/-! ### One call -/

variable {a : GrowingArray} {t t' : Slots (Option β)} {xs : List (Option β)} {w : Call β}

theorem call_of_not_adds (h : ¬ a.Adds w) : a.call t w = some (t, false) := by
  obtain ⟨hnull, hne⟩ := Classical.not_imp.mp h
  cases a with
  | filelist => exact absurd (.inl rfl) hne
  | streams => exact absurd (.inr rfl) hne
  | args =>
    rw [call, hnull]
    rfl
  | plan =>
    rw [call, hnull]
    rfl

/-- The comparison of the counters does not matter for an array with the right number of slots. -/
theorem call_of_adds (h : a.Adds w) : ∃ full : ℕ → ℕ → Bool,
    (∀ num max, num ≤ max → (full num max ↔ num = max)) ∧
      a.call t w = add a.counter full t w.realloc w.pointer := by
  have hequal : ∀ num max : ℕ, num ≤ max → ((num == max) = true ↔ num = max) :=
    fun num max _ => beq_iff_eq
  have hgreater : ∀ num max : ℕ, num ≤ max → (decide (num ≥ max) = true ↔ num = max) :=
    fun num max hle => by rw [decide_eq_true_iff]; omega
  cases a with
  | filelist => exact ⟨_, hequal, rfl⟩
  | streams => exact ⟨_, hequal, rfl⟩
  | args =>
    obtain ⟨x, hx⟩ := Option.ne_none_iff_exists'.mp fun hnull => by simpa using h hnull
    exact ⟨_, hgreater, by rw [call, hx]; rfl⟩
  | plan =>
    obtain ⟨x, hx⟩ := Option.ne_none_iff_exists'.mp fun hnull => by simpa using h hnull
    exact ⟨_, hgreater, by rw [call, hx]; rfl⟩

/-- A call that has room adds its pointer, or does nothing. -/
theorem call_of_hasRoom (h : Holds a.counter xs t) (hroom : a.HasRoom t w) :
    (∃ t', a.call t w = some (t', true) ∧ Holds a.counter (xs ++ [w.pointer]) t') ∨
      a.call t w = some (t, false) := by
  by_cases hadds : a.Adds w
  · obtain ⟨full, hfull, hcall⟩ := @call_of_adds _ a t w hadds
    rw [hcall]
    exact .inl (h.add (hfull _ _ h.num_le) (hroom hadds))
  · exact .inr (call_of_not_adds hadds)

/-- A call without room leaves a wrong number of slots. -/
theorem not_holds_of_not_hasRoom (h : Holds a.counter xs t) (hroom : ¬ a.HasRoom t w) {ok : Bool}
    (hcall : a.call t w = some (t', ok)) (ys : List (Option β)) : ¬ Holds a.counter ys t' := by
  obtain ⟨hadds, hnot⟩ := Classical.not_imp.mp hroom
  obtain ⟨hnum, hgrow⟩ := Classical.not_imp.mp hnot
  obtain ⟨full, hfull, hadd⟩ := @call_of_adds _ a t w hadds
  exact h.not_of_not_canGrow ((hfull _ _ h.num_le).mpr hnum) hnum hgrow (hadd ▸ hcall) ys

/-! ### Sequences of calls -/

theorem init_holds (a : GrowingArray) (fresh : ℕ → Option β) :
    Holds a.counter [] (a.init fresh) := by
  have hcreate {c : Counter} {max : ℕ} (hpos : 0 < max) (hlt : max < c.limit) :
      Holds c [] (create fresh max) :=
    ⟨(length_reallocated ..).symm, hpos, hlt, rfl, Nat.zero_le _, rfl⟩
  cases a <;> exact hcreate (by decide) (by decide)

/-- **The arrays that survive** are those that can be doubled each time they are full. -/
theorem survives_iff (a : GrowingArray) (fresh : ℕ → Option β) (calls : List (Call β)) :
    a.Survives fresh calls ↔ EveryStep a.call a.HasRoom (a.init fresh) calls := by
  have hholds : Throughout a.call (fun past oks => Holds a.counter (added past oks))
      (a.init fresh) calls ↔ EveryStep a.call a.HasRoom (a.init fresh) calls := by
    refine throughout_iff_everyStep ?_ ?_ (a.init_holds fresh) calls
    · intro past oks t w hlength h hroom
      rcases call_of_hasRoom h hroom with ⟨t', hcall, h'⟩ | hcall
      · exact ⟨t', true, hcall, by rwa [added, collect_concat hlength]⟩
      · refine ⟨t, false, hcall, ?_⟩
        rw [added, collect_concat hlength, if_neg Bool.false_ne_true, List.append_nil]
        exact h
    · exact fun past oks t w t' ok h hroom hcall => not_holds_of_not_hasRoom h hroom hcall _
  rw [Survives, hholds, and_iff_left_iff_imp]
  -- in front of each call the array holds what was added, so that only null pointers are left out
  intro hsteps before w after t oks hsplit hrun t' hcall
  obtain ⟨t₁, oks₁, hrun₁, h⟩ := hholds.mpr hsteps before (w :: after) hsplit
  obtain ⟨rfl, rfl⟩ := Prod.mk.inj (Option.some.inj (hrun₁.symm.trans hrun))
  rcases call_of_hasRoom h (hsteps before w after t₁ oks₁ hsplit hrun) with ⟨t₂, htrue, -⟩ | hsame
  · rw [hcall] at htrue
    cases htrue
  · rw [hcall] at hsame
    exact congrArg Prod.fst (Option.some.inj hsame)

/-- The third file is added when there is no memory. -/
theorem not_survives :
    ¬ ∀ (a : GrowingArray) (fresh : ℕ → Option (List UInt8)) (calls : List (Call (List UInt8))),
      a.Survives fresh calls := by
  intro h
  obtain ⟨hthroughout, -⟩ := h filelist (fun _ => none)
    [⟨none, some [0x61]⟩, ⟨none, some [0x62]⟩, ⟨none, some [0x63]⟩]
  obtain ⟨t, oks, hrun, hholds⟩ := hthroughout [_, _, _] [] rfl
  cases hrun
  exact absurd hholds.max_eq (by decide)

/-! ### Lists of arguments -/

variable {δ : Type}

/-- An argument that there is room for is the last one of the command. -/
theorem commandAddArg_holds {st : PlanState δ} {cmd : Command δ} {t : Slots (Option (CommandArg δ))}
    {w : Call (CommandArg δ)} {arg : CommandArg δ} (hcmd : st.cmd = some cmd)
    (h : Holds intCounter (cmd.args.map some) t) (harg : w.pointer = some arg)
    (hroom : args.HasRoom t w) :
    ∃ t' cmd', commandAddArg t w.realloc w.pointer = some (t', true) ∧
      (Racs.commandAddArg st arg).cmd = some cmd' ∧ Holds intCounter (cmd'.args.map some) t' := by
  have hadds : args.Adds w := fun hnull => by rw [harg] at hnull; cases hnull
  obtain ⟨full, hfull, hcall⟩ := @call_of_adds _ args t w hadds
  obtain ⟨t', hadd, h'⟩ := Holds.add (c := intCounter) h (hfull _ _ h.num_le) (hroom hadds)
  refine ⟨t', { cmd with args := cmd.args ++ [arg] }, hcall.trans hadd, ?_, ?_⟩
  · rw [Racs.commandAddArg, hcmd, Option.map_some]
  · rwa [List.map_append, List.map_singleton, ← harg]

end GrowingArray

end Racs
