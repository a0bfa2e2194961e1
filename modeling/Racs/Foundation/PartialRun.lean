import Mathlib.Data.List.Basic
import Mathlib.Data.List.Forall2
import Mathlib.Data.List.Induction

/-!
# Runs of a partial step function

A step function `step : σ → ι → Option (σ × ω)` takes a state and an input to a state and an
output, or is undefined. `exec step s is` runs it over a list of inputs and collects the outputs;
it is undefined as soon as one step is. A total step function is the case `some ∘ step`.

## Main definitions

* `PartialRun.exec` — the run of a step function over a list of inputs.
* `PartialRun.along` — a function of every input and those before it.
* `PartialRun.collect` — what is collected of every input and its output.
* `PartialRun.Throughout`, `PartialRun.EveryStep` — what is true in every state that a run reaches,
  and what is true of each of its inputs in the state in front of it.

## Main results

* `PartialRun.exec_append` — a run over `is ++ js` is a run over `is` followed by one over `js`.
* `PartialRun.exec_induction` — what the empty run satisfies and every step preserves, of the
  outputs so far and the state, holds at the end of every run.
* `PartialRun.throughout_iff_everyStep` — a property that is kept by the inputs with a condition,
  and lost by the others.
* `PartialRun.exec_rel` — runs of two step functions that go together.
* `PartialRun.foldlM_rel` — what a fold does to a state, compared with what it collects.
-/

namespace PartialRun

variable {σ ι ω : Type*}

/-- The state and the outputs after the inputs, in order; undefined as soon as a step is. -/
def exec (step : σ → ι → Option (σ × ω)) : σ → List ι → Option (σ × List ω)
  | s, [] => some (s, [])
  | s, i :: is => (step s i).bind fun r => (exec step r.1 is).map fun q => (q.1, r.2 :: q.2)

variable {step : σ → ι → Option (σ × ω)}

@[simp] theorem exec_nil (s : σ) : exec step s [] = some (s, []) := rfl

theorem exec_cons (s : σ) (i : ι) (is : List ι) :
    exec step s (i :: is) =
      (step s i).bind fun r => (exec step r.1 is).map fun q => (q.1, r.2 :: q.2) := rfl

/-- A function of every input and those before it. -/
def along (f : List ι → ι → ω) (past : List ι) : List ι → List ω
  | [] => []
  | i :: is => f past i :: along f (past ++ [i]) is

theorem along_concat (f : List ι → ι → ω) (past is : List ι) (i : ι) :
    along f past (is ++ [i]) = along f past is ++ [f (past ++ is) i] := by
  induction is generalizing past with
  | nil => rw [List.nil_append, along, along, along, List.append_nil, List.nil_append]
  | cons j is ih =>
    rw [List.cons_append, along, ih, along, List.append_assoc, List.singleton_append,
      List.cons_append]

/-- A run that is defined on `i :: is` takes the step `i` and then runs over `is`. -/
theorem exec_cons_eq_some {s t : σ} {i : ι} {is : List ι} {os : List ω} :
    exec step s (i :: is) = some (t, os) ↔
      ∃ s₁ o os', step s i = some (s₁, o) ∧ exec step s₁ is = some (t, os') ∧ os = o :: os' := by
  simp only [exec_cons, Option.bind_eq_some_iff, Option.map_eq_some_iff, Prod.exists, Prod.mk.injEq]
  constructor
  · rintro ⟨s₁, o, hstep, t', os', hrun, rfl, rfl⟩
    exact ⟨s₁, o, os', hstep, hrun, rfl⟩
  · rintro ⟨s₁, o, os', hstep, hrun, rfl⟩
    exact ⟨s₁, o, hstep, t, os', hrun, rfl, rfl⟩

/-- A run over `is ++ js` is a run over `is` followed by a run over `js`. -/
theorem exec_append_eq_some {s t : σ} {is js : List ι} {os : List ω} :
    exec step s (is ++ js) = some (t, os) ↔
      ∃ m os₁ os₂, exec step s is = some (m, os₁) ∧ exec step m js = some (t, os₂) ∧
        os = os₁ ++ os₂ := by
  induction is generalizing s os with
  | nil => simp
  | cons i is ih =>
    simp only [List.cons_append, exec_cons_eq_some, ih]
    constructor
    · rintro ⟨s₁, o, os', hstep, ⟨m, os₁, os₂, h₁, h₂, rfl⟩, rfl⟩
      exact ⟨m, o :: os₁, os₂, ⟨s₁, o, os₁, hstep, h₁, rfl⟩, h₂, rfl⟩
    · rintro ⟨m, os₁, os₂, ⟨s₁, o, os', hstep, h₁, rfl⟩, h₂, rfl⟩
      exact ⟨s₁, o, os' ++ os₂, hstep, ⟨m, os', os₂, h₁, h₂, rfl⟩, rfl⟩

/-- A run over `is ++ [i]` is a run over `is` and a step. -/
theorem exec_concat_eq_some {s t : σ} {is : List ι} {i : ι} {os : List ω} :
    exec step s (is ++ [i]) = some (t, os) ↔
      ∃ m os₁ o, exec step s is = some (m, os₁) ∧ step m i = some (t, o) ∧ os = os₁ ++ [o] := by
  simp only [exec_append_eq_some, exec_cons_eq_some, exec_nil, Option.some.injEq, Prod.mk.injEq]
  constructor
  · rintro ⟨m, os₁, _, hrun, ⟨_, o, _, hstep, ⟨rfl, rfl⟩, rfl⟩, rfl⟩
    exact ⟨m, os₁, o, hrun, hstep, rfl⟩
  · rintro ⟨m, os₁, o, hrun, hstep, rfl⟩
    exact ⟨m, os₁, [o], hrun, ⟨t, o, [], hstep, ⟨rfl, rfl⟩, rfl⟩, rfl⟩

/-- A run whose outputs are `os₁ ++ os₂` is a run with the outputs `os₁`, followed by one with the
outputs `os₂`. -/
theorem exec_of_outputs_append {s t : σ} {is : List ι} {os₁ os₂ : List ω}
    (h : exec step s is = some (t, os₁ ++ os₂)) :
    ∃ is₁ is₂ m, is = is₁ ++ is₂ ∧ exec step s is₁ = some (m, os₁) ∧
      exec step m is₂ = some (t, os₂) := by
  induction os₁ generalizing s is with
  | nil => exact ⟨[], is, s, rfl, rfl, h⟩
  | cons o os₁ ih =>
    cases is with
    | nil => simp at h
    | cons i is =>
      obtain ⟨s₁, o', os', hstep, hrun, heq⟩ := exec_cons_eq_some.mp h
      obtain ⟨rfl, rfl⟩ := List.cons.inj heq
      obtain ⟨is₁, is₂, m, rfl, h₁, h₂⟩ := ih hrun
      exact ⟨i :: is₁, is₂, m, rfl, exec_cons_eq_some.mpr ⟨s₁, o, os₁, hstep, h₁, rfl⟩, h₂⟩

/-- What is collected of every input and its output. -/
def collect {β : Type*} (f : ι → ω → List β) (is : List ι) (os : List ω) : List β :=
  (is.zip os).flatMap fun p => f p.1 p.2

theorem collect_concat {β : Type*} {f : ι → ω → List β} {is : List ι} {os : List ω}
    (h : os.length = is.length) (i : ι) (o : ω) :
    collect f (is ++ [i]) (os ++ [o]) = collect f is os ++ f i o := by
  rw [collect, collect, List.zip_append h.symm, List.flatMap_append]
  exact congrArg (_ ++ ·) (List.append_nil _)

/-- The first output of a run with a property `p`: no output before it has the property. -/
theorem exec_exists_first {p : ω → Prop} {s t : σ} {is : List ι} {os : List ω}
    (h : exec step s is = some (t, os)) (hp : ∃ o ∈ os, p o) :
    ∃ before i after m os₁ m' o, is = before ++ i :: after ∧
      exec step s before = some (m, os₁) ∧ (∀ o' ∈ os₁, ¬ p o') ∧ step m i = some (m', o) ∧
      p o := by
  classical
  induction is generalizing s os with
  | nil =>
    obtain ⟨-, rfl⟩ : s = t ∧ [] = os := by simpa using h
    obtain ⟨o, ho, -⟩ := hp
    cases ho
  | cons i is ih =>
    obtain ⟨s₁, o, os', hstep, hrun, rfl⟩ := exec_cons_eq_some.mp h
    by_cases ho : p o
    · exact ⟨[], i, is, s, [], s₁, o, rfl, rfl, fun _ h => absurd h List.not_mem_nil, hstep, ho⟩
    · have hp' : ∃ o' ∈ os', p o' := by
        obtain ⟨o', ho', hpo'⟩ := hp
        rcases List.mem_cons.mp ho' with rfl | hmem
        · exact absurd hpo' ho
        · exact ⟨o', hmem, hpo'⟩
      obtain ⟨before, j, after, m, os₁, m', o', rfl, hbefore, hnone, hj, hpo⟩ := ih hrun hp'
      refine ⟨i :: before, j, after, m, o :: os₁, m', o', rfl,
        exec_cons_eq_some.mpr ⟨s₁, o, os₁, hstep, hbefore, rfl⟩, ?_, hj, hpo⟩
      exact List.forall_mem_cons.mpr ⟨ho, hnone⟩

/-- A run outputs one value for every input. -/
theorem length_outputs {s t : σ} {is : List ι} {os : List ω}
    (h : exec step s is = some (t, os)) : os.length = is.length := by
  induction is generalizing s os with
  | nil => simp_all
  | cons i is ih =>
    obtain ⟨s₁, o, os', -, hrun, rfl⟩ := exec_cons_eq_some.mp h
    simp only [List.length_cons, ih hrun]

/-- **The run rule.** If `P` holds of the outputs `os₀` and the state `s`, and every step
preserves it, then it holds at the end of every run from `s`. -/
theorem exec_induction_from {P : List ω → σ → Prop}
    (hstep : ∀ os s i s' o, P os s → step s i = some (s', o) → P (os ++ [o]) s')
    {s t : σ} {os₀ os : List ω} (h₀ : P os₀ s) {is : List ι}
    (h : exec step s is = some (t, os)) : P (os₀ ++ os) t := by
  induction is generalizing s os₀ os with
  | nil =>
    obtain ⟨rfl, rfl⟩ : s = t ∧ [] = os := by simpa using h
    simpa using h₀
  | cons i is ih =>
    obtain ⟨s₁, o, os', hs, hrun, rfl⟩ := exec_cons_eq_some.mp h
    simpa using ih (hstep os₀ s i s₁ o h₀ hs) hrun

/-- The run rule from the empty list of outputs. -/
theorem exec_induction {P : List ω → σ → Prop}
    (hstep : ∀ os s i s' o, P os s → step s i = some (s', o) → P (os ++ [o]) s')
    {s t : σ} {os : List ω} (h₀ : P [] s) {is : List ι}
    (h : exec step s is = some (t, os)) : P os t := by
  simpa using exec_induction_from hstep h₀ h

/-- The run is defined, and in every state that it reaches the property is true of the inputs so
far, the outputs so far and the state. -/
def Throughout (step : σ → ι → Option (σ × ω)) (P : List ι → List ω → σ → Prop) (s : σ)
    (is : List ι) : Prop :=
  ∀ before after, is = before ++ after → ∃ t os, exec step s before = some (t, os) ∧ P before os t

/-- The condition is true of every input in the state in front of it. -/
def EveryStep (step : σ → ι → Option (σ × ω)) (C : σ → ι → Prop) (s : σ) (is : List ι) : Prop :=
  ∀ before i after t os, is = before ++ i :: after → exec step s before = some (t, os) → C t i

/-- **A property that the inputs with a condition keep, and the others lose**, is true throughout a
run exactly if the condition is true of every input. -/
theorem throughout_iff_everyStep {P : List ι → List ω → σ → Prop} {C : σ → ι → Prop}
    (hkeep : ∀ past os s i, os.length = past.length → P past os s → C s i →
      ∃ s' o, step s i = some (s', o) ∧ P (past ++ [i]) (os ++ [o]) s')
    (hlose : ∀ past os s i s' o, P past os s → ¬ C s i → step s i = some (s', o) →
      ¬ P (past ++ [i]) (os ++ [o]) s')
    {s : σ} (h₀ : P [] [] s) (is : List ι) :
    Throughout step P s is ↔ EveryStep step C s is := by
  constructor
  · rintro h before i after t os rfl hrun
    obtain ⟨t₁, os₁, hrun₁, hP⟩ := h before (i :: after) rfl
    obtain ⟨rfl, rfl⟩ := Prod.mk.inj (Option.some.inj (hrun₁.symm.trans hrun))
    obtain ⟨t', os', hrun', hP'⟩ := h (before ++ [i]) after (by simp)
    obtain ⟨m, os₂, o, hrun₂, hstep, rfl⟩ := exec_concat_eq_some.mp hrun'
    obtain ⟨rfl, rfl⟩ := Prod.mk.inj (Option.some.inj (hrun₁.symm.trans hrun₂))
    by_contra hC
    exact hlose before os₁ t₁ i t' o hP hC hstep hP'
  · rintro h before
    induction before using List.reverseRecOn with
    | nil => exact fun _ _ => ⟨s, [], rfl, h₀⟩
    | append_singleton before i ih =>
      rintro after rfl
      obtain ⟨t, os, hrun, hP⟩ := ih (i :: after) (by simp)
      obtain ⟨t', o, hstep, hP'⟩ := hkeep before os t i (length_outputs hrun) hP
        (h before i after t os (by simp) hrun)
      exact ⟨t', os ++ [o], exec_concat_eq_some.mpr ⟨t, os, o, hrun, hstep, rfl⟩, hP'⟩

/-- The same for the states that a run reaches which may become undefined. -/
theorem reached_iff_everyStep {P : σ → Prop} {C : σ → ι → Prop}
    (hkeep : ∀ s i s' o, P s → C s i → step s i = some (s', o) → P s')
    (hlose : ∀ s i s' o, P s → ¬ C s i → step s i = some (s', o) → ¬ P s')
    {s : σ} (h₀ : P s) (is : List ι) :
    (∀ before after t os, is = before ++ after → exec step s before = some (t, os) → P t) ↔
      EveryStep step (fun t i => (step t i).isSome → C t i) s is := by
  constructor
  · rintro h before i after t os rfl hrun hsome
    obtain ⟨⟨t', o⟩, hstep⟩ := Option.isSome_iff_exists.mp hsome
    by_contra hC
    refine hlose t i t' o (h before (i :: after) t os rfl hrun) hC hstep ?_
    exact h (before ++ [i]) after t' (os ++ [o]) (by simp)
      (exec_concat_eq_some.mpr ⟨t, os, o, hrun, hstep, rfl⟩)
  · rintro h before
    induction before using List.reverseRecOn with
    | nil =>
      rintro after t os - hrun
      obtain ⟨rfl, -⟩ : s = t ∧ [] = os := by simpa using hrun
      exact h₀
    | append_singleton before i ih =>
      rintro after t os rfl hrun
      obtain ⟨m, os₁, o, hrun₁, hstep, rfl⟩ := exec_concat_eq_some.mp hrun
      have hC := h before i after m os₁ (by simp) hrun₁ (Option.isSome_iff_exists.mpr ⟨_, hstep⟩)
      exact hkeep m i t o (ih (i :: after) m os₁ (by simp) hrun₁) hC hstep

/-- A run in which every step is defined on the states with `P`, keeps `P`, and has an output that
depends on the input alone. -/
theorem exec_map {P : σ → Prop} {f : ι → ω} {is : List ι}
    (hstep : ∀ s, ∀ i ∈ is, P s → ∃ s', step s i = some (s', f i) ∧ P s') {s : σ} (h : P s) :
    ∃ t, exec step s is = some (t, is.map f) ∧ P t := by
  induction is generalizing s with
  | nil => exact ⟨s, rfl, h⟩
  | cons i is ih =>
    obtain ⟨s₁, hs₁, h₁⟩ := hstep s i List.mem_cons_self h
    obtain ⟨t, hrun, ht⟩ := ih (fun s j hj => hstep s j (List.mem_cons_of_mem _ hj)) h₁
    exact ⟨t, exec_cons_eq_some.mpr ⟨s₁, f i, is.map f, hs₁, hrun, rfl⟩, ht⟩

/-- What is true of the input and the output of every step is true of those of a run. -/
theorem exec_forall₂ {P : σ → Prop} {R : ι → ω → Prop} {is : List ι}
    (hstep : ∀ s, ∀ i ∈ is, ∀ s' o, P s → step s i = some (s', o) → P s' ∧ R i o)
    {s t : σ} {os : List ω} (h : P s) (hrun : exec step s is = some (t, os)) :
    P t ∧ List.Forall₂ R is os := by
  induction is generalizing s os with
  | nil =>
    obtain ⟨rfl, rfl⟩ : s = t ∧ [] = os := by simpa using hrun
    exact ⟨h, .nil⟩
  | cons i is ih =>
    obtain ⟨s₁, o, os', hi, hrest, rfl⟩ := exec_cons_eq_some.mp hrun
    obtain ⟨h₁, ho⟩ := hstep s i List.mem_cons_self s₁ o h hi
    obtain ⟨ht, hos⟩ := ih (fun s j hj => hstep s j (List.mem_cons_of_mem _ hj)) h₁ hrest
    exact ⟨ht, .cons ho hos⟩

/-- What is true of the input and the output of every step that meets a condition is true of those
of a run all of whose steps meet it. -/
theorem exec_forall₂_of {P : σ → Prop} {C R : ι → ω → Prop}
    (hstep : ∀ s i s' o, P s → step s i = some (s', o) → C i o → P s' ∧ R i o)
    {s t : σ} {is : List ι} {os : List ω} (h : P s) (hrun : exec step s is = some (t, os))
    (hC : List.Forall₂ C is os) : P t ∧ List.Forall₂ R is os := by
  induction hC generalizing s with
  | nil =>
    obtain rfl : s = t := by simpa using hrun
    exact ⟨h, .nil⟩
  | cons hc _ ih =>
    obtain ⟨s₁, o, os', hi, hrest, heq⟩ := exec_cons_eq_some.mp hrun
    obtain ⟨rfl, rfl⟩ := List.cons.inj heq
    obtain ⟨h₁, ho⟩ := hstep s _ s₁ _ h hi hc
    obtain ⟨ht, hos⟩ := ih h₁ hrest
    exact ⟨ht, .cons ho hos⟩

/-- A run that stays in one state until a step is undefined. -/
theorem exec_eq_none {s : σ} {is : List ι}
    (hstep : ∀ i ∈ is, step s i = none ∨ ∃ o, step s i = some (s, o))
    (h : ∃ i ∈ is, step s i = none) : exec step s is = none := by
  induction is with
  | nil =>
    obtain ⟨i, hi, -⟩ := h
    cases hi
  | cons i is ih =>
    rw [exec_cons]
    rcases hstep i List.mem_cons_self with hnone | ⟨o, hsome⟩
    · rw [hnone]
      rfl
    · obtain ⟨j, hj, hnone⟩ := h
      have hj' : j ∈ is := by
        rcases List.mem_cons.mp hj with rfl | hj
        · rw [hnone] at hsome
          cases hsome
        · exact hj
      rw [hsome, Option.bind_some,
        ih (fun k hk => hstep k (List.mem_cons_of_mem _ hk)) ⟨j, hj', hnone⟩]
      rfl

/-- **A step that leaves the state as it is** can be left out of a run: the run without it ends in
the same state, and lacks its output only. -/
theorem exec_insert {s m : σ} {is js : List ι} {i : ι} {os : List ω} {o : ω}
    (hbefore : exec step s is = some (m, os)) (hi : step m i = some (m, o)) :
    exec step s (is ++ i :: js) =
      (exec step s (is ++ js)).map (Prod.map id (·.insertIdx is.length o)) := by
  induction is generalizing s os with
  | nil =>
    obtain ⟨rfl, -⟩ : s = m ∧ [] = os := by simpa using hbefore
    rw [List.nil_append, exec_cons, hi]
    rfl
  | cons j is ih =>
    obtain ⟨s₁, o₁, os₁, hj, hrun, rfl⟩ := exec_cons_eq_some.mp hbefore
    rw [List.cons_append, List.cons_append, exec_cons, exec_cons, hj, Option.bind_some,
      Option.bind_some, ih hrun, Option.map_map, Option.map_map]
    rfl

/-! ### Folds that collect -/

/-- Related computations stay related under related continuations. -/
theorem rel_bind {α β γ δ : Type*} {R : α → β → Prop} {S : γ → δ → Prop} {x : Option α}
    {y : Option β} {f : α → Option γ} {g : β → Option δ} (h : Option.Rel R x y)
    (hfg : ∀ a b, R a b → Option.Rel S (f a) (g b)) : Option.Rel S (x.bind f) (y.bind g) := by
  cases h with
  | some hab => exact hfg _ _ hab
  | none => exact .none

theorem exists_of_rel_some_left {α β : Type*} {R : α → β → Prop} {a : α} {y : Option β}
    (h : Option.Rel R (some a) y) : ∃ b, y = some b ∧ R a b := by
  cases h with
  | some hab => exact ⟨_, rfl, hab⟩

theorem exists_of_rel_some_right {α β : Type*} {R : α → β → Prop} {x : Option α} {b : β}
    (h : Option.Rel R x (some b)) : ∃ a, x = some a ∧ R a b := by
  cases h with
  | some hab => exact ⟨_, rfl, hab⟩

theorem rel_map_right {α β γ : Type*} {R : α → γ → Prop} {x : Option α} {y : Option β} {g : β → γ}
    (h : Option.Rel (fun a b => R a (g b)) x y) : Option.Rel R x (y.map g) := by
  cases h with
  | some hab => exact .some hab
  | none => exact .none

theorem rel_mono {α β : Type*} {R S : α → β → Prop} {x : Option α} {y : Option β}
    (h : Option.Rel R x y) (hRS : ∀ a b, R a b → S a b) : Option.Rel S x y := by
  cases h with
  | some hab => exact .some (hRS _ _ hab)
  | none => exact .none

theorem rel_and_right {α β : Type*} {R : α → β → Prop} {p : β → Prop} {x : Option α}
    {y : Option β} (h : Option.Rel R x y) (hp : ∀ b, y = some b → p b) :
    Option.Rel (fun a b => R a b ∧ p b) x y := by
  cases h with
  | some hab => exact .some ⟨hab, hp _ rfl⟩
  | none => exact .none

/-- **The simulation rule.** If the steps of two step functions, from related states on the same
input, lead to related states with the same output, and are undefined together, then so are their
runs. -/
theorem exec_rel {τ : Type*} (R : σ → τ → Prop) {step' : τ → ι → Option (τ × ω)}
    (hstep : ∀ s t i, R s t →
      Option.Rel (fun p q => R p.1 q.1 ∧ p.2 = q.2) (step s i) (step' t i))
    {s : σ} {t : τ} (h : R s t) (is : List ι) :
    Option.Rel (fun p q => R p.1 q.1 ∧ p.2 = q.2) (exec step s is) (exec step' t is) := by
  induction is generalizing s t with
  | nil => exact .some ⟨h, rfl⟩
  | cons i is ih =>
    rw [exec_cons, exec_cons]
    refine rel_bind (hstep s t i h) ?_
    rintro ⟨s₁, o⟩ ⟨t₁, o'⟩ ⟨h₁, ho⟩
    obtain rfl : o = o' := ho
    have hrun := ih h₁
    generalize exec step s₁ is = x at hrun ⊢
    generalize exec step' t₁ is = y at hrun ⊢
    cases hrun with
    | some hrel => exact .some ⟨hrel.1, congrArg (o :: ·) hrel.2⟩
    | none => exact .none

variable {α β : Type*}

/-- Computing a list of values, one for each element. -/
theorem mapM_eq_some_iff {f : α → Option β} {as : List α} {bs : List β} :
    as.mapM f = some bs ↔ List.Forall₂ (fun a b => f a = some b) as bs := by
  induction as generalizing bs with
  | nil => simp [eq_comm]
  | cons a as ih =>
    simp only [List.mapM_cons, Option.bind_eq_bind, Option.bind_eq_some_iff, Option.pure_def,
      Option.some.injEq, List.forall₂_cons_left_iff]
    constructor
    · rintro ⟨b, hb, bs, hbs, rfl⟩
      exact ⟨b, bs, hb, ih.mp hbs, rfl⟩
    · rintro ⟨b, bs, hb, hbs, rfl⟩
      exact ⟨b, hb, bs, ih.mpr hbs, rfl⟩

/-- Computing a list of values succeeds if every value can be computed. -/
theorem isSome_mapM {f : α → Option β} {as : List α} :
    (as.mapM f).isSome = true ↔ ∀ a ∈ as, (f a).isSome = true := by
  induction as with
  | nil => simp
  | cons a as ih =>
    rw [List.mapM_cons, List.forall_mem_cons, ← ih]
    cases f a with
    | none => simp
    | some b => cases as.mapM f <;> simp

/-- A fold whose steps read a value and use it first reads all values, then uses them. -/
theorem foldlM_map_eq {g : α → Option β} {h : σ → β → σ} (as : List α) (s : σ) :
    as.foldlM (fun s a => (g a).map (h s)) s = (as.mapM g).map fun bs => bs.foldl h s := by
  induction as generalizing s with
  | nil => rfl
  | cons a as ih =>
    rw [List.foldlM_cons, List.mapM_cons]
    cases g a with
    | none => rfl
    | some b =>
      have hrest := ih (h s b)
      cases hbs : as.mapM g with
      | none => rwa [hbs] at hrest
      | some bs => rwa [hbs] at hrest

/-- A fold whose steps are all defined. -/
theorem foldlM_eq_foldl {f : σ → α → Option σ} {g : σ → α → σ} {as : List α}
    (h : ∀ a ∈ as, ∀ s, f s a = some (g s a)) (s : σ) : as.foldlM f s = some (as.foldl g s) := by
  induction as generalizing s with
  | nil => rfl
  | cons a as ih =>
    rw [List.foldlM_cons, h a List.mem_cons_self]
    exact ih (fun b hb => h b (List.mem_cons_of_mem _ hb)) _

/-- A fold that stays in one state. -/
theorem foldlM_eq_self {f : σ → α → Option σ} {as : List α} {s : σ}
    (h : ∀ a ∈ as, f s a = some s) : as.foldlM f s = some s := by
  induction as with
  | nil => rfl
  | cons a as ih =>
    rw [List.foldlM_cons, h a List.mem_cons_self]
    exact ih fun b hb => h b (List.mem_cons_of_mem _ hb)

/-- A fold is undefined if one of its steps is undefined in every state. -/
theorem foldlM_eq_none {f : σ → α → Option σ} {as : List α} {a : α} (ha : a ∈ as)
    (hnone : ∀ s, f s a = none) (s : σ) : as.foldlM f s = none := by
  induction as generalizing s with
  | nil => cases ha
  | cons b as ih =>
    rw [List.foldlM_cons]
    rcases List.mem_cons.mp ha with rfl | ha
    · rw [hnone]
      rfl
    · cases f s b with
      | none => rfl
      | some s' => exact ih ha s'

/-- **The fold rule.** If `R as s bs` relates the state `s` before the inputs `as` to what was
collected so far, and a step of the fold on `a` does to the state what collecting `g a` does to the
list, then the fold ends related to all that was collected, and is undefined where `g` is. -/
theorem foldlM_rel {R : List α → σ → List β → Prop} {f : σ → α → Option σ}
    {g : α → Option (List β)}
    (hstep : ∀ a as s bs, R (a :: as) s bs →
      Option.Rel (fun s' b => R as s' (bs ++ b)) (f s a) (g a))
    {as : List α} {s : σ} {bs : List β} (h : R as s bs) :
    Option.Rel (fun s' b => R [] s' (bs ++ b)) (as.foldlM f s)
      ((as.mapM g).map List.flatten) := by
  induction as generalizing s bs with
  | nil => exact .some (by simpa using h)
  | cons a as ih =>
    rw [List.foldlM_cons, List.mapM_cons]
    have hmap : (do let b ← g a; let bs ← as.mapM g; pure (b :: bs)).map List.flatten =
        (g a).bind fun b => ((as.mapM g).map List.flatten).map (b ++ ·) := by
      rcases g a with - | b
      · rfl
      · rcases hbs : as.mapM g with - | bs <;> rfl
    rw [hmap]
    refine rel_bind (hstep a as s bs h) fun s' b hs' => rel_map_right ?_
    exact rel_mono (ih hs') fun t bs' ht => by rwa [← List.append_assoc]

end PartialRun
