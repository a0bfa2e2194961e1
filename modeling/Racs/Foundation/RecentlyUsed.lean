import Racs.Foundation.PartialRun
import Mathlib.Data.List.Induction
import Mathlib.Data.List.Nodup

/-!
# Maps that forget what was not used

A bounded map keeps its entries in the order of their last use, the last one first. A search uses
the key that it finds. A put uses its key: an entry that is there keeps its value, and otherwise a
new one is added, for which the last entry is dropped when the map is full.

## Main definitions

* `RecentlyUsed.Op`, `RecentlyUsed.step`, `RecentlyUsed.contents` — the entries after a history.
* `RecentlyUsed.usedKeys` — the keys that a history used, the last one first.

## Main results

* `RecentlyUsed.mem_contents` — every entry was put.
* `RecentlyUsed.nodup_contents`, `RecentlyUsed.length_contents_le`.
* `RecentlyUsed.pairwise_contents` — the entries are in the order of their last use.
-/

namespace RecentlyUsed

open PartialRun

variable {κ ν : Type*} [DecidableEq κ]

/-- An operation on the map. -/
inductive Op (κ ν : Type*)
  | get (key : κ)
  | put (key : κ) (value : ν)

/-- The entry of a key. -/
def entry (entries : List (κ × ν)) (key : κ) : Option (κ × ν) :=
  entries.find? fun e => e.1 = key

/-- The entry of the key in front of the others. -/
def refresh (entries : List (κ × ν)) (key : κ) : List (κ × ν) :=
  (entry entries key).toList ++ entries.filter fun e => e.1 ≠ key

/-- The entries after an operation. -/
def step (capacity : ℕ) (entries : List (κ × ν)) : Op κ ν → List (κ × ν)
  | .get key => refresh entries key
  | .put key value =>
    if (entry entries key).isSome then refresh entries key
    else (key, value) :: if capacity ≤ entries.length then entries.dropLast else entries

/-- What an operation finds. -/
def Op.reply (entries : List (κ × ν)) : Op κ ν → Option ν
  | .get key => (entry entries key).map Prod.snd
  | .put _ _ => none

/-- The key that an operation uses. -/
def Op.uses (entries : List (κ × ν)) : Op κ ν → List κ
  | .get key => if (entry entries key).isSome then [key] else []
  | .put key _ => [key]

/-- The entries after a history. -/
def contents (capacity : ℕ) (history : List (Op κ ν)) : List (κ × ν) :=
  history.foldl (step capacity) []

/-- What the operations of a history found. -/
def replies (capacity : ℕ) (history : List (Op κ ν)) : List (Option ν) :=
  along (fun past op => op.reply (contents capacity past)) [] history

/-- The keys that a history used, the last one first. -/
def usedKeys (capacity : ℕ) (history : List (Op κ ν)) : List κ :=
  (along (fun past op => op.uses (contents capacity past)) [] history).reverse.flatten

variable {capacity : ℕ} {entries : List (κ × ν)} {key : κ}

theorem contents_concat (history : List (Op κ ν)) (op : Op κ ν) :
    contents capacity (history ++ [op]) = step capacity (contents capacity history) op := by
  rw [contents, List.foldl_append]
  rfl

theorem replies_concat (history : List (Op κ ν)) (op : Op κ ν) :
    replies capacity (history ++ [op]) =
      replies capacity history ++ [op.reply (contents capacity history)] :=
  along_concat _ _ _ _

theorem usedKeys_concat (history : List (Op κ ν)) (op : Op κ ν) :
    usedKeys capacity (history ++ [op]) =
      op.uses (contents capacity history) ++ usedKeys capacity history := by
  rw [usedKeys, along_concat, List.reverse_append, List.reverse_singleton, List.singleton_append,
    List.flatten_cons]
  rfl

/-! ### One operation -/

theorem entry_eq_none_iff : entry entries key = none ↔ key ∉ entries.map Prod.fst := by
  rw [entry, List.find?_eq_none, List.mem_map, not_exists]
  simp

theorem entry_eq_some_iff (h : (entries.map Prod.fst).Nodup) {e : κ × ν} :
    entry entries key = some e ↔ e ∈ entries ∧ e.1 = key := by
  constructor
  · intro hentry
    exact ⟨List.mem_of_find?_eq_some hentry, by simpa using List.find?_some hentry⟩
  · rintro ⟨hmem, rfl⟩
    have hinj := List.inj_on_of_nodup_map h
    cases hentry : entry entries e.1 with
    | none => exact absurd (List.mem_map_of_mem hmem) (entry_eq_none_iff.mp hentry)
    | some e' =>
      have hkey : e'.1 = e.1 := by simpa using List.find?_some hentry
      rw [hinj (List.mem_of_find?_eq_some hentry) hmem hkey]

/-- The entry that was somewhere in the list comes first. -/
theorem refresh_append_cons {ys zs : List (κ × ν)} {e : κ × ν}
    (h : ((ys ++ e :: zs).map Prod.fst).Nodup) :
    refresh (ys ++ e :: zs) e.1 = e :: (ys ++ zs) := by
  have hentry : entry (ys ++ e :: zs) e.1 = some e := (entry_eq_some_iff h).mpr ⟨by simp, rfl⟩
  have hne : ∀ e' ∈ ys ++ zs, e'.1 ≠ e.1 := by
    rw [List.map_append, List.map_cons, List.nodup_middle, List.nodup_cons, ← List.map_append] at h
    exact fun e' he' heq => h.1 (heq ▸ List.mem_map_of_mem he')
  have hfilter : (ys ++ e :: zs).filter (fun e' => e'.1 ≠ e.1) = ys ++ zs := by
    rw [List.filter_append, List.filter_cons_of_neg (by simp), ← List.filter_append,
      List.filter_eq_self]
    exact fun e' he' => by simpa using hne e' he'
  rw [refresh, hentry, hfilter]
  rfl

theorem refresh_of_none (h : entry entries key = none) : refresh entries key = entries := by
  rw [refresh, h, Option.toList_none, List.nil_append, List.filter_eq_self]
  intro e he
  have hne : e.1 ≠ key := fun heq =>
    entry_eq_none_iff.mp h (heq ▸ List.mem_map_of_mem he)
  simpa using hne

/-- Nothing is lost or added when an entry is moved to the front. -/
theorem refresh_perm (h : (entries.map Prod.fst).Nodup) (key : κ) :
    (refresh entries key).Perm entries := by
  cases hentry : entry entries key with
  | none => rw [refresh_of_none hentry]
  | some e =>
    obtain ⟨hmem, rfl⟩ := (entry_eq_some_iff h).mp hentry
    obtain ⟨ys, zs, rfl⟩ := List.append_of_mem hmem
    rw [refresh_append_cons h]
    exact List.perm_middle.symm

theorem entry_refresh (h : (entries.map Prod.fst).Nodup) (key key' : κ) :
    entry (refresh entries key) key' = entry entries key' := by
  have hperm := refresh_perm h key
  refine Option.ext fun e => ?_
  rw [entry_eq_some_iff h, entry_eq_some_iff ((hperm.map Prod.fst).nodup_iff.mpr h), hperm.mem_iff]

theorem entry_cons (e : κ × ν) (entries : List (κ × ν)) (key : κ) :
    entry (e :: entries) key = if e.1 = key then some e else entry entries key := by
  rw [entry, List.find?_cons]
  split_ifs with heq
  · simp only [heq, decide_true]
  · simp only [heq, decide_false]
    rfl

/-- Without the last entry, its key has none. -/
theorem entry_dropLast {e : κ × ν} (h : ((entries ++ [e]).map Prod.fst).Nodup) (key : κ) :
    entry entries key = if key = e.1 then none else entry (entries ++ [e]) key := by
  rw [List.map_append, List.nodup_append] at h
  split_ifs with heq
  · rw [heq, entry_eq_none_iff]
    exact fun hmem => h.2.2 _ hmem _ List.mem_cons_self rfl
  · have hne : ¬ e.1 = key := fun he => heq he.symm
    have hlast : [e].find? (fun e => decide (e.1 = key)) = none := by
      rw [List.find?_eq_none]
      simpa using hne
    rw [entry, entry, List.find?_append, hlast, Option.or_none]

omit [DecidableEq κ] in
/-- What is left of the entries when a new one is added. -/
theorem room_sublist (capacity : ℕ) (entries : List (κ × ν)) :
    (if capacity ≤ entries.length then entries.dropLast else entries).Sublist entries := by
  split_ifs
  · exact List.dropLast_sublist entries
  · exact List.Sublist.refl entries

/-- **What an operation does**: it finds nothing, it moves an entry to the front, or it puts a new
one there. -/
theorem step_cases (capacity : ℕ) (entries : List (κ × ν)) (op : Op κ ν) :
    (op.uses entries = [] ∧ step capacity entries op = entries) ∨
    (∃ e, entry entries e.1 = some e ∧ op.uses entries = [e.1] ∧
      step capacity entries op = refresh entries e.1) ∨
    ∃ e, e.1 ∉ entries.map Prod.fst ∧ op = .put e.1 e.2 ∧ step capacity entries op =
      e :: if capacity ≤ entries.length then entries.dropLast else entries := by
  have hfound : ∀ {key e}, entry entries key = some e → e.1 = key := fun hentry => by
    simpa using List.find?_some hentry
  cases op with
  | get key =>
    rw [Op.uses, step]
    cases hentry : entry entries key with
    | none => exact .inl ⟨rfl, refresh_of_none hentry⟩
    | some e =>
      obtain rfl := hfound hentry
      exact .inr (.inl ⟨e, hentry, rfl, rfl⟩)
  | put key value =>
    rw [Op.uses, step]
    cases hentry : entry entries key with
    | none => exact .inr (.inr ⟨(key, value), entry_eq_none_iff.mp hentry, rfl, rfl⟩)
    | some e =>
      obtain rfl := hfound hentry
      exact .inr (.inl ⟨e, hentry, rfl, rfl⟩)

theorem nodup_step (h : (entries.map Prod.fst).Nodup) (op : Op κ ν) :
    ((step capacity entries op).map Prod.fst).Nodup := by
  rcases step_cases capacity entries op with ⟨-, hstep⟩ | ⟨e, -, -, hstep⟩ | ⟨e, hnew, -, hstep⟩
  · rwa [hstep]
  · rw [hstep]
    exact ((refresh_perm h e.1).map Prod.fst).nodup_iff.mpr h
  · have hsub := (room_sublist capacity entries).map Prod.fst
    rw [hstep, List.map_cons, List.nodup_cons]
    exact ⟨fun hmem => hnew (hsub.subset hmem), h.sublist hsub⟩

theorem length_step_le (hcapacity : 0 < capacity) (h : (entries.map Prod.fst).Nodup)
    (hle : entries.length ≤ capacity) (op : Op κ ν) :
    (step capacity entries op).length ≤ capacity := by
  rcases step_cases capacity entries op with ⟨-, hstep⟩ | ⟨e, -, -, hstep⟩ | ⟨e, -, -, hstep⟩
  · rwa [hstep]
  · rwa [hstep, (refresh_perm h e.1).length_eq]
  · rw [hstep, List.length_cons]
    split_ifs
    · rw [List.length_dropLast]
      omega
    · omega

/-- The entries are in the order of the uses. -/
def Ordered (used : List κ) (entries : List (κ × ν)) : Prop :=
  (entries.map Prod.fst).Pairwise fun a b => used.idxOf a < used.idxOf b

/-- A key that is used goes in front. -/
theorem Ordered.cons {used : List κ} (h : Ordered used entries) {e : κ × ν}
    (he : e.1 ∉ entries.map Prod.fst) : Ordered (e.1 :: used) (e :: entries) := by
  refine List.pairwise_cons.mpr ⟨fun b hb => ?_, h.imp_of_mem fun {a b} ha hb hab => ?_⟩
  · have hne : e.1 ≠ b := fun heq => he (heq ▸ hb)
    rw [List.idxOf_cons_self, List.idxOf_cons_ne _ hne]
    exact Nat.succ_pos _
  · have hane : e.1 ≠ a := fun heq => he (heq ▸ ha)
    have hbne : e.1 ≠ b := fun heq => he (heq ▸ hb)
    rw [List.idxOf_cons_ne _ hane, List.idxOf_cons_ne _ hbne]
    exact Nat.succ_lt_succ hab

theorem Ordered.refresh {used : List κ} (h : Ordered used entries)
    (hnodup : (entries.map Prod.fst).Nodup) {e : κ × ν} (hentry : entry entries key = some e) :
    Ordered (key :: used) (refresh entries key) := by
  obtain ⟨hmem, rfl⟩ := (entry_eq_some_iff hnodup).mp hentry
  obtain ⟨ys, zs, rfl⟩ := List.append_of_mem hmem
  rw [refresh_append_cons hnodup]
  rw [List.map_append, List.map_cons, List.nodup_middle, List.nodup_cons, ← List.map_append]
    at hnodup
  have hsub : (ys ++ zs).Sublist (ys ++ e :: zs) := .append_left (List.sublist_cons_self e zs) ys
  exact Ordered.cons (List.Pairwise.sublist (hsub.map Prod.fst) h) hnodup.1

/-- **An operation keeps the order of the last uses.** -/
theorem Ordered.step {used : List κ} (h : Ordered used entries)
    (hnodup : (entries.map Prod.fst).Nodup) (op : Op κ ν) :
    Ordered (op.uses entries ++ used) (step capacity entries op) := by
  rcases step_cases capacity entries op with
    ⟨huses, hstep⟩ | ⟨e, hentry, huses, hstep⟩ | ⟨e, hnew, rfl, hstep⟩
  · rwa [huses, hstep]
  · rw [huses, hstep]
    exact h.refresh hnodup hentry
  · have hsub := (room_sublist capacity entries).map Prod.fst
    rw [hstep]
    exact Ordered.cons (List.Pairwise.sublist hsub h) fun hmem => hnew (hsub.subset hmem)

/-! ### Histories -/

theorem nodup_contents (history : List (Op κ ν)) :
    ((contents capacity history).map Prod.fst).Nodup := by
  induction history using List.reverseRecOn with
  | nil => exact List.nodup_nil
  | append_singleton history op ih =>
    rw [contents_concat]
    exact nodup_step ih op

theorem length_contents_le (hcapacity : 0 < capacity) (history : List (Op κ ν)) :
    (contents capacity history).length ≤ capacity := by
  induction history using List.reverseRecOn with
  | nil => exact Nat.zero_le _
  | append_singleton history op ih =>
    rw [contents_concat]
    exact length_step_le hcapacity (nodup_contents history) ih op

/-- **The entries are in the order of their last use.** -/
theorem pairwise_contents (history : List (Op κ ν)) :
    Ordered (usedKeys capacity history) (contents capacity history) := by
  induction history using List.reverseRecOn with
  | nil => exact List.Pairwise.nil
  | append_singleton history op ih =>
    rw [contents_concat, usedKeys_concat]
    exact ih.step (nodup_contents history) op

/-- After a put there is an entry. -/
theorem contents_ne_nil {history : List (Op κ ν)} {value : ν} (h : Op.put key value ∈ history) :
    contents capacity history ≠ [] := by
  induction history using List.reverseRecOn with
  | nil => cases h
  | append_singleton history op ih =>
    rw [contents_concat]
    rcases step_cases capacity (contents capacity history) op with
      ⟨huses, hstep⟩ | ⟨e, hentry, -, hstep⟩ | ⟨e, -, -, hstep⟩
    · rw [hstep]
      refine ih ((List.mem_append.mp h).resolve_right fun hmem => ?_)
      rw [← List.mem_singleton.mp hmem] at huses
      cases huses
    · rw [hstep]
      exact fun heq => List.ne_nil_of_mem (List.mem_of_find?_eq_some hentry)
        (heq ▸ refresh_perm (nodup_contents history) e.1).nil_eq.symm
    · rw [hstep]
      exact List.cons_ne_nil _ _

/-- Every entry was put. -/
theorem mem_contents {history : List (Op κ ν)} {e : κ × ν} (h : e ∈ contents capacity history) :
    Op.put e.1 e.2 ∈ history := by
  induction history using List.reverseRecOn with
  | nil => cases h
  | append_singleton history op ih =>
    rw [contents_concat] at h
    rcases step_cases capacity (contents capacity history) op with
      ⟨-, hstep⟩ | ⟨e', -, -, hstep⟩ | ⟨e', -, rfl, hstep⟩
    · exact List.mem_append_left _ (ih (hstep ▸ h))
    · rw [hstep] at h
      exact List.mem_append_left _ (ih ((refresh_perm (nodup_contents history) e'.1).subset h))
    · rw [hstep] at h
      rcases List.mem_cons.mp h with rfl | h
      · exact List.mem_concat_self
      · exact List.mem_append_left _ (ih ((room_sublist capacity _).subset h))

end RecentlyUsed
