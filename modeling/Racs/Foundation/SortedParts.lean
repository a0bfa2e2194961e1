import Mathlib.Data.List.Flatten
import Mathlib.Data.List.Forall2
import Mathlib.Data.List.Induction
import Mathlib.Order.Basic

/-!
# Parts of a sequence in the order of their keys

A sequence is cut into parts, each with a key. A reader goes through the parts by ascending keys and
takes something out of each, in order. What it has taken in the end is in the order of the sequence
if the keys of the parts that it takes something from are in the order of the parts.

## Main definitions

* `SortedParts.groups` — a sequence cut into parts of one length.

## Main results

* `SortedParts.sublist_of_pairwise` — elements that are in the same order in two lists.
* `SortedParts.flatten_sublist` — what is taken by ascending keys.
-/

namespace SortedParts

variable {α β κ : Type*}

/-! ### Groups -/

/-- The sequence in groups of `n`, and what is behind the last group that an element follows. -/
def groups (n : ℕ) (as : List α) : List (List α) × List α :=
  as.foldl (fun g a => if n ≤ g.2.length then (g.1 ++ [g.2], [a]) else (g.1, g.2 ++ [a])) ([], [])

theorem groups_concat (n : ℕ) (as : List α) (a : α) :
    groups n (as ++ [a]) =
      if n ≤ (groups n as).2.length then ((groups n as).1 ++ [(groups n as).2], [a])
      else ((groups n as).1, (groups n as).2 ++ [a]) := by
  rw [groups, List.foldl_append]
  rfl

/-- Behind one another the groups are the sequence. -/
theorem flatten_groups (n : ℕ) (as : List α) :
    (groups n as).1.flatten ++ (groups n as).2 = as := by
  induction as using List.reverseRecOn with
  | nil => rfl
  | append_singleton as a ih =>
    rw [groups_concat]
    split_ifs
    · rw [List.flatten_append, List.flatten_singleton, ih]
    · rw [← List.append_assoc, ih]

theorem length_groups {n : ℕ} (hn : 0 < n) (as : List α) :
    (∀ g ∈ (groups n as).1, g.length = n) ∧ (groups n as).2.length ≤ n := by
  induction as using List.reverseRecOn with
  | nil => exact ⟨fun g hg => absurd hg List.not_mem_nil, Nat.zero_le n⟩
  | append_singleton as a ih =>
    obtain ⟨hfull, hlast⟩ := ih
    rw [groups_concat]
    split_ifs with hle
    · refine ⟨fun g hg => ?_, hn⟩
      rcases List.mem_append.mp hg with hg | hg
      · exact hfull g hg
      · rw [List.mem_singleton.mp hg]
        exact Nat.le_antisymm hlast hle
    · refine ⟨hfull, ?_⟩
      rw [List.length_append, List.length_singleton]
      omega

/-- Groups that are closed stay. -/
theorem groups_append (n : ℕ) (as bs : List α) :
    (groups n as).1 <+: (groups n (as ++ bs)).1 := by
  induction bs using List.reverseRecOn with
  | nil => exact (List.append_nil as).symm ▸ List.prefix_refl _
  | append_singleton bs b ih =>
    rw [← List.append_assoc, groups_concat]
    split_ifs
    · exact ih.trans (List.prefix_append _ _)
    · exact ih

/-! ### What is taken -/

/-- Elements of a list in the order of a relation that the list does not contradict. -/
theorem sublist_of_pairwise {r : α → α → Prop} (hirrefl : ∀ a, ¬ r a a) {as l : List α}
    (has : as.Pairwise r) (hsub : as ⊆ l)
    (hl : l.Pairwise fun a b => a ∈ as → b ∈ as → ¬ r b a) : as.Sublist l := by
  induction l generalizing as with
  | nil => exact List.subset_nil.mp hsub ▸ List.Sublist.refl _
  | cons b l ih =>
    obtain ⟨hb, hl'⟩ := List.pairwise_cons.mp hl
    cases as with
    | nil => exact List.nil_sublist _
    | cons a as =>
      obtain ⟨ha, has'⟩ := List.pairwise_cons.mp has
      by_cases hab : a = b
      · subst hab
        refine List.Sublist.cons_cons a (ih has' (fun c hc => ?_) ?_)
        · rcases List.mem_cons.mp (hsub (List.mem_cons_of_mem _ hc)) with rfl | hmem
          · exact absurd (ha c hc) (hirrefl c)
          · exact hmem
        · exact hl'.imp fun h hc hd => h (List.mem_cons_of_mem _ hc) (List.mem_cons_of_mem _ hd)
      · have hal : a ∈ l := (List.mem_cons.mp (hsub List.mem_cons_self)).resolve_left hab
        refine List.Sublist.cons b (ih has (fun c hc => ?_) hl')
        rcases List.mem_cons.mp (hsub hc) with rfl | hmem
        · -- the first of the list would have to come behind `a`
          rcases List.mem_cons.mp hc with rfl | hc'
          · exact absurd rfl hab
          · exact absurd (ha c hc') (hb a hal hc List.mem_cons_self)
        · exact hmem

/-- The parts that something is taken from. -/
theorem exists_parts {part : β → List α} {key : β → κ} {parts : List β} {keys : List κ}
    {taken : List (List α)}
    (h : List.Forall₂ (fun k as => as ≠ [] → ∃ b ∈ parts, key b = k ∧ as.Sublist (part b))
      keys taken) :
    ∃ bs : List β, bs ⊆ parts ∧ (∀ b ∈ bs, part b ≠ []) ∧ (bs.map key).Sublist keys ∧
      taken.flatten.Sublist (bs.flatMap part) := by
  induction h with
  | nil => exact ⟨[], List.nil_subset _, fun b hb => absurd hb List.not_mem_nil,
      List.Sublist.refl _, List.Sublist.refl _⟩
  | @cons k as keys taken hk _ ih =>
    obtain ⟨bs, hsub, hne, hkeys, htaken⟩ := ih
    by_cases has : as = []
    · subst has
      exact ⟨bs, hsub, hne, hkeys.cons k, htaken⟩
    · obtain ⟨b, hb, rfl, hpart⟩ := hk has
      refine ⟨b :: bs, List.cons_subset.mpr ⟨hb, hsub⟩, ?_, hkeys.cons_cons _, hpart.append htaken⟩
      refine List.forall_mem_cons.mpr ⟨fun hnil => has ?_, hne⟩
      exact List.sublist_nil.mp (hnil ▸ hpart)

/-- **What is taken by ascending keys** is in the order of the parts if their keys are. -/
theorem flatten_sublist [Preorder κ] {part : β → List α} {key : β → κ} {parts : List β}
    {keys : List κ} {taken : List (List α)}
    (h : List.Forall₂ (fun k as => as ≠ [] → ∃ b ∈ parts, key b = k ∧ as.Sublist (part b))
      keys taken)
    (hkeys : keys.Pairwise (· < ·))
    (hparts : parts.Pairwise fun b c => part b ≠ [] → part c ≠ [] → key b ≤ key c) :
    taken.flatten.Sublist (parts.flatMap part) := by
  obtain ⟨bs, hsub, hne, hmap, htaken⟩ := exists_parts h
  have hbs : bs.Pairwise fun b c => key b < key c := List.pairwise_map.mp (hkeys.sublist hmap)
  have hsublist : bs.Sublist parts :=
    sublist_of_pairwise (fun b => lt_irrefl (key b)) hbs hsub
      (hparts.imp fun hle hb hc => not_lt_of_ge (hle (hne _ hb) (hne _ hc)))
  exact htaken.trans (hsublist.flatMap part)

end SortedParts
