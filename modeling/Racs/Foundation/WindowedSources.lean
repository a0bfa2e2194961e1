import Mathlib.Algebra.Order.BigOperators.Group.List
import Mathlib.Algebra.Order.Ring.Nat
import Mathlib.Tactic.SplitIfs

/-!
# Sources that are read by windows of time

Items with a time are kept in sources, some of which have a time of their own. A query for a window,
both of whose ends belong to it, reads the sources without a time of their own and those whose own
time is in the window, and takes from each the items in the window.

A window is cut at a time in it. The queries for the two halves should find together what the query
for the window finds, and what is at the cut once more. This is so if no source lies across the cut,
with its own time on one side and an item on the other.

## Main definitions

* `WindowedSources.query` — what a query for a window finds.
* `WindowedSources.OnItsSide` — a source does not lie across the cut.

## Main results

* `WindowedSources.perm_query_iff` — when the halves find what they should.
-/

namespace WindowedSources

/-- A source, with its own time if it has one. -/
structure Source (α β : Type*) where
  own : Option α
  items : List β

variable {α β : Type*} [LinearOrder α]

/-- A query for the window reads the source. -/
def Source.Read (s : Source α β) (lo hi : α) : Prop := ∀ n ∈ s.own, lo ≤ n ∧ n ≤ hi

instance (s : Source α β) (lo hi : α) : Decidable (s.Read lo hi) :=
  inferInstanceAs (Decidable (∀ n ∈ s.own, lo ≤ n ∧ n ≤ hi))

/-- What a query for the window takes from the source. -/
def Source.part (time : β → α) (lo hi : α) (s : Source α β) : List β :=
  if s.Read lo hi then s.items.filter fun x => lo ≤ time x ∧ time x ≤ hi else []

/-- What a query for the window finds. -/
def query (time : β → α) (lo hi : α) (sources : List (Source α β)) : List β :=
  sources.flatMap (Source.part time lo hi)

/-- A query for the window takes such an item from the source. -/
def Source.Takes (time : β → α) (lo hi : α) (s : Source α β) (x : β) : Prop :=
  s.Read lo hi ∧ lo ≤ time x ∧ time x ≤ hi

/-- If the source is read for the window, no item in the window is on the other side of the cut than
the own time of the source. -/
def OnItsSide (time : β → α) (lo mid hi : α) (s : Source α β) : Prop :=
  s.Read lo hi → ∀ x ∈ s.items, lo ≤ time x → time x ≤ hi →
    (time x < mid → ∀ n ∈ s.own, n ≤ mid) ∧ (mid < time x → ∀ n ∈ s.own, mid ≤ n)

variable {time : β → α} {lo mid hi : α} {s : Source α β} {x : β}

/-! ### One item -/

/-- What is taken for a half is taken for the window. -/
theorem Source.Takes.of_left (hhi : mid ≤ hi) (h : s.Takes time lo mid x) :
    s.Takes time lo hi x :=
  ⟨fun n hn => ⟨(h.1 n hn).1, (h.1 n hn).2.trans hhi⟩, h.2.1, h.2.2.trans hhi⟩

theorem Source.Takes.of_right (hlo : lo ≤ mid) (h : s.Takes time mid hi x) :
    s.Takes time lo hi x :=
  ⟨fun n hn => ⟨hlo.trans (h.1 n hn).1, (h.1 n hn).2⟩, hlo.trans h.2.1, h.2.2⟩

/-- Both halves take what is taken at the cut. -/
theorem takes_both_iff (hlo : lo ≤ mid) (hhi : mid ≤ hi) :
    s.Takes time lo mid x ∧ s.Takes time mid hi x ↔ s.Takes time mid mid x := by
  constructor
  · rintro ⟨hleft, hright⟩
    exact ⟨fun n hn => ⟨(hright.1 n hn).1, (hleft.1 n hn).2⟩, hright.2.1, hleft.2.2⟩
  · exact fun h => ⟨h.of_right hlo, h.of_left hhi⟩

/-- **One of the halves takes the item**, if it is not on the other side of the cut than the own
time of the source. -/
theorem Source.Takes.left_or_right_iff (h : s.Takes time lo hi x) :
    s.Takes time lo mid x ∨ s.Takes time mid hi x ↔
      (time x < mid → ∀ n ∈ s.own, n ≤ mid) ∧ (mid < time x → ∀ n ∈ s.own, mid ≤ n) := by
  have hleft : s.Takes time lo mid x ↔ (∀ n ∈ s.own, n ≤ mid) ∧ time x ≤ mid :=
    ⟨fun hl => ⟨fun n hn => (hl.1 n hn).2, hl.2.2⟩,
      fun ⟨hown, hx⟩ => ⟨fun n hn => ⟨(h.1 n hn).1, hown n hn⟩, h.2.1, hx⟩⟩
  have hright : s.Takes time mid hi x ↔ (∀ n ∈ s.own, mid ≤ n) ∧ mid ≤ time x :=
    ⟨fun hr => ⟨fun n hn => (hr.1 n hn).1, hr.2.1⟩,
      fun ⟨hown, hx⟩ => ⟨fun n hn => ⟨hown n hn, (h.1 n hn).2⟩, hx, h.2.2⟩⟩
  rw [hleft, hright]
  rcases lt_trichotomy (time x) mid with hx | hx | hx
  · simp only [hx, hx.le, hx.not_ge, hx.not_gt, and_true, and_false, or_false, true_implies,
      false_implies]
  · -- at the cut, the own time of the source is on one of the sides
    simp only [hx, le_refl, lt_self_iff_false, and_true, false_implies, iff_true]
    cases s.own with
    | none => exact .inl fun n hn => nomatch hn
    | some m =>
      rcases le_total m mid with hle | hle
      · exact .inl fun n hn => Option.some.inj hn ▸ hle
      · exact .inr fun n hn => Option.some.inj hn ▸ hle
  · simp only [hx, hx.le, hx.not_ge, hx.not_gt, and_true, and_false, false_or, true_implies,
      false_implies, true_and]

/-! ### All items -/

section Count

variable [DecidableEq β]

open Classical in
theorem count_part (x : β) : (s.part time lo hi).count x =
    if s.Takes time lo hi x then s.items.count x else 0 := by
  rw [Source.part]
  split_ifs with hread htakes htakes
  · exact List.count_filter (decide_eq_true htakes.2)
  · exact List.count_eq_zero.mpr fun hmem =>
      htakes ⟨hread, of_decide_eq_true (List.mem_filter.mp hmem).2⟩
  · exact absurd htakes.1 hread
  · rfl

/-- The halves take an item at most as often as the window and its cut. -/
theorem count_parts_le (hlo : lo ≤ mid) (hhi : mid ≤ hi) (s : Source α β) (x : β) :
    (s.part time lo mid ++ s.part time mid hi).count x ≤
      (s.part time lo hi ++ s.part time mid mid).count x := by
  have hleft : s.Takes time lo mid x → s.Takes time lo hi x := fun h => h.of_left hhi
  have hright : s.Takes time mid hi x → s.Takes time lo hi x := fun h => h.of_right hlo
  have hboth := @takes_both_iff _ _ _ time lo mid hi s x hlo hhi
  simp only [List.count_append, count_part]
  split_ifs <;> grind

/-- They take it as often if one of them takes what the window takes. -/
theorem count_parts_eq_iff (hlo : lo ≤ mid) (hhi : mid ≤ hi) (hx : x ∈ s.items) :
    (s.part time lo mid ++ s.part time mid hi).count x =
        (s.part time lo hi ++ s.part time mid mid).count x ↔
      (s.Takes time lo hi x → s.Takes time lo mid x ∨ s.Takes time mid hi x) := by
  have hleft : s.Takes time lo mid x → s.Takes time lo hi x := fun h => h.of_left hhi
  have hright : s.Takes time mid hi x → s.Takes time lo hi x := fun h => h.of_right hlo
  have hboth := @takes_both_iff _ _ _ time lo mid hi s x hlo hhi
  have hpos := List.count_pos_iff.mpr hx
  simp only [List.count_append, count_part]
  split_ifs <;> grind

end Count

/-- Sums of which one is at most the other, part by part, are equal if all parts are. -/
theorem sum_map_eq_iff {ι : Type*} {f g : ι → ℕ} {l : List ι} (hle : ∀ i ∈ l, f i ≤ g i) :
    (l.map f).sum = (l.map g).sum ↔ ∀ i ∈ l, f i = g i := by
  constructor
  · intro hsum i hi
    by_contra hne
    exact (List.sum_lt_sum f g hle ⟨i, hi, (hle i hi).lt_of_ne hne⟩).ne hsum
  · exact fun heq => congrArg List.sum (List.map_congr_left heq)

/-- **The halves find together what is in the window, and what is at the cut once more**, if no
source lies across the cut. -/
theorem perm_query_iff (hlo : lo ≤ mid) (hhi : mid ≤ hi) (sources : List (Source α β)) :
    (query time lo mid sources ++ query time mid hi sources).Perm
        (query time lo hi sources ++ query time mid mid sources) ↔
      ∀ s ∈ sources, OnItsSide time lo mid hi s := by
  classical
  have hcount : ∀ x, (query time lo mid sources ++ query time mid hi sources).count x =
        (query time lo hi sources ++ query time mid mid sources).count x ↔
      ∀ s ∈ sources, (s.part time lo mid ++ s.part time mid hi).count x =
        (s.part time lo hi ++ s.part time mid mid).count x := by
    intro x
    rw [← sum_map_eq_iff fun s _ => count_parts_le hlo hhi s x]
    simp only [query, List.count_append, List.count_flatMap, List.sum_map_add, Function.comp_def]
  rw [List.perm_iff_count]
  constructor
  · intro hall s hs hread x hx hfirst hlast
    have htakes : s.Takes time lo hi x := ⟨hread, hfirst, hlast⟩
    have hone := (count_parts_eq_iff hlo hhi hx).mp ((hcount x).mp (hall x) s hs)
    exact htakes.left_or_right_iff.mp (hone htakes)
  · intro hside x
    refine (hcount x).mpr fun s hs => ?_
    by_cases hx : x ∈ s.items
    · exact (count_parts_eq_iff hlo hhi hx).mpr fun htakes =>
        htakes.left_or_right_iff.mpr (hside s hs htakes.1 x hx htakes.2.1 htakes.2.2)
    · simp only [List.count_append, count_part, List.count_eq_zero.mpr hx, ite_self]

end WindowedSources
